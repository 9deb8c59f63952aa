import MfskCore.Library.Machine
import MfskCore.Library.StagedLedger
import MfskCore.Rust.Text
import Mathlib.Data.List.Forall2
import Mathlib.Data.List.Infix

/-! The log fanout (`log_sink.rs`): the panel, the flash log, and the UDP sink with the ring that holds the lines
it cannot take yet. A lock is tried once, and the outcome is part of the call. -/
namespace MfskCore.App
open Rust Library

def LINE_MAX : Nat := 160
def LCD_LINES : Nat := 12
def STAGING_LINES : Nat := 32
def FLUSH_PER_CALL : Nat := 4

abbrev LogLine := HString LINE_MAX

def isCharBoundary (line : Str) (i : Nat) : Bool := line.inits.any fun p => byteLen p = i

/-- `end` is lowered until it is a character boundary. -/
def boundaryFrom (line : Str) : Nat → Nat
  | 0 => 0
  | stop + 1 => if isCharBoundary line (stop + 1) then stop + 1 else boundaryFrom line stop

/-- `&line[..end]`. -/
def sliceTo (line : Str) (stop : Nat) : Str := (line.inits.find? fun p => byteLen p = stop).getD []

def clip (line : Str) : Str :=
  if byteLen line ≤ LINE_MAX then line else sliceTo line (boundaryFrom line (LINE_MAX - 1))

/-- The line as the panel and the ring keep it. -/
def logLine (line : Str) : LogLine :=
  let truncated := clip line
  let s := HString.empty.pushStr truncated
  if byteLen truncated < byteLen line then (s.push '~').getD s else s

structure LcdPanel where
  lines : List LogLine
  dirty : Bool

def LcdPanel.push (lcd : LcdPanel) (line : Str) : LcdPanel where
  lines := (if lcd.lines.length = LCD_LINES then lcd.lines.drop 1 else lcd.lines) ++ [logLine line]
  dirty := true

/-- `flash` is what the flash log has been given; `udp` says whether the sink is there. -/
structure LogFanout where
  lcd : LcdPanel
  staging : List LogLine
  flash : Option (List Str)
  udp : Bool

/-- What a call hands to the sink, and the lines it loses. -/
inductive Event where
  | sent (line : Str)
  | evicted (line : LogLine)
  | refused (line : Str)

/-- Which locks are free when a line is pushed. The ring's is tried once for the panel and once for the sink. -/
structure Locks where
  lcd : Bool
  stagingForLcd : Bool
  flash : Bool
  udp : Bool
  staging : Bool

namespace LogFanout

def new : LogFanout := ⟨⟨[],false⟩,[],none,false⟩

def stagingPush (s : LogFanout) (line : Str) : LogFanout × List Event :=
  if s.staging.length = STAGING_LINES then
    ({ s with staging := s.staging.drop 1 ++ [logLine line] },(s.staging.take 1).map .evicted)
  else ({ s with staging := s.staging ++ [logLine line] },[])

def stageOrRefuse (s : LogFanout) (line : Str) (free : Bool) : LogFanout × List Event :=
  if free then s.stagingPush line else (s,[.refused line])

def pushLcd (s : LogFanout) (line : Str) (locks : Locks) : LogFanout × List Event :=
  if locks.lcd then ({ s with lcd := s.lcd.push line },[])
  else if locks.stagingForLcd then s.stagingPush line
  else (s,[])

def pushFlash (s : LogFanout) (line : Str) (locks : Locks) : LogFanout :=
  if locks.flash then { s with flash := s.flash.map fun written => written ++ [line] } else s

/-- With the sink there, at most four staged lines go out before the new one. -/
def pushUdp (s : LogFanout) (line : Str) (locks : Locks) : LogFanout × List Event :=
  if locks.udp && s.udp then
    let n := if locks.staging then FLUSH_PER_CALL else 0
    ({ s with staging := s.staging.drop n },(s.staging.take n).map (fun staged => .sent staged.chars) ++ [.sent line])
  else s.stageOrRefuse line locks.staging

def push (s : LogFanout) (line : Str) (locks : Locks) : LogFanout × List Event :=
  let lcd := s.pushLcd line locks
  let udp := (lcd.1.pushFlash line locks).pushUdp line locks
  (udp.1,lcd.2 ++ udp.2)

def drainStagingToUdp (s : LogFanout) (udpFree stagingFree : Bool) : LogFanout × List Event :=
  if udpFree && s.udp && stagingFree then
    ({ s with staging := [] },s.staging.map fun staged => .sent staged.chars)
  else (s,[])

end LogFanout

inductive Op where
  | push (line : Str) (locks : Locks)
  | drainStagingToUdp (udpFree stagingFree : Bool)
  | installUdp
  | installFlash

def LogFanout.step (s : LogFanout) : Op → LogFanout × List Event
  | .push line locks => s.push line locks
  | .drainStagingToUdp udpFree stagingFree => s.drainStagingToUdp udpFree stagingFree
  | .installUdp => ({ s with udp := true },[])
  | .installFlash => ({ s with flash := some [] },[])

section Runs

def Op.pushed : Op → List Str
  | .push line _ => [line]
  | _ => []

def Event.sentLine : Event → Option Str
  | sent line => some line
  | _ => none

def Event.evictedLine : Event → Option Str
  | evicted line => some line.chars
  | _ => none

def Event.refusedLine : Event → Option Str
  | refused line => some line
  | _ => none

def pushedLines (ops : List Op) : List Str := ops.flatMap Op.pushed

def events (ops : List Op) : List Event := (outputs LogFanout.step LogFanout.new ops).flatten

def sentLines (ops : List Op) : List Str := (events ops).filterMap Event.sentLine

def evictedLines (ops : List Op) : List Str := (events ops).filterMap Event.evictedLine

def refusedLines (ops : List Op) : List Str := (events ops).filterMap Event.refusedLine

def stagedLines (ops : List Op) : List Str := (final LogFanout.step LogFanout.new ops).staging.map HString.chars

/-- Whether a text is the line pushed in a place, or what the ring keeps of it. -/
def isLine (pushed : List Str) (i : Nat) (text : Str) : Bool :=
  (pushed[i]?).any fun line => text = line || text = (logLine line).chars

/-- The sink is handed lines in the order they were pushed, each at most once, and the others are staged, evicted from
the full ring or refused because it was locked. -/
def OrderSurvives (ops : List Op) : Prop :=
  ∃ sent staged evicted refused : List Nat,
    (sent ++ staged ++ evicted ++ refused).Perm (List.range (pushedLines ops).length) ∧ sent.Pairwise (· < ·) ∧
    List.Forall₂ (fun i text => isLine (pushedLines ops) i text) sent (sentLines ops) ∧
    List.Forall₂ (fun i text => isLine (pushedLines ops) i text) staged (stagedLines ops) ∧
    List.Forall₂ (fun i text => isLine (pushedLines ops) i text) evicted (evictedLines ops) ∧
    List.Forall₂ (fun i text => isLine (pushedLines ops) i text) refused (refusedLines ops)

/-- A line is lost only when the ring is full or locked. -/
def LossExcused (s : LogFanout) (op : Op) : Prop :=
  ∀ e ∈ (s.step op).2, match e, op with
    | .evicted _, _ => s.staging.length = STAGING_LINES
    | .refused _, .push _ locks => locks.staging = false
    | .refused _, _ => False
    | .sent _, _ => True

/-- The lock of the panel is free. -/
def Op.lcdFree : Op → Prop
  | .push _ locks => locks.lcd = true
  | _ => True

/-- A line that goes out directly leaves none behind in the ring. -/
def FlushesAll (s : LogFanout) : Op → Prop
  | .push _ locks => locks.udp = true → s.udp = true →
    s.staging = [] ∨ (locks.staging = true ∧ s.staging.length ≤ FLUSH_PER_CALL)
  | _ => True

end Runs

section Lines
variable {pushed : List Str} {ids more : List Nat} {texts others : List Str}

/-- The texts are those of the lines with the given numbers. -/
def Lines (pushed : List Str) (ids : List Nat) (texts : List Str) : Prop :=
  List.Forall₂ (fun i text => isLine pushed i text) ids texts

theorem isLine_lt {i : Nat} {text : Str} (h : isLine pushed i text) : i < pushed.length := by
  rw [isLine,Option.any_eq_true] at h
  obtain ⟨line,hget,-⟩ := h
  exact (List.getElem?_eq_some_iff.1 hget).1

theorem Lines.append (h : Lines pushed ids texts) (h' : Lines pushed more others) :
    Lines pushed (ids ++ more) (texts ++ others) := List.rel_append h h'

theorem Lines.pushed_append (h : Lines pushed ids texts) (line : Str) : Lines (pushed ++ [line]) ids texts := by
  refine List.Forall₂.imp (fun i text hline => ?_) h
  rw [isLine,Option.any_eq_true] at *
  obtain ⟨found,hget,htext⟩ := hline
  exact ⟨found,by rw [List.getElem?_append_left (List.getElem?_eq_some_iff.1 hget).1,hget],htext⟩

theorem Lines.take (h : Lines pushed ids texts) (n : Nat) : Lines pushed (ids.take n) (texts.take n) :=
  List.forall₂_take n h

theorem Lines.drop (h : Lines pushed ids texts) (n : Nat) : Lines pushed (ids.drop n) (texts.drop n) :=
  List.forall₂_drop n h

theorem Lines.whole (pushed : List Str) (line : Str) : Lines (pushed ++ [line]) [pushed.length] [line] := by
  refine .cons ?_ .nil
  rw [isLine,List.getElem?_concat_length]
  simp

theorem Lines.clipped (pushed : List Str) (line : Str) :
    Lines (pushed ++ [line]) [pushed.length] [(logLine line).chars] := by
  refine .cons ?_ .nil
  rw [isLine,List.getElem?_concat_length]
  simp

end Lines

section Accounts
variable {ops : List Op}

/-- The state after the calls. -/
def stateAfter (ops : List Op) : LogFanout := final LogFanout.step LogFanout.new ops

/-- The ledger tells what became of every line that was pushed. -/
structure Accounts (ops : List Op) (l : Ledger) : Prop where
  arrivals : (pushedLines ops).length = l.arrivals
  sent : Lines (pushedLines ops) l.sent (sentLines ops)
  staged : Lines (pushedLines ops) l.staged (stagedLines ops)
  evicted : Lines (pushedLines ops) l.evicted (evictedLines ops)
  refused : Lines (pushedLines ops) l.refused (refusedLines ops)

theorem pushedLines_concat (ops : List Op) (op : Op) : pushedLines (ops ++ [op]) = pushedLines ops ++ op.pushed := by
  rw [pushedLines,List.flatMap_append,List.flatMap_singleton]
  rfl

theorem events_concat (ops : List Op) (op : Op) : events (ops ++ [op]) = events ops ++ ((stateAfter ops).step op).2 := by
  rw [events,outputs_append,List.flatten_append,outputs_cons,outputs_nil,List.flatten_singleton]
  rfl

theorem stateAfter_concat (ops : List Op) (op : Op) : stateAfter (ops ++ [op]) = ((stateAfter ops).step op).1 := by
  rw [stateAfter,final,run_append]
  rfl

/-- The accounts after one more call, from what it does to the ring and what it shows. -/
theorem Accounts.concat {l' : Ledger} {op : Op} {s' : LogFanout} {shown : List Event}
    (hstep : (stateAfter ops).step op = (s',shown))
    (harrivals : (pushedLines ops ++ op.pushed).length = l'.arrivals)
    (hsent : Lines (pushedLines ops ++ op.pushed) l'.sent (sentLines ops ++ shown.filterMap Event.sentLine))
    (hstaged : Lines (pushedLines ops ++ op.pushed) l'.staged (s'.staging.map HString.chars))
    (hevicted : Lines (pushedLines ops ++ op.pushed) l'.evicted (evictedLines ops ++ shown.filterMap Event.evictedLine))
    (hrefused : Lines (pushedLines ops ++ op.pushed) l'.refused (refusedLines ops ++ shown.filterMap Event.refusedLine)) :
    Accounts (ops ++ [op]) l' := by
  have hshown (f : Event → Option Str) :
      (events (ops ++ [op])).filterMap f = (events ops).filterMap f ++ shown.filterMap f := by
    rw [events_concat,hstep,List.filterMap_append]
  have hring : stagedLines (ops ++ [op]) = s'.staging.map HString.chars := by
    rw [stagedLines,← stateAfter,stateAfter_concat,hstep]
  constructor
  · rwa [pushedLines_concat]
  · rwa [pushedLines_concat,sentLines,hshown]
  · rwa [pushedLines_concat,hring]
  · rwa [pushedLines_concat,evictedLines,hshown]
  · rwa [pushedLines_concat,refusedLines,hshown]

variable {l : Ledger}

theorem Accounts.empty : Accounts [] .empty := ⟨rfl,.nil,.nil,.nil,.nil⟩

theorem Accounts.unchanged (h : Accounts ops l) {op : Op} {s' : LogFanout} (hpushed : op.pushed = [])
    (hstep : (stateAfter ops).step op = (s',[])) (hstaging : s'.staging = (stateAfter ops).staging) :
    Accounts (ops ++ [op]) l := by
  apply Accounts.concat hstep <;> simp only [hpushed,List.append_nil,List.filterMap_nil]
  · exact h.arrivals
  · exact h.sent
  · rw [hstaging]; exact h.staged
  · exact h.evicted
  · exact h.refused

@[simp] theorem sent_staged (staged : List LogLine) :
    (staged.map fun line => Event.sent line.chars).filterMap Event.sentLine = staged.map HString.chars := by
  rw [List.filterMap_map]
  exact congrFun (List.filterMap_eq_map (f := HString.chars)) staged

@[simp] theorem evicted_staged (staged : List LogLine) :
    (staged.map Event.evicted).filterMap Event.evictedLine = staged.map HString.chars := by
  rw [List.filterMap_map]
  exact congrFun (List.filterMap_eq_map (f := HString.chars)) staged

/-- Calls that show nothing of a kind leave its account as it was. -/
theorem Lines.quiet {shown : List Event} {f : Event → Option Str} (h : Lines pushed ids texts)
    (hquiet : ∀ e ∈ shown, f e = none) : Lines pushed ids (texts ++ shown.filterMap f) := by
  rwa [List.filterMap_eq_nil_iff.2 hquiet,List.append_nil]

/-- The line went out, and the whole ring before it. -/
theorem Accounts.deliver (h : Accounts ops l) {line : Str} {locks : Locks} {s' : LogFanout}
    (hstep : (stateAfter ops).step (.push line locks) =
      (s',((stateAfter ops).staging.map fun staged => .sent staged.chars) ++ [.sent line]))
    (hrest : s'.staging = []) : Accounts (ops ++ [.push line locks]) l.deliver := by
  have hnew := Lines.whole (pushedLines ops) line
  rw [h.arrivals] at hnew
  apply Accounts.concat hstep
  · rw [List.length_append,h.arrivals]; rfl
  · rw [List.filterMap_append,sent_staged,← List.append_assoc]
    exact ((h.sent.pushed_append line).append (h.staged.pushed_append line)).append hnew
  · rw [hrest]; exact .nil
  · exact (h.evicted.pushed_append line).quiet
      (List.forall_mem_append.2 ⟨List.forall_mem_map.2 fun _ _ => rfl,List.forall_mem_singleton.2 rfl⟩)
  · exact (h.refused.pushed_append line).quiet
      (List.forall_mem_append.2 ⟨List.forall_mem_map.2 fun _ _ => rfl,List.forall_mem_singleton.2 rfl⟩)

/-- The line joined the ring. -/
theorem Accounts.stage (h : Accounts ops l) {line : Str} {locks : Locks} {s' : LogFanout}
    (hstep : (stateAfter ops).step (.push line locks) = (s',[]))
    (hring : s'.staging = (stateAfter ops).staging ++ [logLine line]) :
    Accounts (ops ++ [.push line locks]) l.stage := by
  have hnew := Lines.clipped (pushedLines ops) line
  rw [h.arrivals] at hnew
  apply Accounts.concat hstep
  · rw [List.length_append,h.arrivals]; rfl
  · exact (h.sent.pushed_append line).quiet (by simp)
  · rw [hring,List.map_append]
    exact (h.staged.pushed_append line).append hnew
  · exact (h.evicted.pushed_append line).quiet (by simp)
  · exact (h.refused.pushed_append line).quiet (by simp)

/-- The line joined the full ring, which lost its oldest. -/
theorem Accounts.stageOver (h : Accounts ops l) {line : Str} {locks : Locks} {s' : LogFanout}
    (hstep : (stateAfter ops).step (.push line locks) = (s',((stateAfter ops).staging.take 1).map .evicted))
    (hring : s'.staging = (stateAfter ops).staging.drop 1 ++ [logLine line]) :
    Accounts (ops ++ [.push line locks]) l.stageOver := by
  have hnew := Lines.clipped (pushedLines ops) line
  rw [h.arrivals] at hnew
  apply Accounts.concat hstep
  · rw [List.length_append,h.arrivals]; rfl
  · exact (h.sent.pushed_append line).quiet (List.forall_mem_map.2 fun _ _ => rfl)
  · rw [hring,List.map_append,List.map_drop]
    exact ((h.staged.pushed_append line).drop 1).append hnew
  · rw [evicted_staged,List.map_take]
    exact (h.evicted.pushed_append line).append ((h.staged.pushed_append line).take 1)
  · exact (h.refused.pushed_append line).quiet (List.forall_mem_map.2 fun _ _ => rfl)

/-- The ring was locked. -/
theorem Accounts.refuse (h : Accounts ops l) {line : Str} {locks : Locks} {s' : LogFanout}
    (hstep : (stateAfter ops).step (.push line locks) = (s',[.refused line]))
    (hring : s'.staging = (stateAfter ops).staging) : Accounts (ops ++ [.push line locks]) l.refuse := by
  have hnew := Lines.whole (pushedLines ops) line
  rw [h.arrivals] at hnew
  apply Accounts.concat hstep
  · rw [List.length_append,h.arrivals]; rfl
  · exact (h.sent.pushed_append line).quiet (List.forall_mem_singleton.2 rfl)
  · rw [hring]; exact h.staged.pushed_append line
  · exact (h.evicted.pushed_append line).quiet (List.forall_mem_singleton.2 rfl)
  · exact (h.refused.pushed_append line).append hnew

/-- The ring was emptied into the sink. -/
theorem Accounts.drain (h : Accounts ops l) {op : Op} {s' : LogFanout} (hpushed : op.pushed = [])
    (hstep : (stateAfter ops).step op = (s',(stateAfter ops).staging.map fun staged => .sent staged.chars))
    (hrest : s'.staging = []) : Accounts (ops ++ [op]) l.drain := by
  apply Accounts.concat hstep <;> rw [hpushed,List.append_nil]
  · exact h.arrivals
  · rw [sent_staged]; exact h.sent.append h.staged
  · rw [hrest]; exact .nil
  · exact h.evicted.quiet (List.forall_mem_map.2 fun _ _ => rfl)
  · exact h.refused.quiet (List.forall_mem_map.2 fun _ _ => rfl)

end Accounts

section Order
variable {ops : List Op} {l : Ledger}

/-- With the panel's lock free, a push only hands its line to the sink or to the ring. -/
theorem push_of_lcdFree (s : LogFanout) (line : Str) {locks : Locks} (h : locks.lcd = true) :
    ∃ s' : LogFanout, s'.staging = s.staging ∧ s'.udp = s.udp ∧ s.push line locks = s'.pushUdp line locks := by
  refine ⟨(s.pushLcd line locks).1.pushFlash line locks,?_,?_,?_⟩
  · rw [LogFanout.pushLcd,if_pos h,LogFanout.pushFlash]
    split <;> rfl
  · rw [LogFanout.pushLcd,if_pos h,LogFanout.pushFlash]
    split <;> rfl
  · rw [LogFanout.push,LogFanout.pushLcd,if_pos h]
    rfl

/-- A line that does not go out is staged, pushes the oldest out of the full ring, or is refused. -/
theorem Accounts.stageOrRefuse (h : Accounts ops l) {line : Str} {locks : Locks} {s : LogFanout}
    (hring : s.staging = (stateAfter ops).staging)
    (hstep : (stateAfter ops).step (.push line locks) = s.stageOrRefuse line locks.staging) :
    ∃ l', Accounts (ops ++ [.push line locks]) l' := by
  rw [LogFanout.stageOrRefuse,LogFanout.stagingPush,hring] at hstep
  split at hstep
  · split at hstep
    · exact ⟨_,h.stageOver hstep rfl⟩
    · exact ⟨_,h.stage hstep rfl⟩
  · exact ⟨_,h.refuse hstep hring⟩

theorem take_of_flushed {staging : List LogLine} {free : Bool}
    (h : staging = [] ∨ (free = true ∧ staging.length ≤ FLUSH_PER_CALL)) :
    staging.length ≤ if free then FLUSH_PER_CALL else 0 := by
  rcases h with rfl | ⟨rfl,hlen⟩
  · exact Nat.zero_le _
  · exact hlen

theorem Accounts.push (h : Accounts ops l) {line : Str} {locks : Locks} (hlcd : locks.lcd = true)
    (hflush : FlushesAll (stateAfter ops) (.push line locks)) : ∃ l', Accounts (ops ++ [.push line locks]) l' := by
  obtain ⟨s,hring,hudp,hpush⟩ := push_of_lcdFree (stateAfter ops) line hlcd
  have hstep : (stateAfter ops).step (.push line locks) = s.pushUdp line locks := hpush
  rw [LogFanout.pushUdp] at hstep
  split at hstep
  case isTrue hsink =>
    rw [Bool.and_eq_true,hudp] at hsink
    have hall := take_of_flushed (hflush hsink.1 hsink.2)
    rw [← hring] at hall
    dsimp only at hstep
    rw [List.take_of_length_le hall,List.drop_of_length_le hall,hring] at hstep
    exact ⟨_,h.deliver hstep rfl⟩
  case isFalse => exact h.stageOrRefuse hring hstep

/-- One call keeps the accounts. -/
theorem Accounts.step (h : Accounts ops l) {op : Op} (hlcd : op.lcdFree) (hflush : FlushesAll (stateAfter ops) op) :
    ∃ l', Accounts (ops ++ [op]) l' := by
  cases op with
  | push line locks => exact h.push hlcd hflush
  | installUdp => exact ⟨l,h.unchanged rfl rfl rfl⟩
  | installFlash => exact ⟨l,h.unchanged rfl rfl rfl⟩
  | drainStagingToUdp udpFree stagingFree =>
    by_cases hsink : udpFree && (stateAfter ops).udp && stagingFree
    · exact ⟨_,h.drain rfl (if_pos hsink) rfl⟩
    · exact ⟨l,h.unchanged rfl (if_neg hsink) rfl⟩

theorem Accounts.run (ops : List Op) (hlcd : ∀ op ∈ ops, op.lcdFree)
    (hflush : AllSteps FlushesAll (fun s op => (s.step op).1) LogFanout.new ops) : ∃ l, Accounts ops l := by
  induction ops using List.reverseRecOn with
  | nil => exact ⟨_,Accounts.empty⟩
  | append_singleton ops op ih =>
    rw [allSteps_append] at hflush
    obtain ⟨l,h⟩ := ih (fun op hop => hlcd op (List.mem_append_left _ hop)) hflush.1
    exact h.step (hlcd op (List.mem_append_right _ (List.mem_singleton_self op))) hflush.2.1

theorem loss_excused (s : LogFanout) {op : Op} (hlcd : op.lcdFree) : LossExcused s op := by
  intro e he
  cases op with
  | push line locks =>
    obtain ⟨s',hring,hudp,hpush⟩ := push_of_lcdFree s line hlcd
    rw [LogFanout.step,hpush,LogFanout.pushUdp] at he
    split at he
    · rcases List.mem_append.1 he with he | he
      · obtain ⟨staged,-,rfl⟩ := List.mem_map.1 he
        trivial
      · rw [List.mem_singleton.1 he]
        trivial
    · rw [LogFanout.stageOrRefuse,LogFanout.stagingPush] at he
      split_ifs at he with hfree hfull
      · obtain ⟨staged,-,rfl⟩ := List.mem_map.1 he
        rwa [hring] at hfull
      · cases he
      · rw [List.mem_singleton.1 he]
        exact Bool.eq_false_iff.2 hfree
  | drainStagingToUdp udpFree stagingFree =>
    rw [LogFanout.step,LogFanout.drainStagingToUdp] at he
    split at he
    · obtain ⟨staged,-,rfl⟩ := List.mem_map.1 he
      trivial
    · cases he
  | installUdp => cases he
  | installFlash => cases he

/-- Order survives staging whenever a line that goes out directly leaves none behind in the ring. -/
theorem udp_order_survives (ops : List Op) (hlcd : ∀ op ∈ ops, op.lcdFree)
    (hflush : AllSteps FlushesAll (fun s op => (s.step op).1) LogFanout.new ops) :
    OrderSurvives ops ∧ AllSteps LossExcused (fun s op => (s.step op).1) LogFanout.new ops := by
  refine ⟨?_,allSteps_of_forall (fun s op hop => loss_excused s (hlcd op hop)) _⟩
  obtain ⟨l,h⟩ := Accounts.run ops hlcd hflush
  refine ⟨l.sent,l.staged,l.evicted,l.refused,?_,(List.pairwise_append.1 l.inOrder).1,h.sent,h.staged,h.evicted,h.refused⟩
  rw [h.arrivals]
  exact l.complete

section Overtaking

def allFree : Locks := ⟨true,true,true,true,true⟩

/-- A line waits for the sink, and one more goes out after it. -/
def ordered : List Op := [.push ['a'] allFree,.installUdp,.push ['b'] allFree,.drainStagingToUdp true true]

theorem ordered_survives :
    OrderSurvives ordered ∧ AllSteps LossExcused (fun s op => (s.step op).1) LogFanout.new ordered := by
  refine udp_order_survives ordered ?_ ?_
  · rintro op (_ | ⟨_,_ | ⟨_,_ | ⟨_,_ | ⟨_,⟨⟩⟩⟩⟩⟩) <;> trivial
  · exact ⟨fun _ h => Bool.noConfusion h,trivial,fun _ _ => .inr ⟨rfl,by decide⟩,trivial,trivial⟩

/-- Five lines wait for the sink when the sixth is logged. -/
def overtaking : List Op :=
  ['a','b','c','d','e'].map (fun c => .push [c] allFree) ++
    [.installUdp,.push ['f'] allFree,.drainStagingToUdp true true]

theorem overtaking_lcdFree : ∀ op ∈ overtaking, op.lcdFree := by
  rw [overtaking]
  exact List.forall_mem_append.2 ⟨List.forall_mem_map.2 fun _ _ => rfl,by simp [Op.lcdFree,allFree]⟩

theorem overtaking_sent : sentLines overtaking = [['a'],['b'],['c'],['d'],['f'],['e']] := by decide

/-- The sixth line goes out before the fifth, whatever the numbers of the others are. -/
theorem overtaking_not_ordered : ¬ OrderSurvives overtaking := by
  rintro ⟨sent,staged,evicted,refused,-,horder,hsent,-⟩
  rw [overtaking_sent] at hsent
  obtain _ | ⟨-,_ | ⟨-,_ | ⟨-,_ | ⟨-,_ | ⟨hf,_ | ⟨he,-⟩⟩⟩⟩⟩⟩ := hsent
  rename_i f e rest
  have hlate : ∀ i < 6, isLine (pushedLines overtaking) i ['f'] → i = 5 := by decide
  have hearly : ∀ i < 6, isLine (pushedLines overtaking) i ['e'] → i = 4 := by decide
  have hlt : f < e := by
    have hlast := horder.tail.tail.tail.tail
    exact List.rel_of_pairwise_cons hlast List.mem_cons_self
  rw [hlate f (isLine_lt hf) hf,hearly e (isLine_lt he) he] at hlt
  exact absurd hlt (by decide)

theorem order_lost : ¬ ∀ ops : List Op, (∀ op ∈ ops, op.lcdFree) → OrderSurvives ops := fun h =>
  overtaking_not_ordered (h overtaking overtaking_lcdFree)

end Overtaking

end Order

end MfskCore.App
