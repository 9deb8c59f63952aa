import MfskCore.Library.Trace
import MfskCore.Rust.F32

/-! When the slot grid counts as locked and when a new one is acquired (`grid_state.rs`), over any
sequence of slots and finished acquisitions. A call that would carry the `u32` run of slots past its
range panics and returns nothing. -/
namespace MfskCore.Embedded
open Library Rust

def LOCK_MIN_DECODES : Nat := 3
def ACQUIRE_TRIGGER_SLOTS : Nat := 3
def REACQUIRE_TRIGGER_SLOTS : Nat := 6

inductive GridAction where
  | Hold
  | Lock (nDec : Nat)
  | Acquire (slots : Nat) (relock : Bool)
  deriving DecidableEq

structure GridState where
  bestN : Nat
  lostSlots : Nat
  acquiring : Bool
  deriving DecidableEq

namespace GridState

def new : GridState := ⟨0,0,false⟩

/-- A grid known to be unplaced: the run that leads to an acquisition is already full. -/
def newUnplaced : GridState := { new with lostSlots := ACQUIRE_TRIGGER_SLOTS }

def isLocked (g : GridState) : Bool := g.bestN > 0

/-- A phase error within `LOCK_MAX_PHASE_S`, or none measured. -/
def phaseOk {F : Type} [F32 F] (phaseErrS : Option F) : Bool := phaseErrS.all fun e => F32.abs e ≤ 0.3

/-- Not decoding at all once locked, not decoding properly before. -/
def belowPar (wasLocked : Bool) (nDec : Nat) (phaseOk : Bool) : Bool :=
  if wasLocked then nDec == 0 else nDec < LOCK_MIN_DECODES || !phaseOk

/-- The slots a lock state tolerates. -/
def trigger (wasLocked : Bool) : Nat := if wasLocked then REACQUIRE_TRIGGER_SLOTS else ACQUIRE_TRIGGER_SLOTS

/-- The run of slots after this one. -/
def countLost (g : GridState) (below hadSignal : Bool) : Option Nat :=
  if below then
    if hadSignal then if g.lostSlots + 1 < 2^32 then some (g.lostSlots + 1) else none
    else some g.lostSlots
  else some 0

def observeSlot {F : Type} [F32 F] (g : GridState) (nDec : Nat) (phaseErrS : Option F) (hadSignal : Bool) :
    Option (GridState × GridAction) := do
  let wasLocked := g.isLocked
  let phaseOk := phaseOk phaseErrS
  let locking := nDec ≥ LOCK_MIN_DECODES && !wasLocked && phaseOk
  let bestN := if nDec ≥ LOCK_MIN_DECODES && phaseOk then max g.bestN nDec else g.bestN
  let lostSlots ← g.countLost (belowPar wasLocked nDec phaseOk) hadSignal
  if locking then
    some (⟨bestN,lostSlots,g.acquiring⟩,.Lock nDec)
  else if lostSlots ≥ trigger wasLocked && !g.acquiring then
    some (⟨if wasLocked then 0 else bestN,lostSlots,true⟩,.Acquire lostSlots wasLocked)
  else some (⟨bestN,lostSlots,g.acquiring⟩,.Hold)

def acquisitionDone (g : GridState) (applied : Bool) : GridState :=
  { g with acquiring := false, lostSlots := if applied then 0 else g.lostSlots }

end GridState

/-- The calls that change the state. -/
inductive GridCall (F : Type) where
  | observeSlot (nDec : Nat) (phaseErrS : Option F) (hadSignal : Bool)
  | acquisitionDone (applied : Bool)

/-- One call of a run: the lock state it found, and the action it was answered with. -/
structure GridEvent (F : Type) where
  call : GridCall F
  wasLocked : Bool
  action : GridAction

section Run
variable {F : Type} [F32 F]

def GridState.step (g : GridState) (call : GridCall F) : Option (GridState × GridEvent F) :=
  match call with
  | .observeSlot nDec phaseErrS hadSignal =>
    (g.observeSlot nDec phaseErrS hadSignal).map fun out => (out.1,⟨call,g.isLocked,out.2⟩)
  | .acquisitionDone applied => some (g.acquisitionDone applied,⟨call,g.isLocked,.Hold⟩)

/-- The run of the calls, with its trace. -/
def GridState.run (g : GridState) : List (GridCall F) → Option (GridState × List (GridEvent F))
  | [] => some (g,[])
  | call :: calls => do
    let (g, e) ← g.step call
    let (g, t) ← g.run calls
    some (g,e :: t)

namespace GridEvent

def isAcquire (e : GridEvent F) : Bool := match e.action with
  | .Acquire _ _ => true
  | _ => false

/-- An acquisition that gave up a working grid. -/
def givesUpLock (e : GridEvent F) : Bool := match e.action with
  | .Acquire _ relock => relock
  | _ => false

def isDone (e : GridEvent F) : Bool := match e.call with
  | .acquisitionDone _ => true
  | _ => false

/-- A slot with enough decodes and an acceptable phase. -/
def isGood (e : GridEvent F) : Bool := match e.call with
  | .observeSlot nDec phaseErrS _ => nDec ≥ LOCK_MIN_DECODES && GridState.phaseOk phaseErrS
  | .acquisitionDone _ => false

def isBelowPar (e : GridEvent F) : Bool := match e.call with
  | .observeSlot nDec phaseErrS _ => GridState.belowPar e.wasLocked nDec (GridState.phaseOk phaseErrS)
  | .acquisitionDone _ => false

def hadSignal (e : GridEvent F) : Bool := match e.call with
  | .observeSlot _ _ hadSignal => hadSignal
  | .acquisitionDone _ => false

def isSlot (e : GridEvent F) : Bool := !e.isDone

/-- A slot that was not below par, or an acquisition that was applied. -/
def startsOver (e : GridEvent F) : Bool := match e.call with
  | .observeSlot _ _ _ => !e.isBelowPar
  | .acquisitionDone applied => applied

end GridEvent

/-- An acquisition was issued and its outcome has not been reported. -/
def Outstanding (t : List (GridEvent F)) : Prop := Since (·.isAcquire) (·.isDone) t

/-- A good slot since the last acquisition that gave up a lock. -/
def Locked (t : List (GridEvent F)) : Prop := Since (·.isGood) (·.givesUpLock) t

/-- Signal-bearing slots below par since the run last started over. -/
def lostRun (initial : Nat) (t : List (GridEvent F)) : Nat :=
  countSince initial (fun e => e.isBelowPar && e.hadSignal) (·.startsOver) t

/-- The state is what the trace says. -/
structure Tracks (initial : Nat) (t : List (GridEvent F)) (g : GridState) : Prop where
  acquiring : g.acquiring = true ↔ Outstanding t
  locked : g.isLocked = true ↔ Locked t
  lost : g.lostSlots = lostRun initial t

/-- What the law says of one call after the trace. -/
structure Lawful (initial : Nat) (t : List (GridEvent F)) (e : GridEvent F) : Prop where
  wasLocked : e.wasLocked = true ↔ Locked t
  single : e.isAcquire = true → ¬ Outstanding t
  acquires : e.isSlot = true →
    (e.isAcquire = true ↔ ¬ Outstanding t ∧ GridState.trigger e.wasLocked ≤ lostRun initial (t ++ [e]))
  quiet : e.isBelowPar = true → e.hadSignal = false → lostRun initial (t ++ [e]) = lostRun initial t

section Slot
open GridState
variable {g g' : GridState} {nDec : Nat} {phaseErrS : Option F} {hadSignal : Bool} {a : GridAction}

/-- The three outcomes of a slot: it locks, it acquires, or nothing happens. -/
theorem observeSlot_cases (h : g.observeSlot nDec phaseErrS hadSignal = some (g',a)) :
    ∃ lost, g.countLost (belowPar g.isLocked nDec (phaseOk phaseErrS)) hadSignal = some lost ∧
      g'.lostSlots = lost ∧
      ((g.isLocked = false ∧ LOCK_MIN_DECODES ≤ nDec ∧ phaseOk phaseErrS = true ∧ a = .Lock nDec ∧
          g'.bestN = max g.bestN nDec ∧ g'.acquiring = g.acquiring) ∨
        (¬ (g.isLocked = false ∧ LOCK_MIN_DECODES ≤ nDec ∧ phaseOk phaseErrS = true) ∧
          trigger g.isLocked ≤ lost ∧ g.acquiring = false ∧ a = .Acquire lost g.isLocked ∧
          g'.bestN = 0 ∧ g'.acquiring = true) ∨
        (¬ (g.isLocked = false ∧ LOCK_MIN_DECODES ≤ nDec ∧ phaseOk phaseErrS = true) ∧
          ¬ (trigger g.isLocked ≤ lost ∧ g.acquiring = false) ∧ a = .Hold ∧
          g'.bestN = (if LOCK_MIN_DECODES ≤ nDec ∧ phaseOk phaseErrS = true then max g.bestN nDec
            else g.bestN) ∧ g'.acquiring = g.acquiring)) := by
  simp only [GridState.observeSlot,Option.bind_eq_bind,Option.bind_eq_some_iff] at h
  obtain ⟨lost,hlost,h⟩ := h
  refine ⟨lost,hlost,?_⟩
  have hbest (hl : g.isLocked = false) : g.bestN = 0 := by simpa [isLocked] using hl
  split at h
  · rename_i hlock
    simp only [Bool.and_eq_true,decide_eq_true_eq,Bool.not_eq_eq_eq_not,Bool.not_true] at hlock
    obtain ⟨rfl,rfl⟩ := Prod.mk.inj (Option.some.inj h)
    exact ⟨rfl,Or.inl ⟨hlock.1.2,hlock.1.1,hlock.2,rfl,by simp [hlock],rfl⟩⟩
  · rename_i hlock
    have hlock' : ¬ (g.isLocked = false ∧ LOCK_MIN_DECODES ≤ nDec ∧ phaseOk phaseErrS = true) := by
      rintro ⟨h1,h2,h3⟩
      simp [h1,h2,h3] at hlock
    split at h
    · rename_i hacq
      simp only [Bool.and_eq_true,decide_eq_true_eq,Bool.not_eq_eq_eq_not,Bool.not_true] at hacq
      obtain ⟨rfl,rfl⟩ := Prod.mk.inj (Option.some.inj h)
      refine ⟨rfl,Or.inr (Or.inl ⟨hlock',hacq.1,hacq.2,rfl,?_,rfl⟩)⟩
      cases hl : g.isLocked with
      | true => rfl
      | false =>
        have : ¬ (LOCK_MIN_DECODES ≤ nDec ∧ phaseOk phaseErrS = true) := fun hn => hlock' ⟨hl,hn⟩
        simp [this,hbest hl]
    · rename_i hacq
      simp only [Bool.and_eq_true,decide_eq_true_eq,Bool.not_eq_eq_eq_not,Bool.not_true] at hacq
      obtain ⟨rfl,rfl⟩ := Prod.mk.inj (Option.some.inj h)
      exact ⟨rfl,Or.inr (Or.inr ⟨hlock',hacq,rfl,by simp,rfl⟩)⟩

/-- A slot's run of lost slots is the trace's. -/
private theorem lost_concat {initial lost : Nat} {t : List (GridEvent F)}
    (hlost : g.lostSlots = lostRun initial t)
    (h : g.countLost (belowPar g.isLocked nDec (phaseOk phaseErrS)) hadSignal = some lost) :
    lostRun initial (t ++ [⟨.observeSlot nDec phaseErrS hadSignal,g.isLocked,a⟩]) = lost := by
  unfold lostRun at hlost ⊢
  rw [countSince_concat,← hlost]
  simp only [GridEvent.startsOver,GridEvent.isBelowPar,GridEvent.hadSignal]
  unfold countLost at h
  split at h
  · rename_i hb
    simp only [hb]
    cases hadSignal with
    | true =>
      rw [if_pos rfl] at h
      split at h
      · simpa using h
      · cases h
    | false => simpa using h
  · rename_i hb
    rw [Bool.not_eq_true] at hb
    simp only [hb]
    simpa using h

/-- A slot that is good for the lock never acquires. -/
private theorem lost_of_good {lost : Nat} (hn : LOCK_MIN_DECODES ≤ nDec)
    (hp : phaseOk phaseErrS = true)
    (h : g.countLost (belowPar g.isLocked nDec (phaseOk phaseErrS)) hadSignal = some lost) :
    lost = 0 := by
  have hbelow : belowPar g.isLocked nDec (phaseOk phaseErrS) = false := by
    have hne : nDec ≠ 0 := by
      unfold LOCK_MIN_DECODES at hn
      omega
    cases hl : g.isLocked with
    | true => simpa [belowPar] using hne
    | false => simp [belowPar,hp,Nat.not_lt.mpr hn]
  rw [hbelow] at h
  exact (Option.some.inj h).symm

private theorem isLocked_iff (g : GridState) : g.isLocked = true ↔ 0 < g.bestN := by
  simp [isLocked]

/-- One slot keeps the account of the trace and obeys the law. -/
theorem observeSlot_lawful {initial : Nat} {t : List (GridEvent F)} (ht : Tracks initial t g)
    (h : g.observeSlot nDec phaseErrS hadSignal = some (g',a)) :
    let e : GridEvent F := ⟨.observeSlot nDec phaseErrS hadSignal,g.isLocked,a⟩
    Tracks initial (t ++ [e]) g' ∧ Lawful initial t e := by
  intro e
  obtain ⟨lost,hcount,hlost,hcases⟩ := observeSlot_cases h
  have hrun : lostRun initial (t ++ [e]) = lost := lost_concat ht.lost hcount
  have hquiet : e.isBelowPar = true → e.hadSignal = false →
      lostRun initial (t ++ [e]) = lostRun initial t := by
    intro hb hs
    unfold lostRun
    rw [countSince_concat,if_neg (by simp [GridEvent.startsOver,e,hb]),if_neg (by simp [hs])]
  have hout : Outstanding (t ++ [e]) ↔ e.isAcquire = true ∨ Outstanding t := by
    unfold Outstanding
    rw [since_concat]
    simp [GridEvent.isDone,e]
  have hlocked : Locked (t ++ [e]) ↔ e.isGood = true ∨ (Locked t ∧ ¬ e.givesUpLock = true) :=
    since_concat _ _ _ _
  have hgood : e.isGood = true ↔ LOCK_MIN_DECODES ≤ nDec ∧ phaseOk phaseErrS = true := by
    simp [GridEvent.isGood,e]
  have hmin : 0 < LOCK_MIN_DECODES := by decide
  rcases hcases with ⟨hl,hn,hp,rfl,hb,ha⟩ | ⟨hnot,htrig,hacq,rfl,hb,ha⟩ | ⟨hnot,hhold,rfl,hb,ha⟩
  · have hzero := lost_of_good hn hp hcount
    have hnoacq : e.isAcquire = false := rfl
    refine ⟨⟨?_,?_,hlost.trans hrun.symm⟩,⟨ht.locked,?_,?_,hquiet⟩⟩
    · rw [hout,ha,ht.acquiring,hnoacq]
      simp
    · rw [hlocked,isLocked_iff,hb,hgood]
      exact ⟨fun _ => Or.inl ⟨hn,hp⟩,fun _ => by omega⟩
    · simp [hnoacq]
    · intro _
      rw [hrun,hzero,hnoacq]
      have : ¬ trigger e.wasLocked ≤ 0 := by
        unfold trigger
        split <;> decide
      simp [this]
  · have hisacq : e.isAcquire = true := rfl
    have hnout : ¬ Outstanding t := by
      rw [← ht.acquiring,hacq]
      exact Bool.false_ne_true
    refine ⟨⟨?_,?_,hlost.trans hrun.symm⟩,⟨ht.locked,fun _ => hnout,?_,hquiet⟩⟩
    · rw [hout,ha]
      simp [hisacq]
    · rw [hlocked,isLocked_iff,hb,hgood]
      constructor
      · exact fun h => absurd h (Nat.lt_irrefl 0)
      · rintro (⟨hn,hp⟩ | ⟨hl,hg⟩)
        · have hzero := lost_of_good hn hp hcount
          rw [hzero] at htrig
          unfold trigger at htrig
          split at htrig <;> exact absurd htrig (by decide)
        · exact absurd (ht.locked.mpr hl) hg
    · exact fun _ => ⟨fun _ => ⟨hnout,hrun ▸ htrig⟩,fun _ => hisacq⟩
  · have hnoacq : e.isAcquire = false := rfl
    refine ⟨⟨?_,?_,hlost.trans hrun.symm⟩,⟨ht.locked,?_,?_,hquiet⟩⟩
    · rw [hout,ha,ht.acquiring,hnoacq]
      simp
    · rw [hlocked,isLocked_iff,hb,hgood,← ht.locked,isLocked_iff]
      split
      · rename_i hg
        exact ⟨fun _ => Or.inl hg,fun _ => by omega⟩
      · rename_i hg
        simp [hg,GridEvent.givesUpLock,e]
    · simp [hnoacq]
    · intro _
      rw [hnoacq,hrun,← ht.acquiring,Bool.not_eq_true]
      exact ⟨fun h => absurd h Bool.false_ne_true,fun h => absurd ⟨h.2,h.1⟩ hhold⟩

end Slot

private theorem acquisitionDone_lawful {initial : Nat} {t : List (GridEvent F)} {g : GridState}
    (ht : Tracks initial t g) (applied : Bool) :
    let e : GridEvent F := ⟨.acquisitionDone applied,g.isLocked,.Hold⟩
    Tracks initial (t ++ [e]) (g.acquisitionDone applied) ∧ Lawful initial t e := by
  intro e
  have hrun : lostRun initial (t ++ [e]) = if applied then 0 else lostRun initial t := by
    unfold lostRun
    rw [countSince_concat]
    simp [GridEvent.startsOver,GridEvent.isBelowPar,e]
  refine ⟨⟨?_,?_,?_⟩,⟨ht.locked,?_,?_,?_⟩⟩
  · unfold Outstanding
    rw [since_concat]
    simp [GridState.acquisitionDone,GridEvent.isAcquire,GridEvent.isDone,e]
  · have hlocked : Locked (t ++ [e]) ↔ e.isGood = true ∨ (Locked t ∧ ¬ e.givesUpLock = true) :=
      since_concat _ _ _ _
    rw [hlocked,← ht.locked]
    simp [GridState.acquisitionDone,GridState.isLocked,GridEvent.isGood,GridEvent.givesUpLock,e]
  · rw [hrun,← ht.lost]
    rfl
  · simp [GridEvent.isAcquire,e]
  · simp [GridEvent.isSlot,GridEvent.isDone,e]
  · simp [GridEvent.isBelowPar,e]

theorem step_lawful {initial : Nat} {t : List (GridEvent F)} {g g' : GridState} {call : GridCall F}
    {e : GridEvent F} (ht : Tracks initial t g) (h : g.step call = some (g',e)) :
    Tracks initial (t ++ [e]) g' ∧ Lawful initial t e := by
  cases call with
  | observeSlot nDec phaseErrS hadSignal =>
    obtain ⟨⟨g'',a⟩,hslot,heq⟩ := Option.map_eq_some_iff.mp h
    obtain ⟨rfl,rfl⟩ := Prod.mk.inj heq
    exact observeSlot_lawful ht hslot
  | acquisitionDone applied =>
    obtain ⟨rfl,rfl⟩ := Prod.mk.inj (Option.some.inj h)
    exact acquisitionDone_lawful ht applied

/-- A run keeps the account, and every call of it obeys the law. -/
theorem run_lawful {initial : Nat} (calls : List (GridCall F)) {done t : List (GridEvent F)} {g g' : GridState}
    (hdone : Tracks initial done g) (h : g.run calls = some (g',t)) :
    Tracks initial (done ++ t) g' ∧
      ∀ before e after, t = before ++ e :: after → Lawful initial (done ++ before) e := by
  induction calls generalizing g done t with
  | nil =>
    obtain ⟨rfl,rfl⟩ := Prod.mk.inj (Option.some.inj h)
    refine ⟨by simpa using hdone,?_⟩
    intro before e after he
    simp at he
  | cons call calls ih =>
    simp only [GridState.run,Option.bind_eq_bind,Option.bind_eq_some_iff] at h
    obtain ⟨⟨g1,e1⟩,hstep,⟨g2,t2⟩,hrest,heq⟩ := h
    obtain ⟨rfl,rfl⟩ := Prod.mk.inj (Option.some.inj heq)
    obtain ⟨htracks,hlaw⟩ := step_lawful hdone hstep
    obtain ⟨hfinal,hlaws⟩ := ih htracks hrest
    refine ⟨by simpa using hfinal,?_⟩
    intro before e after he
    cases before with
    | nil =>
      obtain ⟨rfl,_⟩ := List.cons.inj he
      simpa using hlaw
    | cons b before =>
      obtain ⟨rfl,htail⟩ := List.cons.inj he
      simpa using hlaws before e after htail

private theorem tracks_start (lost : Nat) : Tracks lost ([] : List (GridEvent F)) ⟨0,lost,false⟩ :=
  ⟨by simp [Outstanding,not_since_nil],by simp [Locked,not_since_nil,GridState.isLocked],by simp [lostRun]⟩

end Run

end MfskCore.Embedded
