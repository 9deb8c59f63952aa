import MfskCore.Msg.Wsjt77RoundTrip

/-! A-priori hints (`msg/ap.rs`): the known parts of a message as locked bits for the decoder, and
how they compare with the bits `pack77` sends. -/
namespace MfskCore.Msg
open Rust Library

/-- The known parts of the message to come. -/
structure ApHint where
  call1 : Option Str
  call2 : Option Str
  grid : Option Str
  report : Option Str

/-- The mask and the values of the locked bits. -/
abbrev ApBits := List UInt8 × List UInt8

/-- Lock `len` bits to `val`, most significant first. -/
def lockBits (ap : ApBits) (start len val : Nat) : ApBits :=
  ((List.range len).foldl (fun mask i => mask.set (start + i) 1) ap.1,writeBits ap.2 start len val)

/-- The 28 bits of a call and its suffix flag, for the calls `pack28` takes. -/
def setCallBits (ap : ApBits) (call : Str) (start : Nat) : ApBits :=
  match pack28 call with
  | some n28 => lockBits (lockBits ap start 28 n28) (start + 28) 1 0
  | none => ap

/-- The acknowledgement flag and the 15 bits of a grid or a response. -/
def setExchangeBits (ap : ApBits) (igrid : Nat) : ApBits := lockBits (lockBits ap 58 1 0) 59 15 igrid

namespace ApHint

def hasInfo (hint : ApHint) : Bool := hint.call1.isSome || hint.call2.isSome

/-- The field value of a response token. -/
def responseField (rpt : Str) : Option Nat :=
  if rpt = "RRR".toList then some (32400 + 2) else if rpt = "RR73".toList then some (32400 + 3)
  else if rpt = "73".toList then some (32400 + 4) else none

def buildBits (hint : ApHint) (nCodeword : Nat) : ApBits :=
  let ap : ApBits := (List.replicate nCodeword 0,List.replicate nCodeword 0)
  let ap := hint.call1.elim ap fun c1 => setCallBits ap c1 0
  let ap := hint.call2.elim ap fun c2 => setCallBits ap c2 29
  let ap := (hint.grid.bind packGrid4).elim ap fun igrid => setExchangeBits ap igrid
  let ap := (hint.report.bind responseField).elim ap fun igrid => setExchangeBits ap igrid
  if hint.hasInfo then lockBits ap 74 3 1 else ap

end ApHint

section Locks

/-- Bit `i` as the hint has it, when it has it. -/
def ApBits.locked (ap : ApBits) (i : Nat) : Option UInt8 :=
  if ap.1.getD i 0 = 1 then some (ap.2.getD i 0) else none

/-- The bit of a field that is `i` cells from its start. -/
def fieldBit (len val i : Nat) : UInt8 := UInt8.ofNat ((val >>> (len - 1 - i)) &&& 1)

/-- What locking a field says about bit `i`. -/
def fieldLock (start len val i : Nat) : Option UInt8 :=
  if start ≤ i ∧ i < start + len then some (fieldBit len val (i - start)) else none

/-- A payload that has `val` in the field at `start`. -/
def FieldIs (msg : List UInt8) (start len val : Nat) : Prop := ∀ i < len, msg.getD (start + i) 0 = fieldBit len val i

/-- The locks a payload meets. -/
def Meets (locks : Nat → Option UInt8) (msg : List UInt8) : Prop := ∀ i < 77, ∀ b ∈ locks i, msg.getD i 0 = b

/-- The hint agrees with a payload at every masked position of it. -/
def ApBits.Agrees (ap : ApBits) (msg : List UInt8) : Prop :=
  ∀ i < 77, ap.1.getD i 0 = 1 → ap.2.getD i 0 = msg.getD i 0

variable {ap : ApBits} {msg : List UInt8} {start len val n : Nat}

/-- Mask and values of one codeword length. -/
structure Sized (ap : ApBits) (n : Nat) : Prop where
  mask : ap.1.length = n
  values : ap.2.length = n

theorem Sized.lockBits (h : Sized ap n) : Sized (lockBits ap start len val) n :=
  ⟨(length_foldl_set _ _ _ _).trans h.mask,(length_writeBits _ _ _ _).trans h.values⟩

theorem locked_lockBits (h : Sized ap n) {i : Nat} (hi : i < n) :
    (lockBits ap start len val).locked i = (fieldLock start len val i).or (ap.locked i) := by
  have hmask : (lockBits ap start len val).1.getD i 0 =
      if start ≤ i ∧ i < start + len then 1 else ap.1.getD i 0 := by
    rw [lockBits,List.getD_eq_getElem?_getD,getElem?_foldl_set,h.mask]
    by_cases hin : start ≤ i ∧ i < start + len
    · rw [if_pos hin,if_pos ⟨hin.1,hin.2,hi⟩,Option.getD_some]
    · rw [if_neg hin,if_neg fun hall => hin ⟨hall.1,hall.2.1⟩,List.getD_eq_getElem?_getD]
  have hvalue : (lockBits ap start len val).2.getD i 0 =
      if start ≤ i ∧ i < start + len then fieldBit len val (i - start) else ap.2.getD i 0 := by
    rw [lockBits,writeBits,List.getD_eq_getElem?_getD,getElem?_foldl_set,h.values]
    by_cases hin : start ≤ i ∧ i < start + len
    · rw [if_pos hin,if_pos ⟨hin.1,hin.2,hi⟩,Option.getD_some,fieldBit]
    · rw [if_neg hin,if_neg fun hall => hin ⟨hall.1,hall.2.1⟩,List.getD_eq_getElem?_getD]
  rw [ApBits.locked,hmask,hvalue,fieldLock]
  by_cases hin : start ≤ i ∧ i < start + len
  · rw [if_pos hin,if_pos hin,if_pos hin,if_pos rfl,Option.some_or]
  · rw [if_neg hin,if_neg hin,if_neg hin,Option.none_or,ApBits.locked]

theorem agrees_iff_meets : ap.Agrees msg ↔ Meets ap.locked msg := by
  refine forall_congr' fun i => forall_congr' fun _ => ?_
  rw [ApBits.locked]
  split
  · rename_i h
    constructor
    · rintro hagree b hb
      exact (hagree h).symm.trans (Option.some.inj hb)
    · intro hmeets _
      exact (hmeets _ rfl).symm
  · rename_i h
    exact ⟨fun _ b hb => absurd hb (Option.not_mem_none b),fun _ hone => absurd hone h⟩

theorem meets_congr {f g : Nat → Option UInt8} (h : ∀ i < 77, f i = g i) : Meets f msg ↔ Meets g msg := by
  refine forall_congr' fun i => forall_congr' fun hi => ?_
  rw [h i hi]

theorem meets_fieldLock (h : start + len ≤ 77) : Meets (fieldLock start len val) msg ↔ FieldIs msg start len val := by
  constructor
  · intro hmeets i hi
    refine hmeets (start + i) (by omega) _ ?_
    rw [fieldLock,if_pos (by omega),Nat.add_sub_cancel_left]
    rfl
  · intro hfield i _ b hb
    rw [fieldLock] at hb
    split at hb
    · rename_i hin
      have hbit := hfield (i - start) (by omega)
      rw [Nat.add_sub_cancel' hin.1] at hbit
      rw [hbit]
      exact Option.some.inj hb
    · cases hb

theorem meets_or {f g : Nat → Option UInt8} (h : ∀ i < 77, f i = none ∨ g i = none) :
    Meets (fun i => (f i).or (g i)) msg ↔ Meets f msg ∧ Meets g msg := by
  constructor
  · intro hmeets
    refine ⟨fun i hi b hb => hmeets i hi b ?_,fun i hi b hb => hmeets i hi b ?_⟩
    · dsimp only
      rw [Option.mem_def.1 hb]
      rfl
    · rcases h i hi with hf | hg
      · dsimp only
        rwa [hf,Option.none_or]
      · rw [hg] at hb
        cases hb
  · rintro ⟨hf,hg⟩ i hi b hb
    dsimp only at hb
    rcases h i hi with hnone | hnone
    · rw [hnone,Option.none_or] at hb
      exact hg i hi b hb
    · rw [hnone,Option.or_none] at hb
      exact hf i hi b hb

/-- The bits of a call, for the calls `pack28` takes. -/
def callLock (call : Option Str) (start i : Nat) : Option UInt8 :=
  (call.bind pack28).elim none fun n28 => (fieldLock (start + 28) 1 0 i).or (fieldLock start 28 n28 i)

def exchangeLock (igrid : Option Nat) (i : Nat) : Option UInt8 :=
  igrid.elim none fun igrid => (fieldLock 59 15 igrid i).or (fieldLock 58 1 0 i)

private theorem locked_call (h : Sized ap n) (call : Option Str) (start : Nat) :
    Sized (call.elim ap fun c => setCallBits ap c start) n ∧ ∀ i < n,
      (call.elim ap fun c => setCallBits ap c start).locked i = (callLock call start i).or (ap.locked i) := by
  cases call with
  | none => exact ⟨h,fun _ _ => rfl⟩
  | some c =>
    simp only [Option.elim_some,setCallBits,callLock,Option.bind_some]
    cases pack28 c with
    | none => exact ⟨h,fun _ _ => rfl⟩
    | some n28 =>
      refine ⟨h.lockBits.lockBits,fun i hi => ?_⟩
      dsimp only
      rw [locked_lockBits h.lockBits hi,locked_lockBits h hi,← Option.or_assoc]
      rfl

private theorem locked_exchange (h : Sized ap n) (igrid : Option Nat) :
    Sized (igrid.elim ap fun igrid => setExchangeBits ap igrid) n ∧ ∀ i < n,
      (igrid.elim ap fun igrid => setExchangeBits ap igrid).locked i = (exchangeLock igrid i).or (ap.locked i) := by
  cases igrid with
  | none => exact ⟨h,fun _ _ => rfl⟩
  | some igrid =>
    refine ⟨h.lockBits.lockBits,fun i hi => ?_⟩
    rw [Option.elim_some,setExchangeBits,locked_lockBits h.lockBits hi,locked_lockBits h hi,← Option.or_assoc]
    rfl

theorem locked_buildBits (hint : ApHint) {i : Nat} (hi : i < n) :
    (hint.buildBits n).locked i =
      (if hint.hasInfo then fieldLock 74 3 1 i else none).or
        ((exchangeLock (hint.report.bind ApHint.responseField) i).or
          ((exchangeLock (hint.grid.bind packGrid4) i).or
            ((callLock hint.call2 29 i).or (callLock hint.call1 0 i)))) := by
  have hblank : Sized (List.replicate n 0,List.replicate n 0) n := ⟨List.length_replicate,List.length_replicate⟩
  have hnone : ApBits.locked (List.replicate n 0,List.replicate n 0) i = none := by
    rw [ApBits.locked,if_neg]
    simp [hi]
  obtain ⟨h1,l1⟩ := locked_call hblank hint.call1 0
  obtain ⟨h2,l2⟩ := locked_call h1 hint.call2 29
  obtain ⟨h3,l3⟩ := locked_exchange h2 (hint.grid.bind packGrid4)
  obtain ⟨h4,l4⟩ := locked_exchange h3 (hint.report.bind ApHint.responseField)
  have hcalls : ApBits.locked _ i = _ := (l4 i hi).trans (congrArg _ ((l3 i hi).trans (congrArg _
    ((l2 i hi).trans (congrArg _ ((l1 i hi).trans (congrArg _ hnone)))))))
  rw [Option.or_none] at hcalls
  unfold ApHint.buildBits
  dsimp only
  split
  · rw [locked_lockBits h4 hi,hcalls]
  · exact hcalls

private theorem fieldLock_none {i : Nat} (h : i < start ∨ start + len ≤ i) : fieldLock start len val i = none :=
  if_neg (by omega)

private theorem callLock_none {call : Option Str} {i : Nat} (h : i < start ∨ start + 29 ≤ i) :
    callLock call start i = none := by
  unfold callLock
  cases call.bind pack28 with
  | none => rfl
  | some n28 =>
    rw [Option.elim_some,fieldLock_none (by omega),fieldLock_none (by omega)]
    rfl

private theorem exchangeLock_none {igrid : Option Nat} {i : Nat} (h : i < 58 ∨ 74 ≤ i) :
    exchangeLock igrid i = none := by
  cases igrid with
  | none => rfl
  | some igrid =>
    rw [exchangeLock,Option.elim_some,fieldLock_none (by omega),fieldLock_none (by omega)]
    rfl

/-- The response, where the hint has one, overwrites the grid. -/
private theorem exchangeLock_or (rpt grid : Option Nat) (i : Nat) :
    (exchangeLock rpt i).or (exchangeLock grid i) = exchangeLock (rpt.or grid) i := by
  cases rpt with
  | none => rfl
  | some rpt =>
    cases grid with
    | none => exact Option.or_none
    | some grid =>
      simp only [exchangeLock,Option.elim_some,Option.some_or,fieldLock]
      split_ifs
      all_goals rfl

private theorem meets_optional {α : Type} (o : Option α) {locks : α → Nat → Option UInt8} {P : α → Prop}
    (h : ∀ a, Meets (locks a) msg ↔ P a) :
    Meets (fun i => o.elim none fun a => locks a i) msg ↔ ∀ a, o = some a → P a := by
  cases o with
  | none => exact ⟨fun _ a ha => absurd ha (by simp),fun _ i _ b hb => absurd hb (Option.not_mem_none b)⟩
  | some a =>
    refine (h a).trans ⟨?_,fun hall => hall a rfl⟩
    rintro ha b hb
    rwa [← Option.some.inj hb]

private theorem meets_pair {s₁ l₁ v₁ s₂ l₂ v₂ : Nat} (h₁ : s₁ + l₁ ≤ 77) (h₂ : s₂ + l₂ ≤ 77)
    (hdisjoint : s₁ + l₁ ≤ s₂ ∨ s₂ + l₂ ≤ s₁) :
    Meets (fun i => (fieldLock s₁ l₁ v₁ i).or (fieldLock s₂ l₂ v₂ i)) msg ↔
      FieldIs msg s₁ l₁ v₁ ∧ FieldIs msg s₂ l₂ v₂ := by
  rw [← meets_fieldLock h₁,← meets_fieldLock h₂]
  refine meets_or fun i _ => ?_
  by_cases hin : i < s₁ ∨ s₁ + l₁ ≤ i
  · exact .inl (fieldLock_none hin)
  · exact .inr (fieldLock_none (by omega))

private theorem meets_callLock (call : Option Str) (h : start + 29 ≤ 77) : Meets (callLock call start) msg ↔
    ∀ n28, call.bind pack28 = some n28 → FieldIs msg (start + 28) 1 0 ∧ FieldIs msg start 28 n28 :=
  meets_optional _ fun _ => meets_pair (by omega) (by omega) (by omega)

private theorem meets_exchangeLock (igrid : Option Nat) : Meets (exchangeLock igrid) msg ↔
    ∀ v, igrid = some v → FieldIs msg 59 15 v ∧ FieldIs msg 58 1 0 :=
  meets_optional _ fun _ => meets_pair (by omega) (by omega) (by omega)

/-- A hint agrees with a payload when the payload has the fields the hint locks. -/
theorem agrees_buildBits (hint : ApHint) (hn : 77 ≤ n) :
    (hint.buildBits n).Agrees msg ↔
      (hint.hasInfo = true → FieldIs msg 74 3 1) ∧
      (∀ v, (hint.report.bind ApHint.responseField).or (hint.grid.bind packGrid4) = some v →
        FieldIs msg 59 15 v ∧ FieldIs msg 58 1 0) ∧
      (∀ n28, hint.call2.bind pack28 = some n28 → FieldIs msg 57 1 0 ∧ FieldIs msg 29 28 n28) ∧
      (∀ n28, hint.call1.bind pack28 = some n28 → FieldIs msg 28 1 0 ∧ FieldIs msg 0 28 n28) := by
  have hinfo : Meets (fun i => if hint.hasInfo then fieldLock 74 3 1 i else none) msg ↔
      (hint.hasInfo = true → FieldIs msg 74 3 1) := by
    rw [← meets_fieldLock (by omega)]
    cases hint.hasInfo with
    | true => exact ⟨fun h _ => h,fun h => h rfl⟩
    | false => exact ⟨fun _ h => absurd h Bool.false_ne_true,fun _ i _ b hb => absurd hb (Option.not_mem_none b)⟩
  rw [agrees_iff_meets,← hinfo,← meets_exchangeLock,← meets_callLock hint.call2 (by omega),
    ← meets_callLock hint.call1 (by omega)]
  rw [← meets_or (f := callLock hint.call2 29),← meets_or (f := exchangeLock _),← meets_or]
  · refine meets_congr fun i hi => ?_
    rw [locked_buildBits hint (hi.trans_le hn),← exchangeLock_or,Option.or_assoc]
  · intro i _
    by_cases hi : i < 74
    · refine .inl ?_
      split
      · exact fieldLock_none (.inl hi)
      · rfl
    · refine .inr ?_
      rw [exchangeLock_none (by omega),callLock_none (by omega),callLock_none (by omega)]
      rfl
  · intro i _
    by_cases hi : i < 58
    · exact .inl (exchangeLock_none (.inl hi))
    · refine .inr ?_
      rw [callLock_none (by omega),callLock_none (by omega)]
      rfl
  · intro i _
    by_cases hi : i < 29
    · exact .inl (callLock_none (.inl hi))
    · exact .inr (callLock_none (by omega))

end Locks

section Packer
variable {msg : List UInt8} {start len val : Nat}

private theorem getD_writeBits (j : Nat) : (writeBits msg start len val).getD j 0 =
    if start ≤ j ∧ j < start + len ∧ j < msg.length then fieldBit len val (j - start) else msg.getD j 0 := by
  rw [writeBits,List.getD_eq_getElem?_getD,getElem?_foldl_set]
  split
  · rfl
  · rw [List.getD_eq_getElem?_getD]

private theorem getD_set (k : Nat) (b : UInt8) (j : Nat) :
    (msg.set k b).getD j 0 = if k = j ∧ j < msg.length then b else msg.getD j 0 := by
  rw [List.getD_eq_getElem?_getD,List.getElem?_set,List.getD_eq_getElem?_getD]
  by_cases hk : k = j
  · subst hk
    by_cases hlen : k < msg.length
    · simp [hlen]
    · simp [hlen]
  · simp [hk]

private theorem fieldIs_writeBits (h : start + len ≤ msg.length) :
    FieldIs (writeBits msg start len val) start len val := by
  intro i hi
  rw [getD_writeBits,if_pos (by omega),Nat.add_sub_cancel_left]

private theorem fieldIs_writeBits_of_disjoint (start' len' val' : Nat) (h : start + len ≤ start' ∨ start' + len' ≤ start) :
    FieldIs (writeBits msg start' len' val') start len val ↔ FieldIs msg start len val := by
  refine forall_congr' fun i => forall_congr' fun hi => ?_
  rw [getD_writeBits,if_neg (by omega)]

private theorem fieldIs_set_of_disjoint (k : Nat) (b : UInt8) (h : k < start ∨ start + len ≤ k) :
    FieldIs (msg.set k b) start len val ↔ FieldIs msg start len val := by
  refine forall_congr' fun i => forall_congr' fun hi => ?_
  rw [getD_set,if_neg (by omega)]

/-- A packed standard message has its fields where they belong. -/
theorem layout77_fields (n28a : Nat) (ipa : Bool) (n28b : Nat) (ipb : Bool) (ir igrid i3 : Nat) :
    let m := layout77 n28a ipa n28b ipb ir igrid i3
    FieldIs m 0 28 n28a ∧ m.getD 28 0 = ipa.toUInt8 ∧ FieldIs m 29 28 n28b ∧ m.getD 57 0 = ipb.toUInt8 ∧
      m.getD 58 0 = UInt8.ofNat ir ∧ FieldIs m 59 15 igrid ∧ FieldIs m 74 3 i3 := by
  intro m
  refine ⟨?_,?_,?_,?_,?_,?_,?_⟩
  · simp (disch := simp) only [m,layout77,fieldIs_writeBits_of_disjoint,fieldIs_set_of_disjoint,fieldIs_writeBits]
  · simp only [m,layout77,getD_writeBits,getD_set,length_writeBits,List.length_set,List.length_replicate]
    rfl
  · simp (disch := simp) only [m,layout77,fieldIs_writeBits_of_disjoint,fieldIs_set_of_disjoint,fieldIs_writeBits]
  · simp only [m,layout77,getD_writeBits,getD_set,length_writeBits,List.length_set,List.length_replicate]
    rfl
  · simp only [m,layout77,getD_writeBits,getD_set,length_writeBits,List.length_set,List.length_replicate]
    rfl
  · simp (disch := simp) only [m,layout77,fieldIs_writeBits_of_disjoint,fieldIs_writeBits]
  · simp (disch := simp) only [m,layout77,fieldIs_writeBits]

private theorem slash_mem_asBytes {s : Str} (h : '/' ∈ s) : 47 ∈ asBytes s := by
  rw [asBytes,List.mem_flatMap]
  exact ⟨'/',h,by decide⟩

private theorem packDirectedCq_slash {s : Str} (h : '/' ∈ s) : packDirectedCq s = none := by
  have hdigits : ∀ t : Str, '/' ∈ t → parseDigits t = none := by
    intro t ht
    have hall : t.all isAsciiDigit = false := List.all_eq_false.2 ⟨'/',ht,by decide⟩
    rw [parseDigits,hall,Bool.not_false,Bool.or_true]
    rfl
  have hparse : parseU32 s = none := by
    unfold parseU32
    split
    · rename_i rest
      have hrest : '/' ∈ rest := by simpa using h
      dsimp only
      rw [hdigits rest hrest,Option.bind_none]
    · dsimp only
      rw [hdigits s h,Option.bind_none]
  have hupper : (asBytes s).all isUpperByte = false := by
    rw [List.all_eq_false]
    exact ⟨47,slash_mem_asBytes h,by decide⟩
  rw [packDirectedCq,hparse]
  simp [hupper]

/-- A suffix reaches one of the three letter positions. -/
private theorem alignCall_slash {bs buf : List UInt8} {x : UInt8} (h : 3 ≤ bs.length) (hlen : bs.length ≤ 4)
    (hbuf : alignCall (bs ++ [47,x]) = some buf) : ∃ k, (k = 3 ∨ k = 4 ∨ k = 5) ∧ buf.getD k 0 = 47 := by
  match bs, h with
  | [b1,b2,b3], _ =>
    unfold alignCall at hbuf
    split_ifs at hbuf
    · obtain rfl := Option.some.inj hbuf
      exact ⟨3,.inl rfl,rfl⟩
    · obtain rfl := Option.some.inj hbuf
      exact ⟨4,.inr (.inl rfl),rfl⟩
  | [b1,b2,b3,b4], _ =>
    unfold alignCall at hbuf
    split_ifs at hbuf
    · obtain rfl := Option.some.inj hbuf
      exact ⟨4,.inr (.inl rfl),rfl⟩
    · obtain rfl := Option.some.inj hbuf
      exact ⟨5,.inr (.inr rfl),rfl⟩
  | _ :: _ :: _ :: _ :: _ :: rest, _ =>
    simp only [List.length_cons] at hlen
    omega

private theorem packStandardCall_slash {bs : List UInt8} (x : UInt8) (h : 3 ≤ bs.length) :
    packStandardCall (bs ++ [47,x]) = none := by
  have hC4 : ∀ i, ¬C4.idxOf? 47 = some i := fun i => by simp [show C4.idxOf? 47 = none by decide]
  rw [packStandardCall,Option.eq_none_iff_forall_ne_some]
  intro n hn
  split at hn
  · cases hn
  · rename_i hlen
    simp only [List.length_append,List.length_cons,List.length_nil,gt_iff_lt,Bool.or_eq_true,
      decide_eq_true_eq,not_or,not_lt] at hlen
    obtain ⟨buf,hbuf,hn⟩ := Option.bind_eq_some_iff.1 hn
    obtain ⟨k,hk,hslash⟩ := alignCall_slash h (by omega) hbuf
    split at hn
    · cases hn
    · obtain ⟨i1,-,hn⟩ := Option.bind_eq_some_iff.1 hn
      obtain ⟨i2,-,hn⟩ := Option.bind_eq_some_iff.1 hn
      obtain ⟨i3,-,hn⟩ := Option.bind_eq_some_iff.1 hn
      obtain ⟨i4,h4,hn⟩ := Option.bind_eq_some_iff.1 hn
      obtain ⟨i5,h5,hn⟩ := Option.bind_eq_some_iff.1 hn
      obtain ⟨i6,h6,-⟩ := Option.bind_eq_some_iff.1 hn
      rcases hk with rfl | rfl | rfl
      · exact hC4 i4 (hslash ▸ h4)
      · exact hC4 i5 (hslash ▸ h5)
      · exact hC4 i6 (hslash ▸ h6)

/-- `pack28` has no room for a suffix. -/
private theorem pack28_slash {call base : Str} {x : Char} (hx : x.toNat < 128) (hcall : trim call = base ++ ['/',x])
    (hlen : 5 ≤ byteLen (trim call)) : pack28 call = none := by
  have hslash : '/' ∈ trim call := by simp [hcall]
  have hshort : ∀ s : Str, byteLen s < 5 → ¬trim call = s := by
    rintro s hs rfl
    omega
  rw [pack28,if_neg (hshort _ (by decide)),if_neg (hshort _ (by decide)),if_neg (hshort _ (by decide))]
  split
  · rename_i suffix hsuffix
    obtain ⟨hmap,-⟩ := Option.filter_eq_some_iff.1 hsuffix
    obtain ⟨rest,hrest,rfl⟩ := Option.map_eq_some_iff.1 hmap
    apply packDirectedCq_slash
    refine mem_trim ?_ (by decide)
    rw [stripPrefix] at hrest
    split at hrest
    · rename_i hcq
      obtain ⟨t,ht⟩ := List.isPrefixOf_iff_prefix.1 hcq
      obtain rfl := Option.some.inj hrest
      rw [← ht] at hslash ⊢
      simpa using hslash
    · cases hrest
  · have hbytes : asBytes (trim call) = asBytes base ++ [47,UInt8.ofNat x.toNat] := by
      rw [hcall,asBytes,List.flatMap_append,List.flatMap_cons,List.flatMap_singleton,utf8EncodeChar_ascii hx]
      rfl
    rw [hbytes]
    apply packStandardCall_slash
    have hsize := congrArg List.length hbytes
    rw [length_asBytes,List.length_append] at hsize
    have htwo : [47,UInt8.ofNat x.toNat].length = 2 := rfl
    omega

theorem splitRpSuffix_of_packed {call : Str} {n28 : Nat} (h : pack28 call = some n28) :
    splitRpSuffix call = (trim call,false,false) := by
  have hnone : ∀ x : Char, x.toNat < 128 → 5 ≤ byteLen (trim call) → stripSuffix ['/',x] (trim call) = none := by
    intro x hx hlen
    rw [stripSuffix,if_neg]
    intro hsuffix
    obtain ⟨base,hbase⟩ := List.isSuffixOf_iff_suffix.1 hsuffix
    rw [pack28_slash hx hbase.symm hlen] at h
    cases h
  unfold splitRpSuffix
  dsimp only
  split
  · rename_i hlen
    rw [show "/P".toList = ['/','P'] from rfl,show "/R".toList = ['/','R'] from rfl,
      hnone 'P' (by decide) hlen,hnone 'R' (by decide) hlen]
  · rfl

private theorem blank_free_field {c : Char} (h : isFieldLetter c = true) : isWhitespace c = false := by
  rw [isFieldLetter,Bool.and_eq_true,decide_eq_true_eq,decide_eq_true_eq] at h
  have hlt : c.toUpper.toNat < 128 := lt_of_le_of_lt (show c.toUpper.toNat ≤ 82 from h.2) (by decide)
  rw [← isWhitespace_toUpper]
  revert h
  generalize c.toUpper = u at hlt ⊢
  revert hlt
  apply ascii_cases
  decide

private theorem blank_free_digit {c : Char} (h : isAsciiDigit c = true) : isWhitespace c = false := by
  rw [isAsciiDigit,Bool.and_eq_true,decide_eq_true_eq,decide_eq_true_eq] at h
  have hlt : c.toNat < 128 := lt_of_le_of_lt (show c.toNat ≤ 57 from h.2) (by decide)
  revert h
  revert hlt
  apply ascii_cases
  decide

private theorem trim_grid {g : Str} (h : isGrid4 g = true) : trim g = g := by
  unfold isGrid4 at h
  split at h
  · rename_i a b c d
    simp only [Bool.and_eq_true] at h
    refine Trimmed.trim_eq ⟨fun x hx => ?_,fun x hx => ?_⟩
    · obtain rfl : a = x := by simpa using hx
      exact blank_free_field h.1.1.1
    · obtain rfl : d = x := by simpa using hx
      exact blank_free_digit h.2
  · cases h

/-- A response token is packed as the hint locks it. -/
private theorem packReport_response {r : Str} {v : Nat} (h : ApHint.responseField r = some v) :
    packReport (trim r) = some (v,0) := by
  unfold ApHint.responseField at h
  split_ifs at h with h1 h2 h3
  · subst h1
    obtain rfl := Option.some.inj h
    rfl
  · subst h2
    obtain rfl := Option.some.inj h
    rfl
  · subst h3
    obtain rfl := Option.some.inj h
    rfl

/-- A locator is packed as the hint locks it, unless it spells the closing token. -/
private theorem packReport_grid {g : Str} {v : Nat} (h : packGrid4 g = some v) (hg : g ≠ "RR73".toList) :
    packReport (trim g) = some (v,0) := by
  obtain ⟨-,hgrid,-⟩ := toGrid4_packGrid4 h
  have hfour : byteLen g = 4 := by
    unfold packGrid4 at h
    dsimp only at h
    split at h
    · cases h
    · rename_i hlen
      rw [← length_asBytes]
      exact not_not.1 hlen
  have hshape : g.isEmpty = false ∧ g ≠ "RRR".toList ∧ g ≠ "73".toList := by
    refine ⟨?_,?_,?_⟩
    · cases g with
      | nil => cases hgrid
      | cons a g => rfl
    · rintro rfl
      cases hgrid
    · rintro rfl
      cases hgrid
  rw [trim_grid hgrid,packReport,hshape.1,if_neg Bool.false_ne_true,if_neg hshape.2.1,if_neg hg,if_neg hshape.2.2,
    if_pos hfour,h]

end Packer

section Agreement
variable {hint : ApHint} {call1 call2 report : Str} {bits : List UInt8} {n : Nat}

/-- The messages a hint is about: each field it knows is the field of the message. -/
structure ApHint.Matches (hint : ApHint) (call1 call2 report : Str) : Prop where
  call1 : ∀ c, hint.call1 = some c → c = call1
  call2 : ∀ c, hint.call2 = some c → c = call2
  grid : ∀ g, hint.grid = some g → g = report
  report : ∀ r, hint.report = some r → r = report

/-- A call with the suffix that makes its message a type 2. -/
def isPortable (call : Str) : Bool := (splitRpSuffix call).2.2

/-- The fields of a packed message. -/
private structure Packed (call1 call2 report : Str) (bits : List UInt8) (n28a n28b igrid ir : Nat) : Prop where
  first : pack28 (splitRpSuffix call1).1 = some n28a
  second : pack28 (splitRpSuffix call2).1 = some n28b
  exchange : packReport (trim report) = some (igrid,ir)
  layout : bits = layout77 n28a (splitRpSuffix call1).2.1 n28b (splitRpSuffix call2).2.1 ir igrid
    (if isPortable call1 || isPortable call2 then 2 else 1)

private theorem packed_of_pack77 (h : pack77 call1 call2 report = some bits) :
    ∃ n28a n28b igrid ir, Packed call1 call2 report bits n28a n28b igrid ir := by
  unfold pack77 at h
  dsimp only at h
  obtain ⟨n28a,h1,h⟩ := Option.bind_eq_some_iff.1 h
  obtain ⟨n28b,h2,h⟩ := Option.bind_eq_some_iff.1 h
  obtain ⟨⟨igrid,ir⟩,h3,h⟩ := Option.map_eq_some_iff.1 h
  exact ⟨n28a,n28b,igrid,ir,h1,h2,h3,h.symm⟩

/-- A call that the hint locks is sent without a suffix and with the same number. -/
private theorem packed_call {call : Str} {n28 n28' : Nat} (hpack : pack28 (splitRpSuffix call).1 = some n28')
    (hlock : pack28 call = some n28) : n28' = n28 ∧ (splitRpSuffix call).2.1 = false := by
  rw [splitRpSuffix_of_packed hlock] at hpack ⊢
  have hsame : pack28 (trim call) = pack28 call := by
    rw [pack28,pack28,(trimmed_trim call).trim_eq]
  exact ⟨Option.some.inj (hpack.symm.trans (hsame.trans hlock)),rfl⟩

private theorem fieldIs_flag {msg : List UInt8} {k : Nat} (h : msg.getD k 0 = 0) : FieldIs msg k 1 0 := by
  intro i hi
  obtain rfl : i = 0 := by omega
  exact h

private theorem fieldIs_unique {msg : List UInt8} {start len v w : Nat} (hv : FieldIs msg start len v)
    (hw : FieldIs msg start len w) : ∀ i < len, fieldBit len v i = fieldBit len w i := fun i hi =>
  (hv i hi).symm.trans (hw i hi)

/-- The type bits of the message are the ones the hint locks when no suffix makes it a type 2. -/
private theorem type_field {portable : Bool} (h : FieldIs bits 74 3 (if portable then 2 else 1)) :
    FieldIs bits 74 3 1 ↔ portable = false := by
  cases portable with
  | false => exact ⟨fun _ => rfl,fun _ => h⟩
  | true =>
    refine ⟨fun h1 => absurd (fieldIs_unique h h1 2 (by decide)) ?_,fun h0 => absurd h0 Bool.true_eq_false_eq_False⟩
    decide

private theorem exchange_field {igrid ir : Nat} (hmatch : hint.Matches call1 call2 report)
    (hpacked : packReport (trim report) = some (igrid,ir)) (hir : bits.getD 58 0 = UInt8.ofNat ir)
    (hfield : FieldIs bits 59 15 igrid) :
    (∀ v, (hint.report.bind ApHint.responseField).or (hint.grid.bind packGrid4) = some v →
      FieldIs bits 59 15 v ∧ FieldIs bits 58 1 0) ↔
    (hint.grid = some "RR73".toList → hint.report = some "RR73".toList) := by
  have hsent : ∀ v, packReport (trim report) = some (v,0) → FieldIs bits 59 15 v ∧ FieldIs bits 58 1 0 := by
    intro v hv
    obtain ⟨rfl,rfl⟩ := Prod.mk.inj (Option.some.inj (hpacked.symm.trans hv))
    exact ⟨hfield,fieldIs_flag hir⟩
  constructor
  · intro hall hgrid
    obtain rfl := hmatch.grid _ hgrid
    cases hreport : hint.report with
    | none =>
      obtain ⟨hlock,-⟩ := hall 32373 (by rw [hgrid,hreport]; decide)
      obtain ⟨rfl,-⟩ := Prod.mk.inj (Option.some.inj (hpacked.symm.trans (show _ = some (32403,0) by decide)))
      exact absurd (fieldIs_unique hfield hlock 13 (by decide)) (by decide)
    | some r => rw [hmatch.report r hreport]
  · intro hcond v hv
    cases hreport : hint.report.bind ApHint.responseField with
    | some w =>
      rw [hreport,Option.some_or] at hv
      obtain rfl := Option.some.inj hv
      obtain ⟨r,hr,hw⟩ := Option.bind_eq_some_iff.1 hreport
      rw [hmatch.report r hr] at hw
      exact hsent w (packReport_response hw)
    | none =>
      rw [hreport,Option.none_or] at hv
      obtain ⟨g,hg,hgrid⟩ := Option.bind_eq_some_iff.1 hv
      have hne : report ≠ "RR73".toList := by
        rintro rfl
        rw [hmatch.grid g hg] at hg
        rw [hcond hg] at hreport
        cases hreport
      rw [hmatch.grid g hg] at hgrid
      exact hsent v (packReport_grid hgrid hne)

/-- A hint and a message it is about disagree in two ways only: a `/P` makes the message a type 2
while the hint locks type 1, and `RR73` is a locator to the hint and a response to the packer. -/
theorem hint_agrees_iff (hn : 77 ≤ n) (hpack : pack77 call1 call2 report = some bits)
    (hmatch : hint.Matches call1 call2 report) :
    (hint.buildBits n).Agrees bits ↔
      (hint.hasInfo = true → isPortable call1 = false ∧ isPortable call2 = false) ∧
      (hint.grid = some "RR73".toList → hint.report = some "RR73".toList) := by
  obtain ⟨n28a,n28b,igrid,ir,hp⟩ := packed_of_pack77 hpack
  obtain ⟨f1,fa,f2,fb,fr,fx,ft⟩ := layout77_fields n28a (splitRpSuffix call1).2.1 n28b (splitRpSuffix call2).2.1 ir
    igrid (if isPortable call1 || isPortable call2 then 2 else 1)
  rw [← hp.layout] at f1 fa f2 fb fr fx ft
  have hcall1 : ∀ n28, hint.call1.bind pack28 = some n28 → FieldIs bits 28 1 0 ∧ FieldIs bits 0 28 n28 := by
    intro n28 hlock
    obtain ⟨c,hc,hlock⟩ := Option.bind_eq_some_iff.1 hlock
    obtain ⟨rfl,hflag⟩ := packed_call hp.first (hmatch.call1 c hc ▸ hlock)
    exact ⟨fieldIs_flag (by rw [fa,hflag]; rfl),f1⟩
  have hcall2 : ∀ n28, hint.call2.bind pack28 = some n28 → FieldIs bits 57 1 0 ∧ FieldIs bits 29 28 n28 := by
    intro n28 hlock
    obtain ⟨c,hc,hlock⟩ := Option.bind_eq_some_iff.1 hlock
    obtain ⟨rfl,hflag⟩ := packed_call hp.second (hmatch.call2 c hc ▸ hlock)
    exact ⟨fieldIs_flag (by rw [fb,hflag]; rfl),f2⟩
  rw [agrees_buildBits hint hn,type_field ft,Bool.or_eq_false_iff,exchange_field hmatch hp.exchange fr fx]
  exact ⟨fun h => ⟨h.1,h.2.1⟩,fun h => ⟨h.1,h.2,hcall2,hcall1⟩⟩

/-- A CQ with both calls and the grid known, in full agreement. -/
theorem hint_agrees_cq :
    ∃ bits, pack77 "CQ".toList "3Y0Z".toList "JD15".toList = some bits ∧
      ((⟨some "CQ".toList,some "3Y0Z".toList,some "JD15".toList,none⟩ : ApHint).buildBits 174).Agrees bits := by
  have hpack : pack77 "CQ".toList "3Y0Z".toList "JD15".toList =
      some ((pack77 "CQ".toList "3Y0Z".toList "JD15".toList).getD []) := by decide +kernel
  refine ⟨_,hpack,(hint_agrees_iff (by decide) hpack ⟨?_,?_,?_,?_⟩).2 ⟨by decide +kernel,by decide +kernel⟩⟩
  · exact fun c hc => (Option.some.inj hc).symm
  · exact fun c hc => (Option.some.inj hc).symm
  · exact fun c hc => (Option.some.inj hc).symm
  · exact fun c hc => absurd hc (by simp)

/-- The portable station the hint names sends a type 2, and the hint locks type 1. -/
theorem portable_hint_disagrees :
    ∃ bits, pack77 "JA1ABC/P".toList "3Y0Z".toList "RR73".toList = some bits ∧
      let ap := (⟨some "JA1ABC/P".toList,some "3Y0Z".toList,none,some "RR73".toList⟩ : ApHint).buildBits 174
      ap.1.getD 76 0 = 1 ∧ ap.2.getD 76 0 = 1 ∧ bits.getD 76 0 = 0 := by
  refine ⟨(pack77 "JA1ABC/P".toList "3Y0Z".toList "RR73".toList).getD [],?_⟩
  decide +kernel

end Agreement

end MfskCore.Msg
