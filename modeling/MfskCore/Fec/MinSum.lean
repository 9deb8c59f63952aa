import MfskCore.Fec.BpReuse
import MfskCore.Library.TwoLeast
import Mathlib.Algebra.Order.Field.Basic
import Mathlib.Data.List.Nodup

/-! The min-sum update sends each bit of a check the least magnitude of the other edges, with the sign of
their product and of the row weight. -/
namespace MfskCore.Fec
open Rust Library

/-- A scalar whose comparison is a linear order with the sentinel above every magnitude. -/
class OrderedLlr (T : Type) {Wide : Type} [LlrScalar T Wide] [LinearOrder T] : Prop where
  ltTotal_iff : ∀ a b : T, LlrScalar.ltTotal a b = true ↔ a < b
  absSat_le : ∀ v : T, LlrScalar.absSat v ≤ LlrScalar.posInfLike

namespace Fixed
variable {w : Nat}

private theorem val_sat {x : Int} (hlo : -2^(w - 1) ≤ x) (hhi : x < 2^(w - 1)) : (sat w x).val = x := by
  unfold sat
  dsimp only
  rw [min_eq_left (by omega),max_eq_right hlo]

/-- The sentinel is a value of the format, and its largest. -/
theorem le_posInfLike (x : Fixed w) : x ≤ (scalar w).posInfLike := by
  have hpos := pow_pos w
  have hhi := x.hi
  have hval : ((scalar w).posInfLike : Fixed w).val = 2^(w - 1) - 1 := val_sat (by omega) (by omega)
  show x.val ≤ _
  rw [hval]
  omega

end Fixed

instance : OrderedLlr Q11i16 where
  ltTotal_iff _ _ := decide_eq_true_iff
  absSat_le _ := Fixed.le_posInfLike _

instance : OrderedLlr Q3i8 where
  ltTotal_iff _ _ := decide_eq_true_iff
  absSat_le _ := Fixed.le_posInfLike _

theorem orderedF32_ordered (K : Type) [Field K] [LinearOrder K] (tanh atanh : K → K) (toI32 : K → Int) :
    letI := orderedF32 K tanh atanh toI32
    OrderedLlr (WithTop K) := by
  let _ := orderedF32 K tanh atanh toI32
  exact { ltTotal_iff := fun _ _ => decide_eq_true_iff, absSat_le := fun _ => le_top }

/-- One edge of a check with distinct bits: bit `j` is at `slot` of the check, and the check is at `k`
of the bit. -/
structure CheckEdge (P : LdpcParams) (ichk slot j k : Nat) : Prop where
  check : ichk < P.M
  degree : 2 ≤ P.nrw ichk
  distinct : ((List.range (P.nrw ichk)).map (P.nm ichk)).Nodup
  inRow : slot < P.nrw ichk
  bit : P.nm ichk slot = j
  inWord : j < P.N
  inColumn : k < NCW
  back : (P.mn j).getD k 0 = ichk

section Definition
variable {T Wide : Type} [LlrScalar T Wide] (P : LdpcParams)

/-- The messages a check has received. -/
def received (toc : List T) (ichk s : Nat) : T := toc.getD (ichk * P.MAX_ROW + s) LlrScalar.zero

/-- The messages of the edges other than the one at `slot`. -/
def otherEdges (toc : List T) (ichk slot : Nat) : List T :=
  (otherSlots (P.nrw ichk) slot).map (received P toc ichk)

/-- The check update by its definition, from the least magnitude of the other edges. -/
def extrinsic (scale : T → T) (others : List T) (weight : Nat) (least : T) : T :=
  if (others.countP LlrScalar.isNegative + weight) % 2 = 1 then LlrScalar.negSat (scale least)
  else scale least

end Definition

section Update
variable {T Wide : Type} [LlrScalar T Wide] {P : LdpcParams} {ichk slot j k : Nat}

/-- The bit's slot is found again, since no other slot of the check lists it. -/
theorem mySlot_eq (h : CheckEdge P ichk slot j k) : mySlot P j ichk = slot := by
  have hfind : (List.range (P.nrw ichk)).find? (fun s => P.nm ichk s = j) = some slot := by
    refine List.find?_range_eq_some.mpr ⟨by simpa using h.bit,List.mem_range.mpr h.inRow,?_⟩
    intro s hs
    have hne : P.nm ichk s ≠ j := by
      intro heq
      have hsame := List.inj_on_of_nodup_map h.distinct (List.mem_range.mpr (hs.trans h.inRow))
        (List.mem_range.mpr h.inRow) (heq.trans h.bit.symm)
      exact hs.ne hsame
    simpa using hne
  rw [mySlot,hfind,Option.getD_some]

/-- Taking one slot out of a count of negative messages. -/
private theorem countP_otherSlots (p : Nat → Bool) {n s : Nat} (h : s < n) :
    (List.range n).countP p = (otherSlots n s).countP p + if p s then 1 else 0 := by
  induction n with
  | zero => omega
  | succ n ih =>
    rcases Nat.lt_succ_iff_lt_or_eq.mp h with hlt | rfl
    · rw [otherSlots_succ hlt,List.range_succ,List.countP_append,List.countP_append,ih hlt]
      omega
    · rw [otherSlots_last,List.range_succ,List.countP_append,List.countP_singleton]

variable [LinearOrder T] [OrderedLlr T]

/-- The pass for the two least magnitudes, with the parity of the negative messages beside it. -/
private theorem push_eq (c : TwoLeast T) (sx : Bool) (s : Nat) (v : T) :
    CheckMin.push ⟨c.least,c.second,c.slot,sx⟩ s v =
      let d := c.push s (LlrScalar.absSat v)
      ⟨d.least,d.second,d.slot,sx ^^ LlrScalar.isNegative v⟩ := by
  have hsign : (if LlrScalar.isNegative v then !sx else sx) = (sx ^^ LlrScalar.isNegative v) := by
    cases LlrScalar.isNegative v <;> simp
  unfold CheckMin.push TwoLeast.push
  simp only [OrderedLlr.ltTotal_iff,hsign]
  split
  · rfl
  · split <;> rfl

private theorem parity_add (n : Nat) (b : Bool) :
    (decide (n % 2 = 1) ^^ b) = decide ((n + if b then 1 else 0) % 2 = 1) := by
  cases b with
  | false => simp
  | true =>
    rcases Nat.mod_two_eq_zero_or_one n with h | h
    · simp [h,Nat.add_mod]
    · simp [h,Nat.add_mod]

/-- Taking out an edge's own sign leaves the parity of the others. -/
private theorem parity_others (n w : Nat) (b : Bool) :
    (decide ((n + if b then 1 else 0) % 2 = 1) ^^ b ^^ decide (w % 2 ≠ 0)) = decide ((n + w) % 2 = 1) := by
  rw [← parity_add,Bool.xor_assoc (decide _) b b,Bool.xor_self,Bool.xor_false]
  rcases Nat.mod_two_eq_zero_or_one w with h | h
  · simp [h,Nat.add_mod]
  · have hflip := parity_add n true
    simp only [if_true] at hflip
    simp [h,hflip,Nat.add_mod n w]

theorem checkMin_eq (toc : List T) (ichk : Nat) :
    checkMin P toc ichk =
      let c := twoLeast LlrScalar.posInfLike (fun s => LlrScalar.absSat (received P toc ichk s)) (P.nrw ichk)
      let negatives := (List.range (P.nrw ichk)).countP fun s => LlrScalar.isNegative (received P toc ichk s)
      ⟨c.least,c.second,c.slot,decide (negatives % 2 = 1)⟩ := by
  unfold checkMin
  induction P.nrw ichk with
  | zero => rfl
  | succ n ih =>
    rw [List.range_succ,List.foldl_append,ih,List.foldl_cons,List.foldl_nil,push_eq,twoLeast_succ,
      List.countP_append,List.countP_singleton,parity_add]
    rfl

/-- The message written for an edge is the one the definition gives. -/
theorem minSum_eq (h : CheckEdge P ichk slot j k) {s : BpScratch T Wide} (hs : s.Sized P) (scale : T → T) :
    ∃ least, ((otherEdges P s.toc ichk slot).map LlrScalar.absSat).min? = some least ∧
      minSum P (minPass P s) scale j ichk =
        extrinsic scale (otherEdges P s.toc ichk slot) (P.nrw ichk) least := by
  let v s' := LlrScalar.absSat (received P s.toc ichk s')
  let negative s' := LlrScalar.isNegative (received P s.toc ichk s')
  have hne : otherSlots (P.nrw ichk) slot ≠ [] := by
    have hlength : (otherSlots (P.nrw ichk) slot).length = P.nrw ichk - 1 := by
      rw [otherSlots,List.length_eraseIdx_of_lt (by simpa using h.inRow),List.length_range]
    have hdegree := h.degree
    exact List.ne_nil_of_length_pos (by omega)
  have hleast := leastOf_eq_min? (v := v) hne fun s' _ => OrderedLlr.absSat_le _
  refine ⟨leastOf LlrScalar.posInfLike v (otherSlots (P.nrw ichk) slot),?_,?_⟩
  · rw [otherEdges,List.map_map]
    exact hleast
  · have hget {α : Type} (f : Nat → α) (buf : List α) (hbuf : buf.length = P.M) (d : α) :
        (fill P.M f buf).getD ichk d = f ichk := by
      rw [fill_eq_map f hbuf,List.getD_eq_getElem?_getD,List.getElem?_map,List.getElem?_range h.check]
      rfl
    have hmag := twoLeast_without LlrScalar.posInfLike v h.inRow
    have hcount := countP_otherSlots negative h.inRow
    have hothers : (otherEdges P s.toc ichk slot).countP LlrScalar.isNegative =
        (otherSlots (P.nrw ichk) slot).countP negative := by
      rw [otherEdges,List.countP_map]
      rfl
    have hsign := parity_others ((otherSlots (P.nrw ichk) slot).countP negative) (P.nrw ichk) (negative slot)
    rw [← hcount] at hsign
    unfold minSum extrinsic
    rw [mySlot_eq h,hothers,← hmag]
    simp only [minPass,hget _ _ hs.min1,hget _ _ hs.min2,hget _ _ hs.idxMin1,hget _ _ hs.signXor,
      checkMin_eq,if_true,h.inRow,true_and]
    exact if_congr (iff_of_eq ((congrArg (· = true) hsign).trans (decide_eq_true_eq))) rfl rfl

/-- The message an edge receives in a min-sum step. -/
theorem minSumStep_eq (h : CheckEdge P ichk slot j k) {s : BpScratch T Wide} (hs : s.Sized P)
    (scale : T → T) :
    ∃ least, ((otherEdges P s.toc ichk slot).map LlrScalar.absSat).min? = some least ∧
      (minSumStep P scale s).tov[j * NCW + k]? =
        some (extrinsic scale (otherEdges P s.toc ichk slot) (P.nrw ichk) least) := by
  obtain ⟨least,hleast,hmessage⟩ := minSum_eq h hs scale
  have hcell := getElem?_fillRows (fun j k => minSum P (minPass P s) scale j ((P.mn j).getD k 0))
    (fun _ _ => Nat.le_refl NCW) h.inWord h.inColumn hs.tov.ge
  rw [h.back,hmessage] at hcell
  exact ⟨least,hleast,hcell⟩

end Update

/-- What the min-sum step of a decoder sends along an edge, for the normalising constant `alpha`. -/
def SendsExtrinsic {F T Wide : Type} [LlrScalar T Wide] [MulAlpha F T] [LinearOrder T] (P : LdpcParams)
    (s : BpScratch T Wide) (alpha : F) (ichk slot j k : Nat) : Prop :=
  let others := otherEdges P s.toc ichk slot
  ∃ least, (others.map LlrScalar.absSat).min? = some least ∧
    (minSumStep P (fun mag => MulAlpha.mulAlpha mag alpha) s).tov[j * NCW + k]? =
      some (extrinsic (fun mag => MulAlpha.mulAlpha mag alpha) others (P.nrw ichk) least)

/-- The single pass with a strict comparison computes the quadratic definition, in both fixed-point formats
and in an ordered field with the float sentinel above it. -/
theorem min_sum_extrinsic {P : LdpcParams} {ichk slot j k : Nat} (h : CheckEdge P ichk slot j k) :
    (∀ (F : Type) [F32 F] (alpha : F) (s : BpScratch Q11i16 Int), s.Sized P →
      SendsExtrinsic P s alpha ichk slot j k) ∧
    (∀ (F : Type) [F32 F] (alpha : F) (s : BpScratch Q3i8 Int), s.Sized P →
      SendsExtrinsic P s alpha ichk slot j k) ∧
    (∀ (K : Type) [Field K] [LinearOrder K] (tanh atanh : K → K) (toI32 : K → Int),
      letI := orderedF32 K tanh atanh toI32
      ∀ (alpha : WithTop K) (s : BpScratch (WithTop K) (WithTop K)), s.Sized P →
        SendsExtrinsic P s alpha ichk slot j k) := by
  refine ⟨fun F _ alpha s hs => minSumStep_eq h hs _,fun F _ alpha s hs => minSumStep_eq h hs _,?_⟩
  intro K _ _ tanh atanh toI32 alpha s hs
  let _ := orderedF32 K tanh atanh toI32
  have := orderedF32_ordered K tanh atanh toI32
  exact minSumStep_eq h hs _

/-- All messages of the first check at the most negative value, which ties every magnitude with the
sentinel. -/
theorem min_sum_extrinsic_saturated :
    letI := rationalF32
    let s : BpScratch Q11i16 Int :=
      { BpScratch.new Ldpc174_91Params with
        toc := List.replicate (Ldpc174_91Params.M * Ldpc174_91Params.MAX_ROW) (Fixed.sat 16 (-32768)) }
    SendsExtrinsic Ldpc174_91Params s (0.75 : Rat) 0 1 30 0 := by
  let _ := rationalF32
  have hedge : CheckEdge Ldpc174_91Params 0 1 30 0 := by
    constructor <;> decide +kernel
  refine (min_sum_extrinsic hedge).1 Rat 0.75 _ ?_
  exact { (sized_new : (BpScratch.new Ldpc174_91Params : BpScratch Q11i16 Int).Sized _) with
    toc := List.length_replicate }

end MfskCore.Fec
