import MfskCore.Fec.LdpcCode
import MfskCore.Fec.RunningSum
import MfskCore.Library.Disagreement

/-! The min-sum decoder over a scalar against the branch of the float decoder it was copied from. In exact
arithmetic they take the same steps and accept the same words; their error counts differ on observations that
are exactly zero, which one counts as a one and the other as a zero. -/
namespace MfskCore.Fec
open Rust Library

section Steps
variable {F : Type} [F32 F] {P : LdpcParams} {llr : List F} {apMask : Option (List Bool)}

/-- The laws the two orders of summation and of multiplication rest on. -/
structure ExactF32 (F : Type) [F32 F] : Prop where
  add_assoc : ∀ a b c : F, a + b + c = a + (b + c)
  zero_add : ∀ a : F, 0.0 + a = a
  mul_comm : ∀ a b : F, a * b = b * a

/-- A result with its errors counted as the min-sum decoder counts them. -/
def BpResult.recount (P : LdpcParams) (llr : List F) (r : BpResult) : BpResult :=
  bpResult P (fun i => !decide (llr.getD i 0.0 < 0.0)) r.codeword r.iterations

theorem wideDecide_eq (hF : ExactF32 F) (s : BpScratch F F) :
    wideDecide P llr apMask s = decideBits P llr apMask s := by
  have hestimate (i : Nat) : wideEstimate llr apMask s.tov i = maskedEstimate llr apMask s.tov i := by
    unfold wideEstimate maskedEstimate
    split
    · rfl
    · show llr.getD i 0.0 + s.tov.getD (i * NCW + 0) 0.0 + s.tov.getD (i * NCW + 1) 0.0 +
          s.tov.getD (i * NCW + 2) 0.0 =
        llr.getD i 0.0 + (0.0 + s.tov.getD (i * NCW + 0) 0.0 + s.tov.getD (i * NCW + 1) 0.0 +
          s.tov.getD (i * NCW + 2) 0.0)
      rw [hF.zero_add,hF.add_assoc,hF.add_assoc,hF.add_assoc]
  have hbit (z : F) : (if LlrScalar.wideIsPositive F z = true then (1 : UInt8) else 0) = hardDecision z :=
    if_congr decide_eq_true_iff rfl rfl
  have hall : wideEstimate llr apMask s.tov = maskedEstimate llr apMask s.tov := funext hestimate
  unfold wideDecide decideBits
  rw [hall]
  simp only [hbit]
  rfl

theorem minSumStep_alpha (hF : ExactF32 F) (alpha : F) (s : BpScratch F F) :
    minSumStep P (fun mag => MulAlpha.mulAlpha mag alpha) s = kindStep P (.NormalizedMinSum alpha) s := by
  have hscale : (fun mag : F => MulAlpha.mulAlpha mag alpha) = fun mag => alpha * mag :=
    funext fun mag => hF.mul_comm mag alpha
  rw [hscale]
  rfl

/-- The two loops take the same steps from the same buffers. -/
theorem nmsLoop_eq (hF : ExactF32 F) (verify : Option (List UInt8 → Bool)) (alpha : F) (left iter : Nat)
    (stall : Stall) (s : BpScratch F F) :
    (nmsLoop P llr apMask verify alpha left iter stall s).1 =
      (bpLoop P llr apMask verify (.NormalizedMinSum alpha) left iter stall s).1.map (BpResult.recount P llr) := by
  induction left generalizing iter stall s with
  | zero => rfl
  | succ left ih =>
    unfold nmsLoop bpLoop
    dsimp only
    rw [wideDecide_eq hF]
    split
    · rfl
    · split
      · rfl
      · rw [minSumStep_alpha hF,ih]
        rfl

theorem bpDecodeGenericNms_eq (hF : ExactF32 F) (maxIter : Nat) (verify : Option (List UInt8 → Bool)) (alpha : F) :
    bpDecodeGenericNms P llr apMask maxIter verify alpha =
      (bpDecodeGenericKind P llr apMask maxIter verify (.NormalizedMinSum alpha)).map (BpResult.recount P llr) := by
  rw [← kind_scratch (.NormalizedMinSum alpha) (sized_new (P := P))]
  exact nmsLoop_eq hF verify alpha _ _ _ _

/-- The positions whose observation is neither negative nor positive. -/
def undecided (P : LdpcParams) (llr : List F) : List Nat :=
  (List.range P.N).filter fun i => (!decide (llr.getD i 0.0 < 0.0)) != decide (llr.getD i 0.0 > 0.0)

/-- The two decoders agree exactly when a word that is found sides with the min-sum decoder at half of the
undecided positions. -/
theorem nms_agrees_iff (hF : ExactF32 F) (maxIter : Nat) (verify : Option (List UInt8 → Bool)) (alpha : F) :
    bpDecodeGenericNms P llr apMask maxIter verify alpha =
        bpDecodeGenericKind P llr apMask maxIter verify (.NormalizedMinSum alpha) ↔
      ∀ r, bpDecodeGenericKind P llr apMask maxIter verify (.NormalizedMinSum alpha) = some r →
        2 * (undecided P llr).countP (fun i => (r.codeword.getD i 0 == 1) == !decide (llr.getD i 0.0 < 0.0)) =
          (undecided P llr).length := by
  rw [bpDecodeGenericNms_eq hF]
  cases hfound : bpDecodeGenericKind P llr apMask maxIter verify (.NormalizedMinSum alpha) with
  | none => simp
  | some r =>
    obtain ⟨cw,it,rfl,_⟩ := bpDecodeGenericKind_some P hfound
    have hiff := countP_bne_eq_iff (List.range P.N) (fun i => cw.getD i 0 == 1)
      (fun i => !decide (llr.getD i 0.0 < 0.0)) (fun i => decide (llr.getD i 0.0 > 0.0))
    simp only [Option.map_some,Option.some.injEq,forall_eq']
    refine Iff.trans ?_ hiff
    simp only [BpResult.recount,bpResult,BpResult.mk.injEq,true_and,and_true]
    exact eq_comm

/-- They agree when every word that could be found does. -/
theorem nms_eq_kind (hF : ExactF32 F) (maxIter : Nat) (verify : Option (List UInt8 → Bool)) (alpha : F)
    (h : ∀ c, IsBits P.N c → acceptable P verify c = true →
      2 * (undecided P llr).countP (fun i => (c.getD i 0 == 1) == !decide (llr.getD i 0.0 < 0.0)) =
        (undecided P llr).length) :
    bpDecodeGenericNms P llr apMask maxIter verify alpha =
      bpDecodeGenericKind P llr apMask maxIter verify (.NormalizedMinSum alpha) := by
  refine (nms_agrees_iff hF maxIter verify alpha).mpr fun r hr => ?_
  obtain ⟨cw,it,rfl,hbits,hchecks,hverify⟩ := bpDecodeGenericKind_some P hr
  exact h cw hbits (acceptable_iff.mpr ⟨hchecks,hverify⟩)

end Steps

/-- The positions whose observation is exactly zero. -/
def erased {F : Type} [Zero F] [DecidableEq F] (P : LdpcParams) (llr : List F) : List Nat :=
  (List.range P.N).filter fun i => llr.getD i 0 = 0

/-- Every word of the code that passes has as many ones as zeros among the erased bits. So it is when there are
none. -/
def Balanced {F : Type} [Zero F] [DecidableEq F] (P : LdpcParams) (llr : List F)
    (verify : Option (List UInt8 → Bool)) : Prop :=
  ∀ c, IsBits P.N c → acceptable P verify c = true →
    2 * (erased P llr).countP (fun i => c.getD i 0 == 1) = (erased P llr).length

theorem balanced_of_not_erased {F : Type} [Zero F] [DecidableEq F] {P : LdpcParams} {llr : List F}
    {verify : Option (List UInt8 → Bool)} (h : ∀ i < P.N, llr.getD i 0 ≠ 0) : Balanced P llr verify := by
  intro c _ _
  have hnone : erased P llr = [] := by
    rw [erased,List.filter_eq_nil_iff]
    intro i hi
    simpa using h i (List.mem_range.mp hi)
  rw [hnone]
  rfl

/-- In a linear order only zero is neither negative nor positive. -/
private theorem undecided_iff {F : Type} [Zero F] [LinearOrder F] (x : F) :
    ((!decide (x < 0)) != decide (x > 0)) = decide (x = 0) := by
  rcases lt_trichotomy x 0 with h | h | h
  · simp [h,h.ne,h.not_gt]
  · simp [h]
  · simp [h,h.ne',h.not_gt]

/-- Zero says one to the min-sum decoder, however the code spells it. -/
private theorem undecided_half {F : Type} [Zero F] [LinearOrder F] {P : LdpcParams} {llr : List F} (c : List UInt8)
    {z : F} (hz : z = 0) :
    let undecided := (List.range P.N).filter fun i => (!decide (llr.getD i z < z)) != decide (llr.getD i z > z)
    2 * undecided.countP (fun i => (c.getD i 0 == 1) == !decide (llr.getD i z < z)) = undecided.length ↔
      2 * (erased P llr).countP (fun i => c.getD i 0 == 1) = (erased P llr).length := by
  intro undecided
  obtain rfl := hz
  have herased : undecided = erased P llr := by simp only [undecided,undecided_iff,erased]
  have hcount : (erased P llr).countP (fun i => (c.getD i 0 == 1) == !decide (llr.getD i 0 < 0)) =
      (erased P llr).countP fun i => c.getD i 0 == 1 := by
    refine List.countP_congr fun i hi => ?_
    have hzero : llr.getD i 0 = 0 := of_decide_eq_true (List.mem_filter.mp hi).2
    rw [hzero,decide_eq_false (lt_irrefl 0)]
    simp
  rw [herased,hcount]

section Readings
variable (K : Type) [Field K] [LinearOrder K] (tanh atanh : K → K) (infinity : K) (toI32 : K → Int)
  (P : LdpcParams) (c : List UInt8)

theorem exact_fieldF32 :
    letI := fieldF32 K tanh atanh infinity toI32
    ExactF32 K := by
  let _ := fieldF32 K tanh atanh infinity toI32
  refine ⟨fun a b c => add_assoc a b c,fun a => ?_,fun a b => mul_comm a b⟩
  show (0.0 : K) + a = a
  rw [zero_literal,zero_add]

theorem exact_orderedF32 :
    letI := orderedF32 K tanh atanh toI32
    ExactF32 (WithTop K) := by
  let _ := orderedF32 K tanh atanh toI32
  refine ⟨fun a b c => add_assoc a b c,fun a => ?_,fun a b => mul_comm a b⟩
  show (((0.0 : K) : WithTop K)) + a = a
  rw [zero_literal,WithTop.coe_zero,zero_add]

private theorem half_fieldF32 (llr : List K) :
    letI := fieldF32 K tanh atanh infinity toI32
    2 * (undecided P llr).countP (fun i => (c.getD i 0 == 1) == !decide (llr.getD i 0.0 < 0.0)) =
        (undecided P llr).length ↔
      2 * (erased P llr).countP (fun i => c.getD i 0 == 1) = (erased P llr).length :=
  undecided_half c zero_literal

private theorem half_orderedF32 (llr : List (WithTop K)) :
    letI : F32 (WithTop K) := orderedF32 K tanh atanh toI32
    2 * (undecided P llr).countP (fun i => (c.getD i 0 == 1) == !decide (llr.getD i 0.0 < 0.0)) =
        (undecided P llr).length ↔
      2 * (erased P llr).countP (fun i => c.getD i 0 == 1) = (erased P llr).length := by
  have hzero : ((0.0 : K) : WithTop K) = 0 := by rw [zero_literal,WithTop.coe_zero]
  exact undecided_half c hzero

end Readings

end MfskCore.Fec
