import MfskCore.Library.ShiftRegister
import Mathlib.Algebra.Polynomial.Derivative
import Mathlib.LinearAlgebra.Lagrange
import Mathlib.RingTheory.PowerSeries.Trunc
import Mathlib.Tactic.LinearCombination

/-! Error location by power sums. A pattern of values `y` at the points `x` of a finite set has
the power sums `∑ y x^i`; its locator vanishes at the inverse points, and locator times power
sums is a polynomial, the evaluator, from which the values come back. -/
namespace MfskCore.Library
open Polynomial

variable {K : Type*} [Field K] {ι : Type*}

/-- The polynomial with constant term 1 that vanishes at the inverse points. -/
noncomputable def locator (P : Finset ι) (x : ι → K) : K[X] := ∏ p ∈ P, (1 - C (x p) * X)

/-- The power sums of the values `y` at the points `x`. -/
noncomputable def powerSums (P : Finset ι) (x y : ι → K) : PowerSeries K :=
  PowerSeries.mk fun i => ∑ p ∈ P, y p * x p ^ i

section Locator
variable {P : Finset ι} {x : ι → K}

@[simp] theorem coeff_locator_zero (P : Finset ι) (x : ι → K) : (locator P x).coeff 0 = 1 := by
  simp [locator,Polynomial.coeff_zero_eq_eval_zero,Polynomial.eval_prod]

theorem natDegree_factor {a : K} (ha : a ≠ 0) : (1 - C a * X : K[X]).natDegree = 1 := by
  have hform : (1 - C a * X : K[X]) = C (-a) * X + C 1 := by
    rw [C_neg,C_1]
    ring
  rw [hform,Polynomial.natDegree_linear (neg_ne_zero.2 ha)]

theorem natDegree_locator (hx : ∀ p ∈ P, x p ≠ 0) : (locator P x).natDegree = P.card := by
  rw [locator,Polynomial.natDegree_prod]
  · rw [Finset.sum_congr rfl fun p hp => natDegree_factor (hx p hp)]
    simp
  · intro p hp hzero
    have hdeg := natDegree_factor (hx p hp)
    simp [hzero] at hdeg

theorem eval_locator (a : K) : (locator P x).eval a = ∏ p ∈ P, (1 - x p * a) := by
  simp [locator,Polynomial.eval_prod]

theorem eval_locator_eq_zero_iff (a : K) : (locator P x).eval a = 0 ↔ ∃ p ∈ P, x p * a = 1 := by
  rw [eval_locator,Finset.prod_eq_zero_iff]
  refine exists_congr fun p => and_congr_right fun _ => ?_
  rw [sub_eq_zero,eq_comm]

/-- A polynomial with constant term 1 and as many roots as its degree allows is a locator. -/
theorem eq_locator {f : K[X]} (hx : ∀ p ∈ P, x p ≠ 0) (hinj : Set.InjOn x P) (h0 : f.coeff 0 = 1)
    (hdeg : f.natDegree ≤ P.card) (hroot : ∀ p ∈ P, f.eval (x p)⁻¹ = 0) : f = locator P x := by
  have hX : X ∣ f - locator P x := by
    rw [Polynomial.X_dvd_iff,Polynomial.coeff_sub,h0,coeff_locator_zero,sub_self]
  obtain ⟨h,hh⟩ := hX
  have hzero : h = 0 := by
    by_contra hne
    apply hne
    refine Polynomial.eq_zero_of_degree_lt_of_eval_index_eq_zero P (v := fun p => (x p)⁻¹) ?_ ?_ ?_
    · intro p hp q hq heq
      exact hinj hp hq (inv_injective heq)
    · have hle : (X * h).natDegree ≤ P.card := by
        rw [← hh]
        exact (Polynomial.natDegree_sub_le _ _).trans (max_le hdeg (natDegree_locator hx).le)
      rw [Polynomial.natDegree_X_mul hne] at hle
      exact (Polynomial.degree_lt_iff_coeff_zero _ _).2 fun m hm =>
        Polynomial.coeff_eq_zero_of_natDegree_lt (by omega)
    · intro p hp
      have hev := congrArg (Polynomial.eval (x p)⁻¹) hh
      have hl : (locator P x).eval (x p)⁻¹ = 0 :=
        (eval_locator_eq_zero_iff _).2 ⟨p,hp,mul_inv_cancel₀ (hx p hp)⟩
      rw [Polynomial.eval_sub,hroot p hp,hl,sub_zero,Polynomial.eval_mul,Polynomial.eval_X] at hev
      exact (mul_eq_zero.1 hev.symm).resolve_left (inv_ne_zero (hx p hp))
  rw [hzero,mul_zero,sub_eq_zero] at hh
  exact hh

variable [DecidableEq ι]

theorem locator_eq_mul_erase {p : ι} (hp : p ∈ P) :
    locator P x = (1 - C (x p) * X) * locator (P.erase p) x :=
  (Finset.mul_prod_erase P _ hp).symm

theorem locator_eq_mul_sdiff {E : Finset ι} (h : E ⊆ P) : locator P x = locator E x * locator (P \ E) x := by
  rw [mul_comm]
  exact (Finset.prod_sdiff h).symm

/-- At the inverse of its own point the rest of the locator does not vanish. -/
theorem eval_erase_ne_zero (hx : ∀ p ∈ P, x p ≠ 0) (hinj : Set.InjOn x P) {p : ι} (hp : p ∈ P) :
    (locator (P.erase p) x).eval (x p)⁻¹ ≠ 0 := by
  rw [Ne,eval_locator_eq_zero_iff]
  rintro ⟨q,hq,heq⟩
  rw [Finset.mem_erase] at hq
  apply hq.1
  apply hinj hq.2 hp
  have h := mul_eq_one_iff_eq_inv₀ (inv_ne_zero (hx p hp)) |>.1 heq
  rwa [inv_inv] at h

/-- The formal derivative at an inverse point. -/
theorem eval_derivative_locator (hx : ∀ p ∈ P, x p ≠ 0) {p : ι} (hp : p ∈ P) :
    (derivative (locator P x)).eval (x p)⁻¹ = -x p * (locator (P.erase p) x).eval (x p)⁻¹ := by
  have hroot : x p * (x p)⁻¹ = 1 := mul_inv_cancel₀ (hx p hp)
  rw [locator_eq_mul_erase hp,Polynomial.derivative_mul]
  simp [hroot]

end Locator

section Evaluator
variable [DecidableEq ι] {P : Finset ι} {x y : ι → K}

/-- Locator times power sums. -/
noncomputable def evaluator (P : Finset ι) (x y : ι → K) : K[X] :=
  ∑ p ∈ P, C (y p) * locator (P.erase p) x

private theorem geometric (a : K) :
    ((1 - C a * X : K[X]) : PowerSeries K) * PowerSeries.mk (fun i => a ^ i) = 1 := by
  ext n
  rw [Polynomial.coe_sub,Polynomial.coe_mul,Polynomial.coe_one,Polynomial.coe_C,Polynomial.coe_X,
    sub_mul,one_mul,mul_assoc,map_sub,PowerSeries.coeff_C_mul]
  cases n with
  | zero => simp
  | succ n =>
    rw [PowerSeries.coeff_succ_X_mul]
    simp [PowerSeries.coeff_one,pow_succ']

theorem residual_powerSums (j : ℕ) :
    residual (powerSums P x y) (locator P x) j = (evaluator P x y).coeff j := by
  have hsum : powerSums P x y = ∑ p ∈ P, PowerSeries.C (y p) * PowerSeries.mk (fun i => x p ^ i) := by
    ext n
    simp [powerSums]
  have hprod : ((locator P x : K[X]) : PowerSeries K) * powerSums P x y = (evaluator P x y : K[X]) := by
    rw [hsum,Finset.mul_sum]
    change _ = Polynomial.coeToPowerSeries.ringHom (evaluator P x y)
    rw [evaluator,map_sum]
    apply Finset.sum_congr rfl
    intro p hp
    rw [Polynomial.coeToPowerSeries.ringHom_apply,locator_eq_mul_erase hp,Polynomial.coe_mul,
      Polynomial.coe_mul,Polynomial.coe_C]
    have hgeo := geometric (x p)
    linear_combination (PowerSeries.C (y p) * (locator (P.erase p) x : PowerSeries K)) * hgeo
  rw [residual,hprod,Polynomial.coeff_coe]

theorem degree_evaluator_lt (hx : ∀ p ∈ P, x p ≠ 0) : (evaluator P x y).degree < P.card := by
  rw [Polynomial.degree_lt_iff_coeff_zero]
  intro m hm
  rw [evaluator,Polynomial.finsetSum_coeff]
  apply Finset.sum_eq_zero
  intro p hp
  have hdeg : (locator (P.erase p) x).natDegree = P.card - 1 := by
    rw [natDegree_locator fun q hq => hx q (Finset.mem_of_mem_erase hq),Finset.card_erase_of_mem hp]
  have hpos := Finset.card_pos.2 ⟨p,hp⟩
  rw [Polynomial.coeff_C_mul,Polynomial.coeff_eq_zero_of_natDegree_lt (by omega),mul_zero]

theorem eval_evaluator (hx : ∀ p ∈ P, x p ≠ 0) {p : ι} (hp : p ∈ P) :
    (evaluator P x y).eval (x p)⁻¹ = y p * (locator (P.erase p) x).eval (x p)⁻¹ := by
  rw [evaluator,Polynomial.eval_finsetSum,Finset.sum_eq_single p]
  · simp
  · intro q hq hne
    have hroot : (locator (P.erase q) x).eval (x p)⁻¹ = 0 :=
      (eval_locator_eq_zero_iff _).2 ⟨p,Finset.mem_erase.2 ⟨hne.symm,hp⟩,mul_inv_cancel₀ (hx p hp)⟩
    simp [hroot]
  · intro h
    exact absurd hp h

end Evaluator

section Recovery
variable [DecidableEq ι] {P : Finset ι} {x y : ι → K} {N : ℕ}

/-- Too few points for their power sums to cancel. -/
theorem eq_zero_of_powerSums (hx : ∀ p ∈ P, x p ≠ 0) (hinj : Set.InjOn x P) (hN : P.card ≤ N)
    (h : ∀ i < N, ∑ p ∈ P, y p * x p ^ i = 0) : ∀ p ∈ P, y p = 0 := by
  have hzero : evaluator P x y = 0 := by
    ext j
    rw [Polynomial.coeff_zero]
    by_cases hj : j < N
    · rw [← residual_powerSums,residual_eq_sum]
      apply Finset.sum_eq_zero
      intro i _
      rw [powerSums,PowerSeries.coeff_mk,h _ (by omega),mul_zero]
    · exact (Polynomial.degree_lt_iff_coeff_zero _ _).1 (degree_evaluator_lt hx) j (by omega)
  intro p hp
  have hev := eval_evaluator (y := y) hx hp
  rw [hzero,Polynomial.eval_zero] at hev
  exact (mul_eq_zero.1 hev.symm).resolve_right (eval_erase_ne_zero hx hinj hp)

/-- A polynomial with constant term 1 cannot cancel a series below its first coefficient. -/
theorem coeff_eq_zero_of_residual {D : PowerSeries K} {Λ : K[X]} (h0 : Λ.coeff 0 = 1)
    (h : ∀ j < N, residual D Λ j = 0) : ∀ j < N, PowerSeries.coeff j D = 0 := by
  intro j
  induction j using Nat.strong_induction_on with
  | _ j ih =>
    intro hj
    have hsum := h j hj
    rw [residual_eq_sum,Finset.sum_range_succ',h0,one_mul,Nat.sub_zero] at hsum
    have htail : ∑ i ∈ Finset.range j, Λ.coeff (i + 1) * PowerSeries.coeff (j - (i + 1)) D = 0 := by
      apply Finset.sum_eq_zero
      intro i hi
      rw [Finset.mem_range] at hi
      rw [ih (j - (i + 1)) (by omega) (by omega),mul_zero]
    rwa [htail,zero_add] at hsum

/-- The values read off the evaluator of a register that is a locator explain every symbol. -/
theorem powerSums_of_evaluator {S : PowerSeries K} {ω : K[X]} (hx : ∀ p ∈ P, x p ≠ 0)
    (hinj : Set.InjOn x P) (hg : Generates S (locator P x) P.card N)
    (hω : ω.degree < P.card) (hcoeff : ∀ j < P.card, ω.coeff j = residual S (locator P x) j)
    (hy : ∀ p ∈ P, ω.eval (x p)⁻¹ = y p * (locator (P.erase p) x).eval (x p)⁻¹) :
    ∀ i < N, PowerSeries.coeff i S = ∑ p ∈ P, y p * x p ^ i := by
  have heq : ω = evaluator P x y := by
    refine Polynomial.eq_of_degrees_lt_of_eval_index_eq P (v := fun p => (x p)⁻¹) ?_ hω
      (degree_evaluator_lt hx) ?_
    · intro p hp q hq hpq
      exact hinj hp hq (inv_injective hpq)
    · intro p hp
      rw [hy p hp,eval_evaluator hx hp]
  have hres : ∀ j < N, residual S (locator P x) j = residual (powerSums P x y) (locator P x) j := by
    intro j hj
    rw [residual_powerSums,← heq]
    by_cases hlt : j < P.card
    · rw [hcoeff j hlt]
    · rw [hg.predicts j (by omega) hj]
      exact ((Polynomial.degree_lt_iff_coeff_zero _ _).1 hω j (by omega)).symm
  have hdiff : ∀ j < N, residual (S - powerSums P x y) (locator P x) j = 0 := by
    intro j hj
    have hsub := hres j hj
    unfold residual at hsub ⊢
    rw [mul_sub,map_sub,hsub,sub_self]
  intro i hi
  have hzero := coeff_eq_zero_of_residual (coeff_locator_zero P x) hdiff i hi
  rw [map_sub,sub_eq_zero,powerSums,PowerSeries.coeff_mk] at hzero
  exact hzero

end Recovery

section Uniqueness
variable [DecidableEq ι] {P E : Finset ι} {x y : ι → K} {N L : ℕ}

/-- The locator predicts every symbol past its own length. -/
theorem generates_locator (hx : ∀ p ∈ P, x p ≠ 0) (y : ι → K) (N : ℕ) :
    Generates (powerSums P x y) (locator P x) P.card N := by
  refine ⟨(natDegree_locator hx).le,fun j hj _ => ?_⟩
  rw [residual_powerSums]
  exact (Polynomial.degree_lt_iff_coeff_zero _ _).1 (degree_evaluator_lt hx) j hj

private theorem coeff_mul_eq_zero {f g : K[X]} {a b j : ℕ} (hf : f.natDegree ≤ a)
    (hg : ∀ k, b ≤ k → g.coeff k = 0) (hj : a + b ≤ j) : (f * g).coeff j = 0 := by
  rw [Polynomial.coeff_mul]
  apply Finset.sum_eq_zero
  rintro ⟨i,k⟩ hik
  rw [Finset.HasAntidiagonal.mem_antidiagonal] at hik
  simp only at hik
  by_cases hi : a < i
  · rw [Polynomial.coeff_eq_zero_of_natDegree_lt (lt_of_le_of_lt hf hi),zero_mul]
  · rw [hg k (by omega),mul_zero]

/-- The coefficients of a product below `N` need only the coefficients below `N`. -/
private theorem coeff_mul_trunc (f : K[X]) (F : PowerSeries K) {j N : ℕ} (hj : j < N) :
    (f * PowerSeries.trunc N F).coeff j = PowerSeries.coeff j ((f : PowerSeries K) * F) := by
  rw [Polynomial.coeff_mul,PowerSeries.coeff_mul]
  apply Finset.sum_congr rfl
  rintro ⟨i,k⟩ hik
  rw [Finset.HasAntidiagonal.mem_antidiagonal] at hik
  simp only at hik
  rw [PowerSeries.coeff_trunc,if_pos (by omega),Polynomial.coeff_coe]

private theorem residual_mul (S : PowerSeries K) (p q : K[X]) (j : ℕ) :
    residual S (p * q) j = PowerSeries.coeff j ((p : PowerSeries K) * ((q : PowerSeries K) * S)) := by
  rw [residual,Polynomial.coe_mul,mul_assoc]

/-- Within the decoding radius the shortest register is the locator of the pattern. -/
theorem eq_locator_of_generates {Λ : K[X]} (hx : ∀ p ∈ P, x p ≠ 0) (hinj : Set.InjOn x P) (hE : E ⊆ P)
    (hy : ∀ p ∈ P \ E, y p ≠ 0) (hradius : 2 * P.card ≤ N + E.card)
    (h0 : Λ.coeff 0 = 1) (hdvd : locator E x ∣ Λ) (hg : Generates (powerSums P x y) Λ L N)
    (hL : L ≤ P.card) : Λ = locator P x := by
  have hxE : ∀ p ∈ E, x p ≠ 0 := fun p hp => hx p (hE hp)
  have hxD : ∀ p ∈ P \ E, x p ≠ 0 := fun p hp => hx p (Finset.mem_sdiff.1 hp).1
  have hcard : (P \ E).card = P.card - E.card := Finset.card_sdiff_of_subset hE
  have hEP := Finset.card_le_card hE
  obtain ⟨Λ',hΛ⟩ := hdvd
  have hΓ0 : locator E x ≠ 0 := by
    intro hzero
    have h1 := coeff_locator_zero E x
    simp [hzero] at h1
  have hdeg := natDegree_cofactor (natDegree_locator hxE) hΓ0 hΛ (by simp [h0]) hg.degree_le
  let ω := PowerSeries.trunc N ((Λ : PowerSeries K) * powerSums P x y)
  have hω : ∀ k, L ≤ k → ω.coeff k = 0 := by
    intro k hk
    rw [PowerSeries.coeff_trunc]
    split
    · exact hg.predicts k hk (by assumption)
    · rfl
  have hev : ∀ k, P.card ≤ k → (evaluator P x y).coeff k = 0 :=
    (Polynomial.degree_lt_iff_coeff_zero _ _).1 (degree_evaluator_lt hx)
  have hcomm : Λ' * locator P x = locator (P \ E) x * Λ := by
    rw [hΛ,locator_eq_mul_sdiff hE]
    ring
  have hkey : Λ' * evaluator P x y = locator (P \ E) x * ω := by
    ext j
    by_cases hj : j < N
    · have htrunc : PowerSeries.trunc N ((locator P x : PowerSeries K) * powerSums P x y) =
          PowerSeries.trunc N (evaluator P x y : PowerSeries K) := by
        ext k
        rw [PowerSeries.coeff_trunc,PowerSeries.coeff_trunc,Polynomial.coeff_coe,← residual_powerSums]
        rfl
      have hleft : (Λ' * evaluator P x y).coeff j =
          residual (powerSums P x y) (Λ' * locator P x) j := by
        rw [residual_mul,← coeff_mul_trunc _ _ hj,htrunc,coeff_mul_trunc _ _ hj,← Polynomial.coe_mul,
          Polynomial.coeff_coe]
      rw [hleft,hcomm,residual_mul,← coeff_mul_trunc _ _ hj]
    · rw [coeff_mul_eq_zero (a := L - E.card) (by omega) hev (by omega),
        coeff_mul_eq_zero (natDegree_locator hxD).le hω (by omega)]
  have hroots : ∀ p ∈ P \ E, Λ'.eval (x p)⁻¹ = 0 := by
    intro p hp
    have hpP := (Finset.mem_sdiff.1 hp).1
    have hzero : (locator (P \ E) x).eval (x p)⁻¹ = 0 :=
      (eval_locator_eq_zero_iff _).2 ⟨p,hp,mul_inv_cancel₀ (hx p hpP)⟩
    have heval := congrArg (Polynomial.eval (x p)⁻¹) hkey
    rw [Polynomial.eval_mul,Polynomial.eval_mul,hzero,zero_mul,eval_evaluator hx hpP] at heval
    refine (mul_eq_zero.1 heval).resolve_right ?_
    exact mul_ne_zero (hy p hp) (eval_erase_ne_zero hx hinj hpP)
  have hconst : Λ'.coeff 0 = 1 := by
    rw [hΛ,Polynomial.mul_coeff_zero,coeff_locator_zero,one_mul] at h0
    exact h0
  have hcof := eq_locator hxD (hinj.mono (by simp)) hconst (by omega) hroots
  rw [hΛ,hcof,← locator_eq_mul_sdiff hE]

end Uniqueness

end MfskCore.Library
