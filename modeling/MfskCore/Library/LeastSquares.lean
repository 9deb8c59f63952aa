import Mathlib.Analysis.Complex.Basic

/-! Least squares with a penalty on the weights: the solutions of the normal equations are the weights of least cost. -/
namespace MfskCore.Library
variable {κ ι : Type*} (samples : Finset κ) (taps : Finset ι) (x : κ → ι → ℂ) (d : κ → ℂ) (load : Real)

/-- The error of a sample. -/
noncomputable def residue (w : ι → ℂ) (k : κ) : ℂ := ∑ n ∈ taps, w n * x k n - d k

/-- The squared errors, and the penalty. -/
noncomputable def ridgeCost (w : ι → ℂ) : Real :=
  ∑ k ∈ samples, Complex.normSq (residue taps x d w k) + load * ∑ n ∈ taps, Complex.normSq (w n)

/-- The equations of the weights. -/
def NormalEquations (w : ι → ℂ) : Prop :=
  ∀ i ∈ taps, ∑ k ∈ samples, starRingEnd ℂ (x k i) * ∑ n ∈ taps, w n * x k n + load * w i =
    ∑ k ∈ samples, starRingEnd ℂ (x k i) * d k

variable {samples taps x d load}

/-- The error and the weights are orthogonal to every change of the weights. -/
theorem NormalEquations.orthogonal {w : ι → ℂ} (h : NormalEquations samples taps x d load w) (e : ι → ℂ) :
    ∑ k ∈ samples, starRingEnd ℂ (∑ n ∈ taps, e n * x k n) * residue taps x d w k +
      load * ∑ n ∈ taps, starRingEnd ℂ (e n) * w n = 0 := by
  have hsample : ∀ k, starRingEnd ℂ (∑ n ∈ taps, e n * x k n) * residue taps x d w k =
      ∑ i ∈ taps, starRingEnd ℂ (e i) * (starRingEnd ℂ (x k i) * residue taps x d w k) := by
    intro k
    rw [map_sum,Finset.sum_mul]
    refine Finset.sum_congr rfl fun i _ => ?_
    rw [map_mul,mul_assoc]
  have htap : ∀ i ∈ taps, starRingEnd ℂ (e i) * (∑ k ∈ samples, starRingEnd ℂ (x k i) * residue taps x d w k + load * w i) = 0 := by
    intro i hi
    have hzero : ∑ k ∈ samples, starRingEnd ℂ (x k i) * residue taps x d w k + load * w i = 0 := by
      simp only [residue,mul_sub,Finset.sum_sub_distrib]
      rw [← h i hi]
      ring
    rw [hzero,mul_zero]
  rw [Finset.sum_congr rfl fun k _ => hsample k,Finset.sum_comm,Finset.mul_sum,← Finset.sum_add_distrib]
  refine Finset.sum_eq_zero fun i hi => ?_
  rw [← Finset.mul_sum,← htap i hi]
  ring

/-- The cost of other weights is greater by the cost of the change. -/
theorem NormalEquations.ridgeCost_add {w : ι → ℂ} (h : NormalEquations samples taps x d load w) (e : ι → ℂ) :
    ridgeCost samples taps x d load (fun n => w n + e n) =
      ridgeCost samples taps x d load w + ridgeCost samples taps x 0 load e := by
  have hsplit : ∀ z u : ℂ, Complex.normSq (z + u) = Complex.normSq z + Complex.normSq u +
      2 * (starRingEnd ℂ u * z).re := by
    intro z u
    rw [Complex.normSq_add,mul_comm (starRingEnd ℂ u) z]
  have hresidue : ∀ k, residue taps x d (fun n => w n + e n) k = residue taps x d w k + residue taps x 0 e k := by
    intro k
    simp only [residue,add_mul,Finset.sum_add_distrib,Pi.zero_apply]
    ring
  have hcross := congrArg Complex.re (h.orthogonal e)
  rw [Complex.add_re,Complex.re_ofReal_mul,Complex.re_sum,Complex.re_sum,Complex.zero_re] at hcross
  have hplain : ∀ k, residue taps x 0 e k = ∑ n ∈ taps, e n * x k n := fun k => sub_zero _
  simp only [ridgeCost,hresidue,hsplit,Finset.sum_add_distrib,← Finset.mul_sum,hplain]
  linear_combination 2 * hcross

/-- No weights have a lower cost than those that solve the normal equations. -/
theorem NormalEquations.minimal {w : ι → ℂ} (h : NormalEquations samples taps x d load w) (hload : 0 ≤ load) (v : ι → ℂ) :
    ridgeCost samples taps x d load w ≤ ridgeCost samples taps x d load v := by
  have hcost : 0 ≤ ridgeCost samples taps x 0 load (fun n => v n - w n) :=
    add_nonneg (Finset.sum_nonneg fun k _ => Complex.normSq_nonneg _)
      (mul_nonneg hload (Finset.sum_nonneg fun n _ => Complex.normSq_nonneg _))
  have hsum := h.ridgeCost_add fun n => v n - w n
  simp only [add_sub_cancel] at hsum
  rw [hsum]
  exact le_add_of_nonneg_right hcost

end MfskCore.Library
