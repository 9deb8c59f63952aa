import Mathlib.Algebra.BigOperators.Group.Finset.Basic
import Mathlib.Algebra.BigOperators.Intervals

/-! Loops that add up or multiply, as sums and products over a range. -/
namespace MfskCore.Library
open Finset

section Add
variable {M : Type*} [AddCommMonoid M] (f : Nat → M)

theorem foldl_add_range (n : Nat) (a : M) : (List.range n).foldl (fun x k => x + f k) a = a + ∑ k ∈ range n, f k := by
  induction n with
  | zero => rw [List.range_zero,List.foldl_nil,sum_range_zero,add_zero]
  | succ n ih => rw [List.range_succ,List.foldl_append,List.foldl_cons,List.foldl_nil,ih,sum_range_succ,add_assoc]

/-- Only the terms with a property are added. -/
theorem foldl_add_if_range (p : Nat → Prop) [DecidablePred p] (n : Nat) (a : M) :
    (List.range n).foldl (fun x k => if p k then x + f k else x) a = a + ∑ k ∈ range n, if p k then f k else 0 := by
  rw [← foldl_add_range]
  refine List.foldl_ext _ _ _ fun x k _ => ?_
  split
  · rfl
  · rw [add_zero]

end Add

/-- Only the factors with a property are multiplied. -/
theorem foldl_mul_if_range {M : Type*} [CommMonoid M] (f : Nat → M) (p : Nat → Prop) [DecidablePred p] (n : Nat) (a : M) :
    (List.range n).foldl (fun x k => if p k then x * f k else x) a = a * ∏ k ∈ range n, if p k then f k else 1 := by
  induction n with
  | zero => rw [List.range_zero,List.foldl_nil,prod_range_zero,mul_one]
  | succ n ih =>
    rw [List.range_succ,List.foldl_append,List.foldl_cons,List.foldl_nil,ih,prod_range_succ,← mul_assoc]
    split
    · rfl
    · rw [mul_one]

end MfskCore.Library
