import Mathlib.Data.List.Basic

/-! Counting where a word differs from decisions, when there are two sets of decisions. -/
namespace MfskCore.Library
variable {ι : Type*}

private theorem countP_bne_add (l : List ι) (c x y : ι → Bool) :
    (l.countP fun i => c i != x i) + (l.filter fun i => x i != y i).countP (fun i => c i == x i) =
      (l.countP fun i => c i != y i) + (l.filter fun i => x i != y i).countP (fun i => c i != x i) := by
  induction l with
  | nil => rfl
  | cons i l ih =>
    cases hc : c i <;> cases hx : x i <;> cases hy : y i <;> simp [hc,hx,hy] <;> omega

/-- The two counts agree exactly when the word sides with the first decisions at half of the places where
the decisions differ. -/
theorem countP_bne_eq_iff (l : List ι) (c x y : ι → Bool) :
    (l.countP fun i => c i != y i) = (l.countP fun i => c i != x i) ↔
      2 * (l.filter fun i => x i != y i).countP (fun i => c i == x i) = (l.filter fun i => x i != y i).length := by
  have hcount := countP_bne_add l c x y
  have hlength := List.length_eq_countP_add_countP (fun i => c i == x i) (l := l.filter fun i => x i != y i)
  have hnot : (l.filter fun i => x i != y i).countP (fun i => ¬(c i == x i) = true) =
      (l.filter fun i => x i != y i).countP fun i => c i != x i :=
    List.countP_congr fun i _ => by simp
  omega

end MfskCore.Library
