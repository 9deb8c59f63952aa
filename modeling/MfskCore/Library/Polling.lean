import Mathlib.Data.List.Basic

/-! Work that is asked about before every item, and given up at the first no. -/
namespace MfskCore.Library
section Polling
variable {α : Type*} (check : Nat → Bool)

/-- The items done and the items left. The question before the first item has number `n`. -/
def polled : Nat → List α → List α × List α
  | _, [] => ([],[])
  | n, a :: rest =>
    if check n then (a :: (polled (n + 1) rest).1,(polled (n + 1) rest).2) else ([],a :: rest)

theorem polled_append (n : Nat) (work : List α) : (polled check n work).1 ++ (polled check n work).2 = work := by
  induction work generalizing n with
  | nil => rfl
  | cons a rest ih =>
    rw [polled]
    split
    · exact congrArg (a :: ·) (ih (n + 1))
    · rfl

theorem length_polled (n : Nat) (work : List α) :
    (polled check n work).1.length + (polled check n work).2.length = work.length := by
  rw [← List.length_append,polled_append]

/-- Nothing is left exactly when every question is answered with yes. -/
theorem polled_left_eq_nil (n : Nat) (work : List α) :
    (polled check n work).2 = [] ↔ ∀ i < work.length, check (n + i) = true := by
  induction work generalizing n with
  | nil => simp [polled]
  | cons a rest ih =>
    have hshift : (∀ i < (a :: rest).length, check (n + i) = true) ↔
        check n = true ∧ ∀ i < rest.length, check (n + 1 + i) = true := by
      rw [List.length_cons,Nat.forall_lt_succ_left]
      simp only [Nat.add_zero,Nat.add_assoc,Nat.add_comm 1]
    rw [hshift,polled]
    split
    case isTrue hyes => exact (ih (n + 1)).trans (and_iff_right hyes).symm
    case isFalse hno => exact iff_of_false (List.cons_ne_nil a rest) fun h => hno h.1

theorem polled_always (n : Nat) (work : List α) : polled (fun _ => true) n work = (work,[]) := by
  have hleft := (polled_left_eq_nil (fun _ => true) n work).2 fun _ _ => rfl
  have happend := polled_append (fun _ => true) n work
  rw [hleft,List.append_nil] at happend
  exact Prod.ext happend hleft

end Polling

end MfskCore.Library
