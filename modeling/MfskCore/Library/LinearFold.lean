import Mathlib.Logic.Function.Iterate
import Mathlib.Data.List.Basic

/-! A register fed one symbol at a time, additive in its state: a change of one symbol moves the final
state by an amount that depends on the place of the symbol alone. -/
namespace MfskCore.Library
variable {σ β : Type*} {op : σ → σ → σ} {step : σ → β → σ} {shift : σ → σ}

/-- A difference of states is shifted along. -/
theorem foldl_op (hshift : ∀ s d b, step (op s d) b = op (step s b) (shift d)) (l : List β) (s d : σ) :
    l.foldl step (op s d) = op (l.foldl step s) (shift^[l.length] d) := by
  induction l generalizing s d with
  | nil => rfl
  | cons b l ih =>
    rw [List.foldl_cons,List.foldl_cons,hshift,ih,List.length_cons,Function.iterate_succ_apply]

/-- A change of one symbol that adds `w` to the state. -/
theorem foldl_modify (hshift : ∀ s d b, step (op s d) b = op (step s b) (shift d)) {f : β → β} {w : σ}
    (hf : ∀ s b, step s (f b) = op (step s b) w) (l : List β) {i : Nat} (hi : i < l.length) (s : σ) :
    (l.modify i f).foldl step s = op (l.foldl step s) (shift^[l.length - 1 - i] w) := by
  induction l generalizing i s with
  | nil => exact absurd hi (Nat.not_lt_zero i)
  | cons b l ih =>
    cases i with
    | zero =>
      rw [List.modify_zero_cons,List.foldl_cons,hf,foldl_op hshift,List.foldl_cons]
      rfl
    | succ i =>
      rw [List.modify_succ_cons,List.foldl_cons,ih (Nat.lt_of_succ_lt_succ hi),List.foldl_cons,List.length_cons,
        Nat.add_sub_cancel,Nat.sub_sub,Nat.add_comm 1 i]

end MfskCore.Library
