import Mathlib.Algebra.Field.ZMod
import Mathlib.Algebra.BigOperators.Intervals

/-! Parity equations over the field of two elements. An equation is a natural number whose set bits
are the positions it sums; a combination of equations is the exclusive or of their numbers, chosen
by the bits of another one, so that a computation on numbers shows that one system implies another. -/
namespace MfskCore.Library
open Finset

/-- The sum of the values at the positions of the mask. -/
def maskSum (N m : Nat) (v : Nat → ZMod 2) : ZMod 2 := ∑ b ∈ range N,if m.testBit b then v b else 0

section Equation
variable {N : Nat} (v : Nat → ZMod 2)

theorem maskSum_zero : maskSum N 0 v = 0 := by
  simp [maskSum]

theorem maskSum_xor (m n : Nat) : maskSum N (m ^^^ n) v = maskSum N m v + maskSum N n v := by
  unfold maskSum
  rw [← sum_add_distrib]
  apply sum_congr rfl
  intro b _
  rw [Nat.testBit_xor]
  cases m.testBit b with
  | false => simp
  | true =>
    cases n.testBit b with
    | false => simp
    | true => simpa using (CharTwo.add_self_eq_zero (v b)).symm

theorem maskSum_two_pow {b : Nat} (hb : b < N) : maskSum N (2^b) v = v b := by
  unfold maskSum
  rw [sum_eq_single_of_mem b (mem_range.mpr hb)]
  · simp
  · intro i _ hi
    rw [Nat.testBit_two_pow_of_ne (Ne.symm hi),if_neg Bool.false_ne_true]

theorem maskSum_shiftLeft (K M m : Nat) :
    maskSum (M + K) (m <<< M) v = maskSum K m (fun b => v (M + b)) := by
  unfold maskSum
  rw [sum_range_add]
  have hlow : (∑ b ∈ range M,if (m <<< M).testBit b then v b else 0) = 0 := by
    apply sum_eq_zero
    intro b hb
    have hlt : ¬ M ≤ b := by
      have := mem_range.mp hb
      omega
    simp [Nat.testBit_shiftLeft,hlt]
  rw [hlow,zero_add]
  apply sum_congr rfl
  intro b _
  simp [Nat.testBit_shiftLeft]

end Equation

/-- The combination of the equations chosen by the bits of `sel`, the lowest bit for the first one. -/
def xorSelect : List Nat → Nat → Nat
  | [], _ => 0
  | r :: rows, sel => (sel % 2 * r) ^^^ xorSelect rows (sel / 2)

theorem maskSum_xorSelect {N : Nat} {v : Nat → ZMod 2} {rows : List Nat}
    (hrows : ∀ r ∈ rows, maskSum N r v = 0) (sel : Nat) : maskSum N (xorSelect rows sel) v = 0 := by
  induction rows generalizing sel with
  | nil => exact maskSum_zero v
  | cons r rows ih =>
    have hrest := ih (fun r hr => hrows r (List.mem_cons_of_mem _ hr)) (sel / 2)
    rw [xorSelect,maskSum_xor,hrest,add_zero]
    rcases Nat.mod_two_eq_zero_or_one sel with h | h
    · rw [h,Nat.zero_mul,maskSum_zero]
    · rw [h,Nat.one_mul,hrows r List.mem_cons_self]

/-- Equations that are combinations of others hold wherever the others do. -/
theorem maskSum_of_select {N : Nat} {v : Nat → ZMod 2} {rows targets sels : List Nat}
    (h : targets = sels.map (xorSelect rows)) (hrows : ∀ r ∈ rows, maskSum N r v = 0) :
    ∀ t ∈ targets, maskSum N t v = 0 := by
  intro t ht
  rw [h] at ht
  obtain ⟨sel,_,rfl⟩ := List.mem_map.mp ht
  exact maskSum_xorSelect hrows sel

end MfskCore.Library
