import Mathlib.Data.Nat.Bitwise
import Mathlib.Data.List.Basic

/-! Sums of numbers under exclusive or, and a test that no choice of some numbers adds up to zero: the leading bit of
each is cleared in those behind it. -/
namespace MfskCore.Library

/-- The sum of the chosen numbers. -/
def xorSum : List Bool → List Nat → Nat
  | b :: u, x :: xs => (bif b then x else 0) ^^^ xorSum u xs
  | _, _ => 0

/-- A number with a bit cleared by another that has it. -/
def clearedBy (x k y : Nat) : Nat := bif y.testBit k then y ^^^ x else y

/-- None of so many numbers vanishes under the elimination. -/
def independent : Nat → List Nat → Bool
  | _, [] => true
  | 0, _ :: _ => false
  | n + 1, x :: xs => x != 0 && independent n (xs.map (clearedBy x x.log2))

section Sums

@[simp] theorem xorSum_nil_left (xs : List Nat) : xorSum [] xs = 0 := rfl

@[simp] theorem xorSum_nil_right (u : List Bool) : xorSum u [] = 0 := by cases u <;> rfl

theorem xorSum_cons (b : Bool) (u : List Bool) (x : Nat) (xs : List Nat) :
    xorSum (b :: u) (x :: xs) = (bif b then x else 0) ^^^ xorSum u xs := rfl

theorem xorSum_eq_zero {u : List Bool} (h : true ∉ u) (xs : List Nat) : xorSum u xs = 0 := by
  induction u generalizing xs with
  | nil => rfl
  | cons b u ih =>
    cases xs with
    | nil => rfl
    | cons x xs =>
      rw [List.mem_cons,not_or] at h
      obtain ⟨hb,hu⟩ := h
      obtain rfl : b = false := Bool.eq_false_iff.2 (Ne.symm hb)
      rw [xorSum_cons,ih hu,cond_false,Nat.xor_self]

theorem xorSum_lt {n : Nat} {xs : List Nat} (h : ∀ x ∈ xs, x < 2^n) (u : List Bool) : xorSum u xs < 2^n := by
  induction xs generalizing u with
  | nil => exact xorSum_nil_right u ▸ Nat.two_pow_pos n
  | cons x xs ih =>
    obtain ⟨hx,hxs⟩ := List.forall_mem_cons.1 h
    cases u with
    | nil => exact Nat.two_pow_pos n
    | cons b u =>
      refine Nat.xor_lt_two_pow ?_ (ih hxs u)
      cases b with
      | false => exact Nat.two_pow_pos n
      | true => exact hx

theorem xorSum_shiftRight (u : List Bool) (xs : List Nat) (q : Nat) :
    xorSum u (xs.map (· >>> q)) = xorSum u xs >>> q := by
  induction xs generalizing u with
  | nil => rw [List.map_nil,xorSum_nil_right,Nat.zero_shiftRight]
  | cons x xs ih =>
    cases u with
    | nil => exact (Nat.zero_shiftRight q).symm
    | cons b u =>
      rw [List.map_cons,xorSum_cons,xorSum_cons,ih,Nat.shiftRight_xor_distrib]
      cases b with
      | false => rw [cond_false,cond_false,Nat.zero_shiftRight]
      | true => rfl

end Sums

section Elimination
variable {x k : Nat}

/-- Clearing adds the number that leads, or nothing. -/
theorem xorSum_cleared (u : List Bool) (xs : List Nat) (x k : Nat) :
    ∃ c, xorSum u (xs.map (clearedBy x k)) = xorSum u xs ^^^ bif c then x else 0 := by
  induction xs generalizing u with
  | nil => exact ⟨false,by rw [List.map_nil,xorSum_nil_right,cond_false,Nat.xor_self]⟩
  | cons y xs ih =>
    cases u with
    | nil => exact ⟨false,by rw [xorSum_nil_left,xorSum_nil_left,cond_false,Nat.xor_self]⟩
    | cons b u =>
      obtain ⟨c,hc⟩ := ih u
      rw [List.map_cons,xorSum_cons,xorSum_cons,hc]
      cases b with
      | false => exact ⟨c,by rw [cond_false,cond_false,Nat.zero_xor,Nat.zero_xor]⟩
      | true =>
        rw [cond_true,cond_true,clearedBy]
        cases y.testBit k with
        | false => exact ⟨c,(Nat.xor_assoc _ _ _).symm⟩
        | true =>
          refine ⟨!c,?_⟩
          have hflip : (x ^^^ bif c then x else 0) = bif !c then x else 0 := by
            cases c with
            | false => exact Nat.xor_zero x
            | true => exact Nat.xor_self x
          rw [cond_true,← hflip]
          ac_rfl

theorem testBit_cleared (hx : x.testBit k = true) (u : List Bool) (xs : List Nat) :
    (xorSum u (xs.map (clearedBy x k))).testBit k = false := by
  induction xs generalizing u with
  | nil => rw [List.map_nil,xorSum_nil_right,Nat.zero_testBit]
  | cons y xs ih =>
    cases u with
    | nil => exact Nat.zero_testBit k
    | cons b u =>
      have hy : (clearedBy x k y).testBit k = false := by
        rw [clearedBy]
        cases hset : y.testBit k with
        | false => exact hset
        | true => rw [cond_true,Nat.testBit_xor,hset,hx,Bool.xor_self]
      rw [List.map_cons,xorSum_cons,Nat.testBit_xor,ih,Bool.xor_false]
      cases b with
      | false => exact Nat.zero_testBit k
      | true => exact hy

/-- No choice of independent numbers adds up to zero. -/
theorem xorSum_ne_zero {n : Nat} {xs : List Nat} (h : independent n xs = true) {u : List Bool}
    (hlen : u.length = xs.length) (hu : true ∈ u) : xorSum u xs ≠ 0 := by
  induction n generalizing xs u with
  | zero =>
    cases xs with
    | nil => exact absurd (List.eq_nil_of_length_eq_zero hlen ▸ hu) List.not_mem_nil
    | cons x xs => exact absurd h Bool.false_ne_true
  | succ n ih =>
    cases xs with
    | nil => exact absurd (List.eq_nil_of_length_eq_zero hlen ▸ hu) List.not_mem_nil
    | cons x xs =>
      cases u with
      | nil => exact absurd hu List.not_mem_nil
      | cons b u =>
        rw [independent,Bool.and_eq_true,bne_iff_ne] at h
        obtain ⟨hx,hrest⟩ := h
        have hlead : x.testBit x.log2 = true := Nat.testBit_log2 hx
        intro hzero
        rw [xorSum_cons,Nat.xor_eq_zero_iff] at hzero
        -- The others add up to the number that leads or to nothing, and without its leading bit to nothing.
        obtain ⟨c,hc⟩ := xorSum_cleared u xs x x.log2
        have hcleared := testBit_cleared hlead u xs
        rw [hc,← hzero,Nat.testBit_xor] at hcleared
        obtain rfl : b = c := by
          cases b <;> cases c
          · rfl
          · rw [cond_false,cond_true,Nat.zero_testBit,hlead] at hcleared
            exact absurd hcleared (by decide)
          · rw [cond_false,cond_true,Nat.zero_testBit,hlead] at hcleared
            exact absurd hcleared (by decide)
          · rfl
        rw [← hzero,Nat.xor_self] at hc
        by_cases hchosen : true ∈ u
        · exact ih hrest (by rw [List.length_map]; exact Nat.succ.inj hlen) hchosen hc
        · obtain rfl : true = b := (List.mem_cons.1 hu).resolve_right hchosen
          rw [cond_true,xorSum_eq_zero hchosen] at hzero
          exact hx hzero

end Elimination

end MfskCore.Library
