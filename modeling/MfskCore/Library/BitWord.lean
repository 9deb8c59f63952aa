import MfskCore.Library.Positional
import Mathlib.Data.Nat.Bitwise
import Mathlib.Tactic.Ring

/-! The number a run of bits writes, the first bit leading, and its digits in a base that is a power of two. -/
namespace MfskCore.Library
variable {b : Nat → Nat}

def wordValue (b : Nat → Nat) (start len : Nat) : Nat := (List.range' start len).foldl (fun n i => 2 * n + b i) 0

@[simp] theorem wordValue_zero (b : Nat → Nat) (start : Nat) : wordValue b start 0 = 0 := rfl

theorem wordValue_succ (b : Nat → Nat) (start len : Nat) :
    wordValue b start (len + 1) = 2 * wordValue b start len + b (start + len) := by
  rw [wordValue,List.range'_concat,List.foldl_append,Nat.one_mul]
  rfl

/-- A run in two parts. -/
theorem wordValue_add (b : Nat → Nat) (start m n : Nat) :
    wordValue b start (m + n) = wordValue b start m * 2^n + wordValue b (start + m) n := by
  induction n with
  | zero => rw [Nat.add_zero,wordValue_zero,Nat.pow_zero,Nat.mul_one,Nat.add_zero]
  | succ n ih =>
    rw [← Nat.add_assoc,wordValue_succ,ih,wordValue_succ,Nat.pow_succ,Nat.add_assoc start]
    ring

theorem wordValue_lt (hb : ∀ i, b i < 2) (start len : Nat) : wordValue b start len < 2^len := by
  induction len with
  | zero => exact Nat.one_pos
  | succ len ih =>
    have hbit := hb (start + len)
    rw [wordValue_succ,Nat.pow_succ]
    omega

/-- The bits of the number are those of the run. -/
theorem testBit_wordValue (hb : ∀ i, b i < 2) (start : Nat) {len i : Nat} (hi : i < len) :
    (wordValue b start len).testBit (len - 1 - i) = decide (b (start + i) = 1) := by
  have hsplit : len = i + 1 + (len - 1 - i) := by omega
  have hlow := wordValue_lt hb (start + (i + 1)) (len - 1 - i)
  have hbit := hb (start + i)
  conv_lhs => rw [hsplit,wordValue_add,wordValue_succ]
  have hplace : i + 1 + (len - 1 - i) - 1 - i = len - 1 - i := by omega
  rw [hplace,Nat.testBit_eq_decide_div_mod_eq,Nat.mul_comm,Nat.mul_add_div (Nat.two_pow_pos _),Nat.div_eq_of_lt hlow,
    Nat.add_zero]
  refine decide_eq_decide.2 ?_
  omega

/-- The digits of the number in base `2^w` are the numbers of the parts of the run. -/
theorem wordValue_digit (hb : ∀ i, b i < 2) (start w : Nat) {m s : Nat} (hs : s < m) :
    wordValue b start (m * w) / (2^w)^(m - 1 - s) % 2^w = wordValue b (start + s * w) w := by
  have hsplit : m * w = s * w + w + (m - 1 - s) * w := by
    have hm : m = s + 1 + (m - 1 - s) := by omega
    conv_lhs => rw [hm,Nat.add_mul,Nat.add_mul,Nat.one_mul]
  have hlow := wordValue_lt hb (start + (s * w + w)) ((m - 1 - s) * w)
  rw [hsplit,wordValue_add,← Nat.pow_mul,Nat.mul_comm w,Nat.mul_comm (wordValue b start (s * w + w)),
    Nat.mul_add_div (Nat.two_pow_pos _),Nat.div_eq_of_lt hlow,Nat.add_zero,wordValue_add,Nat.mul_comm _ (2^w),
    Nat.mul_add_mod,Nat.mod_eq_of_lt (wordValue_lt hb _ _)]

/-- Digits in a base write one number only. -/
theorem eq_of_digits {n m : Nat} {x y : Nat} (hx : x < n^m) (hy : y < n^m)
    (h : ∀ s < m, x / n^(m - 1 - s) % n = y / n^(m - 1 - s) % n) : x = y := by
  induction m generalizing x y with
  | zero =>
    rw [Nat.pow_zero] at hx hy
    omega
  | succ m ih =>
    have hlast := h m (Nat.lt_succ_self m)
    rw [Nat.add_sub_cancel,Nat.sub_self,Nat.pow_zero,Nat.div_one,Nat.div_one] at hlast
    rw [Nat.pow_succ,Nat.mul_comm] at hx hy
    have hhead : x / n = y / n := by
      refine ih (Nat.div_lt_of_lt_mul hx) (Nat.div_lt_of_lt_mul hy) fun s hs => ?_
      have hdigit := h s (Nat.lt_succ_of_lt hs)
      have hplace : m + 1 - 1 - s = 1 + (m - 1 - s) := by omega
      rwa [hplace,Nat.pow_add,Nat.pow_one,← Nat.div_div_eq_div_mul,← Nat.div_div_eq_div_mul] at hdigit
    rw [← Nat.div_add_mod x n,← Nat.div_add_mod y n,hhead,hlast]

end MfskCore.Library
