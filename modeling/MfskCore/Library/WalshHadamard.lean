import Mathlib.Algebra.BigOperators.Group.Finset.Basic
import Mathlib.Algebra.BigOperators.Intervals
import Mathlib.Algebra.BigOperators.Ring.Finset
import Mathlib.Data.Nat.Bitwise

/-! The Walsh-Hadamard transform over a commutative ring: its signs are characters of the exclusive or, it is its
own inverse up to a factor, and it turns convolution into the product. -/
namespace MfskCore.Library
open Finset

/-- The number of ones of a number. -/
def countOnes (m : Nat) : Nat := (List.range m).countP m.testBit

variable {R : Type*} [CommRing R]

/-- The sign of a number is the product of the signs of its bits. -/
theorem neg_one_pow_countOnes {m w : Nat} (hm : m < 2^w) :
    (-1 : R)^countOnes m = ∏ b ∈ range w, if m.testBit b then -1 else 1 := by
  have hbits : (range m).filter (fun b => m.testBit b) = (range w).filter fun b => m.testBit b := by
    ext b
    rw [mem_filter,mem_filter,mem_range,mem_range,and_congr_left_iff]
    intro hb
    have hle := Nat.ge_two_pow_of_testBit hb
    exact iff_of_true (Nat.lt_two_pow_self.trans_le hle) ((Nat.pow_lt_pow_iff_right (by decide)).1 (hle.trans_lt hm))
  have hcount : countOnes m = #((range m).filter fun b => m.testBit b) := by
    rw [countOnes,List.countP_eq_length_filter]
    change _ = (List.filter (fun b => decide (m.testBit b = true)) (List.range m)).length
    simp only [Bool.decide_eq_true]
  rw [hcount,hbits,prod_ite,prod_const,prod_const_one,mul_one]

/-- The entry of the Hadamard matrix. -/
def walshSign (R : Type*) [CommRing R] (i j : Nat) : R := (-1)^countOnes (i &&& j)

theorem walshSign_comm (i j : Nat) : walshSign R i j = walshSign R j i := by
  rw [walshSign,walshSign,Nat.and_comm]

theorem walshSign_eq_prod (i : Nat) {j w : Nat} (hj : j < 2^w) :
    walshSign R i j = ∏ b ∈ range w, if i.testBit b && j.testBit b then -1 else 1 := by
  rw [walshSign,neg_one_pow_countOnes (Nat.and_lt_two_pow i hj)]
  simp only [Nat.testBit_and]

/-- A sign is a character of the exclusive or. -/
theorem walshSign_xor (i j l : Nat) : walshSign R i (j ^^^ l) = walshSign R i j * walshSign R i l := by
  have hj : j < 2^(j + l) := Nat.lt_two_pow_self.trans_le (Nat.pow_le_pow_right (by decide) (Nat.le_add_right j l))
  have hl : l < 2^(j + l) := Nat.lt_two_pow_self.trans_le (Nat.pow_le_pow_right (by decide) (Nat.le_add_left l j))
  rw [walshSign_eq_prod i (Nat.xor_lt_two_pow hj hl),walshSign_eq_prod i hj,walshSign_eq_prod i hl,← prod_mul_distrib]
  refine prod_congr rfl fun b _ => ?_
  rw [Nat.testBit_xor]
  cases i.testBit b <;> cases j.testBit b <;> cases l.testBit b <;> simp

theorem walshSign_zero (i : Nat) : walshSign R i 0 = 1 := by
  rw [walshSign,Nat.and_zero]
  exact pow_zero _

/-- A power of two picks one bit. -/
theorem walshSign_two_pow (i b : Nat) : walshSign R i (2^b) = if i.testBit b then -1 else 1 := by
  rw [walshSign_eq_prod (w := b + 1) i (Nat.pow_lt_pow_right (by decide) (Nat.lt_succ_self b)),
    prod_eq_single_of_mem b (mem_range.2 (Nat.lt_succ_self b))]
  · rw [Nat.testBit_two_pow_self,Bool.and_true]
  · intro c _ hc
    rw [Nat.testBit_two_pow_of_ne hc.symm,Bool.and_false]
    rfl

/-- The sign of two numbers in base `2^s` is the product of the signs of their digits. -/
theorem walshSign_two_pow_mul_add {s r j : Nat} (hr : r < 2^s) (hj : j < 2^s) (a b : Nat) :
    walshSign R (2^s * a + r) (2^s * b + j) = walshSign R a b * walshSign R r j := by
  have hb : b < 2^b := Nat.lt_two_pow_self
  have hwide : 2^s * b + j < 2^(s + b) := by
    calc 2^s * b + j < 2^s * b + 2^s := Nat.add_lt_add_left hj _
      _ = 2^s * (b + 1) := (Nat.mul_succ _ _).symm
      _ ≤ 2^s * 2^b := Nat.mul_le_mul_left _ hb
      _ = 2^(s + b) := (Nat.pow_add 2 s b).symm
  rw [walshSign_eq_prod _ hwide,prod_range_add,walshSign_eq_prod a hb,walshSign_eq_prod r hj,mul_comm]
  refine congrArg₂ (· * ·) (prod_congr rfl fun i _ => ?_) (prod_congr rfl fun i hi => ?_)
  · have hs : ¬s + i < s := Nat.not_lt.2 (Nat.le_add_right s i)
    rw [Nat.testBit_two_pow_mul_add _ hr,Nat.testBit_two_pow_mul_add _ hj,if_neg hs,if_neg hs,Nat.add_sub_cancel_left]
  · have his : i < s := mem_range.1 hi
    rw [Nat.testBit_two_pow_mul_add _ hr,Nat.testBit_two_pow_mul_add _ hj,if_pos his,if_pos his]

/-- The signs of a row cancel, the first row apart. -/
theorem sum_walshSign {k m : Nat} (hm : m < 2^k) : ∑ i ∈ range (2^k), walshSign R i m = if m = 0 then 2^k else 0 := by
  split
  · rename_i hzero
    simp [hzero,walshSign_zero]
  · rename_i hne
    obtain ⟨b,hb⟩ := Nat.exists_testBit_of_ne_zero hne
    have hbk : b < k := (Nat.pow_lt_pow_iff_right (by decide)).1 ((Nat.ge_two_pow_of_testBit hb).trans_lt hm)
    -- Flipping the bit pairs the entries of one sign with those of the other.
    refine sum_involution (fun i _ => i ^^^ 2^b) (fun i _ => ?_) (fun i _ _ => ?_) (fun i hi => ?_) fun i _ => ?_
    · rw [walshSign_comm,walshSign_comm _ m,walshSign_xor,walshSign_two_pow,if_pos hb,mul_neg_one,add_neg_cancel]
    · intro h
      have hzero : i ^^^ (i ^^^ 2^b) = 0 := by rw [h,Nat.xor_self]
      rw [← Nat.xor_assoc,Nat.xor_self,Nat.zero_xor] at hzero
      exact absurd hzero (Nat.two_pow_pos b).ne'
    · exact mem_range.2 (Nat.xor_lt_two_pow (mem_range.1 hi) (Nat.pow_lt_pow_right (by decide) hbk))
    · rw [Nat.xor_assoc,Nat.xor_self,Nat.xor_zero]

/-- The transform of a vector of length `n`. -/
def walshHadamard (n : Nat) (f : Nat → R) (i : Nat) : R := ∑ j ∈ range n, walshSign R i j * f j

/-- The transform of two halves in terms of the transforms of each. -/
theorem walshHadamard_two_pow_succ {s r : Nat} (hr : r < 2^s) (f : Nat → R) (e : Nat) :
    walshHadamard (2^(s + 1)) f (2^s * e + r) =
      walshHadamard (2^s) f r + walshSign R e 1 * walshHadamard (2^s) (fun j => f (2^s + j)) r := by
  rw [walshHadamard,Nat.pow_succ,Nat.mul_two,sum_range_add,walshHadamard,walshHadamard,mul_sum]
  refine congrArg₂ (· + ·) (sum_congr rfl fun j hj => ?_) (sum_congr rfl fun j hj => ?_)
  · have hsign := walshSign_two_pow_mul_add (R := R) hr (mem_range.1 hj) e 0
    rw [Nat.mul_zero,Nat.zero_add,walshSign_zero,one_mul] at hsign
    rw [hsign]
  · have hsign := walshSign_two_pow_mul_add (R := R) hr (mem_range.1 hj) e 1
    rw [Nat.mul_one] at hsign
    rw [hsign,mul_assoc]

/-- The convolution of two vectors over the exclusive or. -/
def xorConvolution (n : Nat) (f g : Nat → R) (m : Nat) : R := ∑ a ∈ range n, f a * g (a ^^^ m)

variable {k : Nat} (f g : Nat → R)

theorem walshHadamard_walshHadamard {i : Nat} (hi : i < 2^k) :
    walshHadamard (2^k) (walshHadamard (2^k) f) i = 2^k * f i := by
  have hterm (j : Nat) (hj : j ∈ range (2^k)) :
      ∑ l ∈ range (2^k), walshSign R i l * (walshSign R l j * f j) = if i = j then 2^k * f j else 0 := by
    have hij : i ^^^ j < 2^k := Nat.xor_lt_two_pow hi (mem_range.1 hj)
    calc ∑ l ∈ range (2^k), walshSign R i l * (walshSign R l j * f j)
        = (∑ l ∈ range (2^k), walshSign R l (i ^^^ j)) * f j := by
          rw [sum_mul]
          exact sum_congr rfl fun l _ => by rw [walshSign_xor,walshSign_comm i l,mul_assoc]
      _ = if i = j then 2^k * f j else 0 := by
          rw [sum_walshSign hij]
          simp only [Nat.xor_eq_zero_iff,ite_mul,zero_mul]
  calc walshHadamard (2^k) (walshHadamard (2^k) f) i
      = ∑ j ∈ range (2^k), ∑ l ∈ range (2^k), walshSign R i l * (walshSign R l j * f j) := by
        simp only [walshHadamard,mul_sum]
        exact sum_comm
    _ = ∑ j ∈ range (2^k), if i = j then 2^k * f j else 0 := sum_congr rfl hterm
    _ = 2^k * f i := by rw [sum_ite_eq,if_pos (mem_range.2 hi)]

/-- Summing over all places or over their exclusive or with one of them is the same. -/
theorem sum_xor (h : Nat → R) {a : Nat} (ha : a < 2^k) : ∑ m ∈ range (2^k), h (a ^^^ m) = ∑ m ∈ range (2^k), h m := by
  have hback (m : Nat) : a ^^^ (a ^^^ m) = m := by rw [← Nat.xor_assoc,Nat.xor_self,Nat.zero_xor]
  have hin {m : Nat} (hm : m ∈ range (2^k)) : a ^^^ m ∈ range (2^k) :=
    mem_range.2 (Nat.xor_lt_two_pow ha (mem_range.1 hm))
  exact sum_bij' (fun m _ => a ^^^ m) (fun m _ => a ^^^ m) (fun m hm => hin hm) (fun m hm => hin hm)
    (fun m _ => hback m) (fun m _ => hback m) fun m _ => rfl

theorem walshHadamard_xorConvolution (i : Nat) :
    walshHadamard (2^k) (xorConvolution (2^k) f g) i = walshHadamard (2^k) f i * walshHadamard (2^k) g i := by
  have hterm (a : Nat) (ha : a ∈ range (2^k)) :
      ∑ m ∈ range (2^k), walshSign R i m * (f a * g (a ^^^ m)) = walshSign R i a * f a * walshHadamard (2^k) g i := by
    have hsplit (m : Nat) : walshSign R i m = walshSign R i a * walshSign R i (a ^^^ m) := by
      rw [← walshSign_xor,← Nat.xor_assoc,Nat.xor_self,Nat.zero_xor]
    calc ∑ m ∈ range (2^k), walshSign R i m * (f a * g (a ^^^ m))
        = ∑ m ∈ range (2^k), walshSign R i a * f a * (walshSign R i (a ^^^ m) * g (a ^^^ m)) :=
          sum_congr rfl fun m _ => by rw [hsplit,mul_mul_mul_comm]
      _ = walshSign R i a * f a * ∑ m ∈ range (2^k), walshSign R i m * g m := by
          rw [← mul_sum,sum_xor (fun m => walshSign R i m * g m) (mem_range.1 ha)]
  calc walshHadamard (2^k) (xorConvolution (2^k) f g) i
      = ∑ a ∈ range (2^k), ∑ m ∈ range (2^k), walshSign R i m * (f a * g (a ^^^ m)) := by
        simp only [walshHadamard,xorConvolution,mul_sum]
        exact sum_comm
    _ = ∑ a ∈ range (2^k), walshSign R i a * f a * walshHadamard (2^k) g i := sum_congr rfl hterm
    _ = walshHadamard (2^k) f i * walshHadamard (2^k) g i := (sum_mul _ _ _).symm

end MfskCore.Library
