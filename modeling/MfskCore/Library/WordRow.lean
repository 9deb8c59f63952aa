import Mathlib.Algebra.Group.Nat.Defs
import Mathlib.Data.List.GetD
import Mathlib.Data.List.Basic

/-! Rows of bits packed into words of `w` bits: column `c` is bit `c % w` of word `c / w`. Bits are written
one at a time and rows are combined word by word; the set bits of a word are visited by clearing the lowest. -/
namespace MfskCore.Library

abbrev WordRow (w : Nat) : Type := List (BitVec w)

namespace WordRow
variable {w : Nat}

def zero (w words : Nat) : WordRow w := List.replicate words 0#w

def bit (row : WordRow w) (c : Nat) : Bool := (row.getD (c / w) 0#w).getLsbD (c % w)

/-- `row[c / w] |= mask` or `row[c / w] &= !mask`, with the mask of the one bit. -/
def write (row : WordRow w) (c : Nat) (v : Bool) : WordRow w :=
  let mask := 1#w <<< (c % w)
  row.modify (c / w) fun x => if v then x ||| mask else x &&& ~~~mask

/-- Word by word. -/
def xor (a b : WordRow w) : WordRow w := List.zipWith (fun x y => x ^^^ y) a b

/-- Set one bit for each column below `n` that `f` selects. -/
def pack (w words n : Nat) (f : Nat → Bool) : WordRow w :=
  (List.range n).foldl (fun row c => if f c then row.write c true else row) (zero w words)

@[simp] theorem length_zero (w words : Nat) : (zero w words).length = words := List.length_replicate

@[simp] theorem length_write (row : WordRow w) (c : Nat) (v : Bool) : (row.write c v).length = row.length := by
  simp [write]

theorem length_xor {a b : WordRow w} (h : a.length = b.length) : (a.xor b).length = a.length := by
  rw [xor,List.length_zipWith,h,Nat.min_self]

@[simp] theorem bit_zero (words c : Nat) : (zero w words).bit c = false := by
  unfold bit zero
  rw [List.getD_eq_getElem?_getD,List.getElem?_replicate]
  split <;> simp

theorem bit_xor {a b : WordRow w} (h : a.length = b.length) (c : Nat) :
    (a.xor b).bit c = (a.bit c ^^ b.bit c) := by
  unfold bit xor
  simp only [List.getD_eq_getElem?_getD,List.getElem?_zipWith]
  by_cases hc : c / w < a.length
  · rw [List.getElem?_eq_getElem hc,List.getElem?_eq_getElem (h ▸ hc)]
    simp
  · rw [List.getElem?_eq_none (by omega),List.getElem?_eq_none (by omega)]
    simp

theorem getLsbD_mask {a : Nat} (ha : a < w) (b : Nat) : (1#w <<< b).getLsbD a = decide (a = b) := by
  rw [BitVec.getLsbD_shiftLeft,BitVec.getLsbD_one]
  by_cases hab : a = b
  · subst hab
    have hw : 0 < w := Nat.zero_lt_of_lt ha
    simp [ha,hw]
  · simp only [hab,ha,decide_true,decide_false,Bool.true_and,Bool.and_eq_false_iff]
    by_cases hlt : a < b
    · simp [hlt]
    · have hne : a - b ≠ 0 := by omega
      simp [hne]

theorem bit_write {row : WordRow w} {d : Nat} (hw : 0 < w) (hd : d / w < row.length) (v : Bool) (c : Nat) :
    (row.write d v).bit c = if c = d then v else row.bit c := by
  have hlt : c % w < w := Nat.mod_lt c hw
  unfold bit write
  simp only [List.getD_eq_getElem?_getD,List.getElem?_modify]
  by_cases hc : d / w = c / w
  · have heq : c % w = d % w ↔ c = d := by
      constructor
      · intro h
        rw [← Nat.div_add_mod c w,← Nat.div_add_mod d w,h,hc]
      · exact congrArg (· % w)
    rw [← hc,List.getElem?_eq_getElem hd]
    simp only [if_true,Option.map_eq_map,Option.map_some,Option.getD_some]
    cases v with
    | true =>
      rw [if_pos rfl,BitVec.getLsbD_or,getLsbD_mask hlt]
      by_cases h : c = d
      · simp [h]
      · simp [h,heq]
    | false =>
      rw [if_neg Bool.false_ne_true,BitVec.getLsbD_and,BitVec.getLsbD_not,getLsbD_mask hlt]
      by_cases h : c = d
      · simp [h]
      · simp [h,heq,hlt]
  · have hne : c ≠ d := fun h => hc (by rw [h])
    simp [hc,hne]

theorem length_pack (words n : Nat) (f : Nat → Bool) : (pack w words n f).length = words := by
  unfold pack
  induction n with
  | zero => simp
  | succ n ih =>
    rw [List.range_succ,List.foldl_append,List.foldl_cons,List.foldl_nil]
    split <;> simp [ih]

theorem bit_pack {words n : Nat} (hw : 0 < w) (h : n ≤ w * words) (f : Nat → Bool) (c : Nat) :
    (pack w words n f).bit c = (decide (c < n) && f c) := by
  induction n with
  | zero => simp [pack]
  | succ n ih =>
    have hstep : pack w words (n + 1) f =
        if f n then (pack w words n f).write n true else pack w words n f := by
      unfold pack
      rw [List.range_succ,List.foldl_append,List.foldl_cons,List.foldl_nil]
    have hin : n / w < (pack w words n f).length := by
      rw [length_pack]
      exact Nat.div_lt_of_lt_mul h
    rw [hstep]
    by_cases hc : c = n
    · subst hc
      by_cases hf : f c
      · rw [if_pos hf,bit_write hw hin,if_pos rfl]
        simp [hf]
      · rw [if_neg hf,ih (Nat.le_of_lt h)]
        simp [hf]
    · have hiff : c < n + 1 ↔ c < n := by omega
      simp only [hiff]
      rw [← ih (Nat.le_of_lt h)]
      split
      · rw [bit_write hw hin,if_neg hc]
      · rfl

end WordRow

section SetBits
variable {w : Nat} {α : Type*}

/-- The lowest set bit splits a number. -/
private theorem eq_of_lowest {n t : Nat} (hbelow : ∀ i < t, n.testBit i = false) (ht : n.testBit t = true) :
    n = 2^(t + 1) * (n / 2^(t + 1)) + 2^t := by
  have hrest : n % 2^(t + 1) = 2^t := by
    refine Nat.eq_of_testBit_eq fun i => ?_
    rw [Nat.testBit_mod_two_pow,Nat.testBit_two_pow]
    rcases Nat.lt_trichotomy i t with hlt | rfl | hgt
    · simp [hbelow i hlt,Nat.ne_of_gt hlt]
    · simp [ht]
    · have hout : ¬i < t + 1 := by omega
      simp [hout,Nat.ne_of_lt hgt]
  rw [← hrest]
  exact (Nat.div_add_mod n _).symm

theorem getLsbD_clearLowest {x : BitVec w} (hx : x ≠ 0#w) (i : Nat) :
    (x &&& (x - 1#w)).getLsbD i = (x.getLsbD i && decide (i ≠ x.ctz.toNat)) := by
  have hsplit := eq_of_lowest (n := x.toNat) (t := x.ctz.toNat)
    (fun i hi => BitVec.getLsbD_false_of_lt_ctz hi) (BitVec.getLsbD_true_ctz_of_ne_zero hx)
  generalize x.ctz.toNat = t at hsplit ⊢
  generalize hm : x.toNat / 2^(t + 1) = m at hsplit
  have hpos : 1 ≤ 2^t := Nat.one_le_two_pow
  have hlt : 2^t < 2^(t + 1) := Nat.pow_lt_pow_right (by decide) (Nat.lt_succ_self t)
  have hw : 0 < w := by
    rcases Nat.eq_zero_or_pos w with rfl | hw
    · exact absurd (Subsingleton.elim _ _) hx
    · exact hw
  have hone : (1#w).toNat = 1 := by
    rw [BitVec.toNat_ofNat]
    exact Nat.mod_eq_of_lt (Nat.one_lt_two_pow (Nat.ne_of_gt hw))
  have hpred : (x - 1#w).toNat = 2^(t + 1) * m + (2^t - 1) := by
    rw [BitVec.toNat_sub_of_le (by rw [BitVec.le_def,hone]; omega),hone]
    omega
  rw [BitVec.getLsbD_and,BitVec.getLsbD,BitVec.getLsbD,hpred,hsplit,Nat.testBit_two_pow_mul_add m hlt,
    Nat.testBit_two_pow_mul_add m (by omega),Nat.testBit_two_pow,Nat.testBit_two_pow_sub_one]
  by_cases hi : i < t + 1
  · rw [if_pos hi,if_pos hi]
    by_cases hit : i = t
    · simp [hit]
    · have hbelow : i < t := by omega
      simp [hit,Ne.symm hit]
  · have hne : i ≠ t := by omega
    rw [if_neg hi,if_neg hi]
    simp [hne]

/-- `while x != 0`, with the lowest set bit taken and then cleared by `x &= x - 1`. -/
def foldSetBits (f : α → Nat → α) (a : α) (x : BitVec w) : α :=
  if _ : x = 0#w then a else foldSetBits f (f a x.ctz.toNat) (x &&& (x - 1#w))
termination_by x.toNat
decreasing_by
  rename_i h
  have hset := getLsbD_clearLowest h x.ctz.toNat
  have hle : (x &&& (x - 1#w)).toNat ≤ x.toNat := by
    rw [BitVec.toNat_and]
    exact Nat.and_le_left
  refine Nat.lt_of_le_of_ne hle fun heq => ?_
  rw [BitVec.eq_of_toNat_eq heq,BitVec.getLsbD_true_ctz_of_ne_zero h] at hset
  simp at hset

/-- The loop visits the set bits from the lowest up. -/
theorem foldSetBits_eq (f : α → Nat → α) (a : α) (x : BitVec w) :
    foldSetBits f a x = ((List.range w).filter x.getLsbD).foldl f a := by
  induction a, x using foldSetBits.induct f with
  | case1 a =>
    have hnone : (List.range w).filter (0#w).getLsbD = [] := List.filter_eq_nil_iff.2 fun i _ => by simp
    rw [foldSetBits,dif_pos rfl,hnone,List.foldl_nil]
  | case2 a x hx ih =>
    have ht : x.ctz.toNat < w := by
      have hset := BitVec.getLsbD_true_ctz_of_ne_zero hx
      exact BitVec.lt_of_getLsbD hset
    have hsplit : List.range w = List.range x.ctz.toNat ++
        x.ctz.toNat :: List.range' (x.ctz.toNat + 1) (w - (x.ctz.toNat + 1)) := by
      have hcount : w = x.ctz.toNat + (w - (x.ctz.toNat + 1) + 1) := by omega
      conv_lhs => rw [hcount]
      rw [List.range_add,← List.range'_eq_map_range,List.range'_succ]
    have hbelow : ∀ y : BitVec w, (∀ i < x.ctz.toNat, y.getLsbD i = false) →
        (List.range x.ctz.toNat).filter y.getLsbD = [] := fun y hy => by
      refine List.filter_eq_nil_iff.2 fun i hi => ?_
      rw [hy i (List.mem_range.1 hi)]
      exact Bool.false_ne_true
    have hclear := fun i => getLsbD_clearLowest hx i
    have habove : (List.range' (x.ctz.toNat + 1) (w - (x.ctz.toNat + 1))).filter (x &&& (x - 1#w)).getLsbD =
        (List.range' (x.ctz.toNat + 1) (w - (x.ctz.toNat + 1))).filter x.getLsbD := by
      refine List.filter_congr fun i hi => ?_
      have hne : i ≠ x.ctz.toNat := Nat.ne_of_gt (List.mem_range'_1.1 hi).1
      rw [hclear i,decide_eq_true hne,Bool.and_true]
    rw [foldSetBits,dif_neg hx,ih,hsplit,List.filter_append,List.filter_append,List.filter_cons,List.filter_cons,
      hbelow x fun i hi => BitVec.getLsbD_false_of_lt_ctz hi,
      hbelow (x &&& (x - 1#w)) fun i hi => by rw [hclear i,BitVec.getLsbD_false_of_lt_ctz hi,Bool.false_and],
      habove,hclear x.ctz.toNat,BitVec.getLsbD_true_ctz_of_ne_zero hx]
    simp

/-- A loop over words of `n` positions each is a loop over the positions. -/
theorem foldl_range_mul (f : α → Nat → α) (a : α) (m n : Nat) :
    (List.range m).foldl (fun a i => (List.range n).foldl (fun a j => f a (i * n + j)) a) a =
      (List.range (m * n)).foldl f a := by
  induction m with
  | zero => rw [Nat.zero_mul]; rfl
  | succ m ih =>
    rw [List.range_succ,List.foldl_append,ih,List.foldl_cons,List.foldl_nil,Nat.succ_mul,List.range_add,
      List.foldl_append,List.foldl_map]

end SetBits

end MfskCore.Library
