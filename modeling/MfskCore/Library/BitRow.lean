import Mathlib.Algebra.Field.ZMod
import Mathlib.Data.List.GetD

/-! Rows of bits packed into 64-bit words: column `c` is bit `c % 64` of word `c / 64`. -/
namespace MfskCore.Library

abbrev BitRow : Type := List (BitVec 64)

/-- A bit as an element of the field of two elements. -/
def gf2 (b : Bool) : ZMod 2 := if b then 1 else 0

@[simp] theorem gf2_false : gf2 false = 0 := rfl

@[simp] theorem gf2_true : gf2 true = 1 := rfl

theorem gf2_xor (a b : Bool) : gf2 (a ^^ b) = gf2 a + gf2 b := by
  cases a <;> cases b <;> rfl

theorem gf2_injective : Function.Injective gf2 := by
  intro a b h
  cases a <;> cases b <;> first | rfl | exact absurd h (by decide)

theorem gf2_decide (x : ZMod 2) : gf2 (decide (x = 1)) = x := by
  fin_cases x <;> rfl

namespace BitRow

def zero (words : Nat) : BitRow := List.replicate words 0#64

def bit (row : BitRow) (c : Nat) : Bool := (row.getD (c / 64) 0#64).getLsbD (c % 64)

/-- `row[c / 64] |= 1 << (c % 64)`. -/
def setBit (row : BitRow) (c : Nat) : BitRow := row.modify (c / 64) fun w => w ||| 1#64 <<< (c % 64)

/-- Word by word. -/
def xor (a b : BitRow) : BitRow := List.zipWith (fun x y => x ^^^ y) a b

/-- Set one bit for each column below `n` that `f` selects. -/
def pack (words n : Nat) (f : Nat → Bool) : BitRow :=
  (List.range n).foldl (fun row c => if f c then row.setBit c else row) (zero words)

@[simp] theorem length_zero (words : Nat) : (zero words).length = words := List.length_replicate

@[simp] theorem length_setBit (row : BitRow) (c : Nat) : (row.setBit c).length = row.length := by
  simp [setBit]

@[simp] theorem length_xor (a b : BitRow) : (a.xor b).length = min a.length b.length := by
  simp [xor]

@[simp] theorem bit_zero (words c : Nat) : (zero words).bit c = false := by
  unfold bit zero
  rw [List.getD_eq_getElem?_getD,List.getElem?_replicate]
  split <;> simp

theorem bit_xor {a b : BitRow} (h : a.length = b.length) (c : Nat) :
    (a.xor b).bit c = (a.bit c ^^ b.bit c) := by
  unfold bit xor
  simp only [List.getD_eq_getElem?_getD,List.getElem?_zipWith]
  by_cases hc : c / 64 < a.length
  · rw [List.getElem?_eq_getElem hc,List.getElem?_eq_getElem (h ▸ hc)]
    simp
  · rw [List.getElem?_eq_none (by omega),List.getElem?_eq_none (by omega)]
    simp

private theorem getLsbD_or_one (w : BitVec 64) {a b : Nat} (ha : a < 64) :
    (w ||| 1#64 <<< b).getLsbD a = (w.getLsbD a || decide (a = b)) := by
  have hone : (1#64 <<< b).getLsbD a = decide (a = b) := by
    rw [BitVec.getLsbD_shiftLeft,BitVec.getLsbD_one]
    by_cases hab : a = b
    · simp [hab ▸ ha,hab]
    · simp only [hab,ha,decide_true,decide_false,Bool.true_and,Bool.and_eq_false_iff]
      by_cases hlt : a < b
      · simp [hlt]
      · have hne : a - b ≠ 0 := by omega
        simp [hne]
  rw [BitVec.getLsbD_or,hone]

theorem bit_setBit {row : BitRow} {d : Nat} (hd : d < 64 * row.length) (c : Nat) :
    (row.setBit d).bit c = (row.bit c || decide (c = d)) := by
  have hword : d / 64 < row.length := by omega
  unfold bit setBit
  simp only [List.getD_eq_getElem?_getD,List.getElem?_modify]
  by_cases hc : d / 64 = c / 64
  · have hlt : c % 64 < 64 := Nat.mod_lt c (by decide)
    have heq : (c % 64 = d % 64) ↔ c = d := by omega
    simp only [hc]
    rw [← hc,List.getElem?_eq_getElem hword]
    simp only [if_true,Option.map_eq_map,Option.map_some,Option.getD_some]
    rw [getLsbD_or_one _ hlt]
    simp only [heq]
  · have hne : c ≠ d := fun h => hc (by rw [h])
    simp [hc,hne]

theorem length_pack (words n : Nat) (f : Nat → Bool) : (pack words n f).length = words := by
  unfold pack
  induction n with
  | zero => simp
  | succ n ih =>
    rw [List.range_succ,List.foldl_append,List.foldl_cons,List.foldl_nil]
    split <;> simp [ih]

theorem bit_pack {words n : Nat} (h : n ≤ 64 * words) (f : Nat → Bool) (c : Nat) :
    (pack words n f).bit c = (decide (c < n) && f c) := by
  induction n with
  | zero => simp [pack]
  | succ n ih =>
    have hstep : pack words (n + 1) f = if f n then (pack words n f).setBit n else pack words n f := by
      unfold pack
      rw [List.range_succ,List.foldl_append,List.foldl_cons,List.foldl_nil]
    have hprev := ih (by omega)
    rw [hstep]
    by_cases hf : f n
    · rw [if_pos hf,bit_setBit (by rw [length_pack]; omega),hprev]
      by_cases hc : c = n
      · simp [hc,hf]
      · have hiff : c < n + 1 ↔ c < n := by omega
        simp [hc,hiff]
    · rw [if_neg hf,hprev]
      by_cases hc : c = n
      · simp [hc,hf]
      · have hiff : c < n + 1 ↔ c < n := by omega
        simp [hiff]

/-- The bits of a list of rows, as a matrix. -/
def matrix (rows : List BitRow) (r c : Nat) : ZMod 2 := gf2 ((rows.getD r []).bit c)

end BitRow

end MfskCore.Library
