import MfskCore.Fec.ReedSolomon
import Mathlib.Algebra.Field.MinimalAxioms
import Mathlib.Tactic.Ring

/-! The field the Reed-Solomon tables stand for. Multiplication adds logarithms; it distributes
over exclusive or because multiplication by `α` is a shift with a linear correction. -/
namespace MfskCore.Fec

/-- A symbol as a field element; addition is exclusive or. -/
@[ext] structure GF64 where
  symbol : Symbol
  deriving DecidableEq

namespace GF64

/-- `α^i` for `i < 63`, then zero. -/
def powTable : List Symbol :=
  [1, 2, 4, 8, 16, 32, 3, 6, 12, 24, 48, 35, 5, 10, 20, 40, 19, 38, 15, 30, 60, 59, 53, 41, 17, 34,
   7, 14, 28, 56, 51, 37, 9, 18, 36, 11, 22, 44, 27, 54, 47, 29, 58, 55, 45, 25, 50, 39, 13, 26,
   52, 43, 21, 42, 23, 46, 31, 62, 63, 61, 57, 49, 33, 0]

/-- The logarithms of the symbols, zero first. -/
def logTable : List Nat :=
  [63, 0, 1, 6, 2, 12, 7, 26, 3, 32, 13, 35, 8, 48, 27, 18, 4, 24, 33, 16, 14, 52, 36, 54, 9, 45,
   49, 38, 28, 41, 19, 56, 5, 62, 25, 11, 34, 31, 17, 47, 15, 23, 53, 51, 37, 44, 55, 40, 10, 61,
   46, 30, 50, 22, 39, 43, 29, 60, 42, 21, 20, 59, 57, 58]

theorem tables_eq : Rs6312.tables = (powTable,logTable) := by decide

/-- `α^i`. -/
def power (i : Nat) : GF64 := ⟨powTable.getD (i % 63) 0⟩

def log (x : GF64) : Nat := logTable.getD x.symbol.toNat 0

instance : Zero GF64 := ⟨⟨0⟩⟩
instance : One GF64 := ⟨⟨1⟩⟩
instance : Add GF64 := ⟨fun x y => ⟨x.symbol ^^^ y.symbol⟩⟩
instance : Neg GF64 := ⟨fun x => x⟩
instance : Mul GF64 := ⟨fun x y => if x = 0 ∨ y = 0 then 0 else power (log x + log y)⟩
instance : Inv GF64 := ⟨fun x => if x = 0 then 0 else power (63 - log x)⟩

private theorem codes {P : GF64 → Prop} (h : ∀ n < 64, P ⟨BitVec.ofNat 6 n⟩) (x : GF64) : P x := by
  have hx := h x.symbol.toNat x.symbol.isLt
  rwa [BitVec.ofNat_toNat,BitVec.setWidth_eq] at hx

theorem power_log (x : GF64) (hx : x ≠ 0) : log x < 63 ∧ power (log x) = x := by
  revert hx
  revert x
  apply codes
  decide

private theorem log_power_of_lt : ∀ i < 63, power i ≠ 0 ∧ log (power i) = i := by decide

theorem power_mod (i : Nat) : power (i % 63) = power i := by
  rw [power,Nat.mod_mod,power]

theorem power_ne_zero (i : Nat) : power i ≠ 0 := by
  rw [← power_mod]
  exact (log_power_of_lt _ (Nat.mod_lt i (by decide))).1

theorem log_power (i : Nat) : log (power i) = i % 63 := by
  rw [← power_mod]
  exact (log_power_of_lt _ (Nat.mod_lt i (by decide))).2

/-- Every element is zero or a power of `α`. -/
theorem eq_zero_or_power (x : GF64) : x = 0 ∨ ∃ i, x = power i := by
  by_cases hx : x = 0
  · exact .inl hx
  · exact .inr ⟨log x,(power_log x hx).2.symm⟩

private theorem mul_def (x y : GF64) : x * y = if x = 0 ∨ y = 0 then 0 else power (log x + log y) := rfl

private theorem zero_mul_table (x : GF64) : 0 * x = 0 := by
  rw [mul_def,if_pos (.inl rfl)]

private theorem mul_zero_table (x : GF64) : x * 0 = 0 := by
  rw [mul_def,if_pos (.inr rfl)]

private theorem power_mul (i j : Nat) : power i * power j = power (i + j) := by
  rw [mul_def,if_neg (not_or.2 ⟨power_ne_zero i,power_ne_zero j⟩),log_power,log_power,← power_mod,
    ← Nat.add_mod,power_mod]

private theorem mul_comm_table (x y : GF64) : x * y = y * x := by
  rw [mul_def,mul_def,Nat.add_comm]
  exact if_congr or_comm rfl rfl

private theorem mul_assoc_table (x y z : GF64) : x * y * z = x * (y * z) := by
  rcases eq_zero_or_power x with rfl | ⟨i,rfl⟩
  · rw [zero_mul_table,zero_mul_table,zero_mul_table]
  rcases eq_zero_or_power y with rfl | ⟨j,rfl⟩
  · rw [mul_zero_table,zero_mul_table,mul_zero_table]
  rcases eq_zero_or_power z with rfl | ⟨k,rfl⟩
  · rw [mul_zero_table,mul_zero_table,mul_zero_table]
  rw [power_mul,power_mul,power_mul,power_mul,Nat.add_assoc]

/-- What a bit that falls out of the register adds back. -/
private def carry (x : Symbol) : Symbol := if x.msb then 3 else 0

/-- Multiplication by `α`: a shift, corrected when a bit falls out. -/
private def timesAlpha (x : GF64) : GF64 := ⟨(x.symbol <<< 1) ^^^ carry x.symbol⟩

private theorem carry_xor (x y : Symbol) : carry (x ^^^ y) = carry x ^^^ carry y := by
  unfold carry
  rw [BitVec.msb_xor]
  cases x.msb <;> cases y.msb <;> decide

private theorem timesAlpha_add (x y : GF64) : timesAlpha (x + y) = timesAlpha x + timesAlpha y := by
  apply GF64.ext
  change ((x.symbol ^^^ y.symbol) <<< 1) ^^^ carry (x.symbol ^^^ y.symbol) =
    ((x.symbol <<< 1) ^^^ carry x.symbol) ^^^ ((y.symbol <<< 1) ^^^ carry y.symbol)
  rw [BitVec.shiftLeft_xor_distrib,carry_xor,BitVec.xor_assoc,BitVec.xor_assoc,
    ← BitVec.xor_assoc (y.symbol <<< 1),BitVec.xor_comm (y.symbol <<< 1),
    BitVec.xor_assoc (carry x.symbol)]

private theorem timesAlpha_power (i : Nat) : timesAlpha (power i) = power (i + 1) := by
  have hall : ∀ i < 63, timesAlpha (power i) = power (i + 1) := by decide
  have hi := hall (i % 63) (Nat.mod_lt i (by decide))
  rw [power_mod] at hi
  rw [hi,← power_mod,Nat.mod_add_mod,power_mod]

private theorem mul_power (x : GF64) (k : Nat) : x * power k = timesAlpha^[k] x := by
  induction k with
  | zero =>
    rcases eq_zero_or_power x with rfl | ⟨i,rfl⟩
    · rw [zero_mul_table]
      rfl
    · rw [power_mul]
      rfl
  | succ k ih =>
    rw [Function.iterate_succ_apply',← ih]
    rcases eq_zero_or_power x with rfl | ⟨i,rfl⟩
    · rw [zero_mul_table,zero_mul_table]
      rfl
    · rw [power_mul,power_mul,timesAlpha_power,Nat.add_assoc]

private theorem add_mul_table (x y z : GF64) : (x + y) * z = x * z + y * z := by
  rcases eq_zero_or_power z with rfl | ⟨k,rfl⟩
  · rw [mul_zero_table,mul_zero_table,mul_zero_table]
    rfl
  · rw [mul_power,mul_power,mul_power]
    induction k with
    | zero => rfl
    | succ k ih => rw [Function.iterate_succ_apply',Function.iterate_succ_apply',
        Function.iterate_succ_apply',ih,timesAlpha_add]

instance : Field GF64 :=
  Field.ofMinimalAxioms GF64
    (fun x y z => GF64.ext (BitVec.xor_assoc x.symbol y.symbol z.symbol))
    (fun x => GF64.ext (BitVec.zero_xor))
    (fun x => GF64.ext (BitVec.xor_self))
    mul_assoc_table mul_comm_table
    (fun x => by
      have hone : (1 : GF64) = power 0 := rfl
      rw [mul_comm_table,hone,mul_power]
      rfl)
    (fun x hx => by
      have hinv : x⁻¹ = power (63 - log x) := if_neg hx
      obtain ⟨hlt,hpow⟩ := power_log x hx
      have hone : (1 : GF64) = power 63 := by decide
      rw [hinv,hone]
      nth_rewrite 1 [← hpow]
      rw [power_mul]
      congr 1
      omega)
    (if_pos rfl)
    (fun x y z => by
      rw [mul_comm_table,add_mul_table,mul_comm_table y,mul_comm_table z])
    ⟨0,1,by decide⟩

/-- The primitive element. -/
def α : GF64 := power 1

theorem power_eq (i : Nat) : power i = α ^ i := by
  induction i with
  | zero => rfl
  | succ i ih => rw [pow_succ,← ih,α,power_mul]

theorem α_pow_63 : α ^ 63 = 1 := by
  rw [← power_eq]
  decide

theorem α_ne_zero : α ≠ 0 := power_ne_zero 1

/-- Powers below 63 are distinct. -/
theorem α_pow_injOn {i j : Nat} (hi : i < 63) (hj : j < 63) (h : α ^ i = α ^ j) : i = j := by
  rw [← power_eq,← power_eq] at h
  have hlog := congrArg log h
  rwa [log_power,log_power,Nat.mod_eq_of_lt hi,Nat.mod_eq_of_lt hj] at hlog

end GF64
end MfskCore.Fec
