import Mathlib.Algebra.Group.Int.Defs
import Mathlib.Algebra.Group.Nat.Defs
import Mathlib.Data.Int.Init

/-! `i64` and `u64` values as integers and natural numbers: arithmetic that overflows fails, and a cast keeps
the low bits. -/
namespace MfskCore.Rust

def IsI64 (x : Int) : Prop := -2^63 ≤ x ∧ x < 2^63

instance (x : Int) : Decidable (IsI64 x) := inferInstanceAs (Decidable (_ ∧ _))

/-- The result of an `i64` operation. -/
def checkedI64 (x : Int) : Option Int := if IsI64 x then some x else none

/-- The result of a `u64` operation. -/
def checkedU64 (x : Int) : Option Nat := if 0 ≤ x ∧ x < 2^64 then some x.toNat else none

/-- `as u64` of an `i64`. -/
def asU64 (x : Int) : Nat := (x % 2^64).toNat

/-- `as i64` of a `u64`. -/
def asI64 (n : Nat) : Int := (n : Int).bmod (2^64)

/-- `as u32` of an `i64` or a `u64`. -/
def asU32 (x : Int) : Nat := (x % 2^32).toNat

/-- The two's-complement value of the low 64 bits. -/
def wrapI64 (x : Int) : Int := x.bmod (2^64)

theorem wrapI64_eq {x : Int} (h : IsI64 x) : wrapI64 x = x := by
  obtain ⟨hlo,hhi⟩ := h
  exact Int.bmod_eq_of_le (by omega) (by omega)

theorem checkedI64_eq {x : Int} (h : IsI64 x) : checkedI64 x = some x := if_pos h

theorem checkedU64_eq {n : Nat} (h : n < 2^64) : checkedU64 n = some n :=
  if_pos ⟨Int.natCast_nonneg n,by exact_mod_cast h⟩

theorem asU64_eq {n : Nat} (h : n < 2^64) : asU64 n = n := by
  rw [asU64,Int.emod_eq_of_lt (Int.natCast_nonneg n) (by exact_mod_cast h),Int.toNat_natCast]

theorem asI64_eq {n : Nat} (h : n < 2^63) : asI64 n = n :=
  Int.bmod_eq_of_le (by omega) (by omega)

theorem asU32_eq {n : Nat} (h : n < 2^32) : asU32 n = n := by
  rw [asU32,Int.emod_eq_of_lt (Int.natCast_nonneg n) (by exact_mod_cast h),Int.toNat_natCast]

end MfskCore.Rust
