import Mathlib.Data.Int.Init
import Mathlib.Tactic.NormNum

/-! `i32` values are integers; arithmetic on them wraps as a release build's does. -/
namespace MfskCore.Rust

/-- The two's-complement value of the low 32 bits. -/
def wrapI32 (x : Int) : Int := x.bmod (2^32)

/-- `as i32` of an unsigned count. -/
def asI32 (n : Nat) : Int := wrapI32 n

theorem wrapI32_eq {x : Int} (hlo : -2^31 ≤ x) (hhi : x < 2^31) : wrapI32 x = x :=
  Int.bmod_eq_of_le (by norm_num; omega) (by norm_num; omega)

theorem asI32_eq {n : Nat} (h : n < 2^31) : asI32 n = n :=
  wrapI32_eq (by omega) (by exact_mod_cast h)

end MfskCore.Rust
