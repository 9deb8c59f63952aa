import MfskCore.Rust.F32
import MfskCore.Rust.Int32
import Mathlib.Order.Defs.LinearOrder
import Mathlib.Order.Basic

/-! The scalar of the min-sum decoder (`engine/scalar.rs`): `f32` and two fixed-point formats. -/
namespace MfskCore.Fec
open Rust

/-- What the decoder asks of a scalar and of its wide accumulator. -/
class LlrScalar (T : Type) (Wide : outParam Type) where
  zero : T
  posInfLike : T
  negSat : T → T
  absSat : T → T
  isNegative : T → Bool
  ltTotal : T → T → Bool
  toWide : T → Wide
  wideZero : Wide
  wideAdd : Wide → Wide → Wide
  wideSub : Wide → Wide → Wide
  fromWideSat : Wide → T
  wideIsPositive : Wide → Bool

/-- Multiplication by the normalising constant. -/
class MulAlpha (F T : Type) where
  mulAlpha : T → F → T

section Float
variable {F : Type} [F32 F]

/-- `f32` as its own scalar; `cmp_total` is `Less` exactly where `<` holds. -/
instance : LlrScalar F F where
  zero := 0.0
  posInfLike := F32.infinity
  negSat x := -x
  absSat := F32.abs
  isNegative x := x < 0.0
  ltTotal x y := x < y
  toWide x := x
  wideZero := 0.0
  wideAdd a b := a + b
  wideSub a b := a - b
  fromWideSat w := w
  wideIsPositive w := w > 0.0

instance : MulAlpha F F := ⟨fun x alpha => x * alpha⟩

end Float

/-- A two's-complement integer of `w` bits. -/
@[ext] structure Fixed (w : Nat) where
  val : Int
  lo : -2^(w - 1) ≤ val
  hi : val < 2^(w - 1)
  deriving DecidableEq

namespace Fixed
variable {w : Nat}

theorem pow_pos (w : Nat) : (0 : Int) < 2^(w - 1) := Int.pow_pos (by decide)

/-- `clamp` to the range of the format. -/
def sat (w : Nat) (x : Int) : Fixed w :=
  ⟨max (-2^(w - 1)) (min x (2^(w - 1) - 1)),le_max_left _ _,by
    have h := pow_pos w
    exact max_lt (by omega) (lt_of_le_of_lt (min_le_right _ _) (by omega))⟩

/-- Saturating arithmetic in a wide accumulator of `w` bits. -/
def wideSat (w : Nat) (x : Int) : Int := (sat w x).val

instance : LinearOrder (Fixed w) :=
  LinearOrder.lift' Fixed.val fun _ _ h => Fixed.ext h

/-- The scalar of a format, with a wide accumulator of twice its bits. -/
@[reducible] def scalar (w : Nat) : LlrScalar (Fixed w) Int where
  zero := sat w 0
  posInfLike := sat w (2^(w - 1) - 1)
  negSat x := sat w (-x.val)
  absSat x := sat w x.val.natAbs
  isNegative x := x.val < 0
  ltTotal x y := x.val < y.val
  toWide x := x.val
  wideZero := 0
  wideAdd a b := wideSat (2 * w) (a + b)
  wideSub a b := wideSat (2 * w) (a - b)
  fromWideSat x := sat w x
  wideIsPositive x := x > 0

/-- Multiplication by `alpha` in Q15, with an arithmetic shift. -/
def mulQ15 {F : Type} [F32 F] (x : Fixed w) (alpha : F) : Fixed w :=
  let aq15 := F32.toI32 (alpha * 32768.0)
  sat w (wrapI32 (x.val * aq15) / 2^15)

end Fixed

/-- Q11.5 in sixteen bits. -/
abbrev Q11i16 : Type := Fixed 16

/-- Q3 in eight bits. -/
abbrev Q3i8 : Type := Fixed 8

instance : LlrScalar Q11i16 Int := Fixed.scalar 16

instance : LlrScalar Q3i8 Int := Fixed.scalar 8

instance {F : Type} [F32 F] : MulAlpha F Q11i16 := ⟨Fixed.mulQ15⟩

instance {F : Type} [F32 F] : MulAlpha F Q3i8 := ⟨Fixed.mulQ15⟩

end MfskCore.Fec
