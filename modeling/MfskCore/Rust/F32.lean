import Mathlib.Algebra.Field.Basic
import Mathlib.Algebra.Order.Group.Abs
import Mathlib.Algebra.Order.Ring.WithTop
import Mathlib.Algebra.Order.Ring.Unbundled.Rat
import Mathlib.Data.NNRat.Defs
import Mathlib.Data.Rat.Cast.Defs

/-! The operations of `f32`. Nothing is assumed of them, so what is proved over them holds whatever
the rounding is. -/
namespace MfskCore.Rust

class F32 (F : Type) extends Add F, Sub F, Neg F, Mul F, Div F, LT F, LE F, OfScientific F where
  decidableLT : DecidableLT F
  decidableLE : DecidableLE F
  abs : F → F
  signum : F → F
  tanh : F → F
  atanh : F → F
  max : F → F → F
  infinity : F
  toI32 : F → Int

instance F32.instDecidableLT {F : Type} [F32 F] : DecidableLT F := F32.decidableLT

instance F32.instDecidableLE {F : Type} [F32 F] : DecidableLE F := F32.decidableLE

/-- Rational arithmetic in the place of `f32`, with the transcendental functions to first order. -/
@[reducible] def rationalF32 : F32 Rat where
  decidableLT := inferInstance
  decidableLE := inferInstance
  abs x := if x < 0 then -x else x
  signum x := if x < 0 then -1 else 1
  tanh x := x
  atanh x := x
  max x y := if x < y then y else x
  infinity := (2^24 - 1) * 2^104
  toI32 x := x.num.tdiv x.den

/-- What IEEE 754 says of the values that are not NaN, and of differences. -/
structure Ieee {F : Type} [F32 F] (number : F → Prop) : Prop where
  zero : number 0.0
  asymm : ∀ {x y}, number x → number y → x < y → ¬y < x
  notLT_trans : ∀ {x y z}, number x → number y → number z → ¬x < y → ¬y < z → ¬x < z
  le_iff : ∀ {x y}, number x → number y → (x ≤ y ↔ ¬y < x)
  abs_sub_comm : ∀ x y t : F, F32.abs (x - y) < t ↔ F32.abs (y - x) < t

theorem ieee_rationalF32 : letI := rationalF32; Ieee fun _ : Rat => True := by
  let _ := rationalF32
  refine ⟨trivial,fun _ _ => lt_asymm,fun _ _ _ hxy hyz => ?_,fun _ _ => not_lt.symm,fun x y t => ?_⟩
  · exact not_lt.2 ((not_lt.1 hyz).trans (not_lt.1 hxy))
  · have habs (z : Rat) : F32.abs z = |z| := by
      change (if z < 0 then -z else z) = |z|
      split
      · exact (abs_of_neg ‹_›).symm
      · exact (abs_of_nonneg (not_lt.1 ‹_›)).symm
    rw [habs,habs,abs_sub_comm]

theorem zero_literal {K : Type} [Field K] : (0.0 : K) = 0 := by
  have h : (OfScientific.ofScientific 0 true 1 : ℚ≥0) = 0 :=
    NNRat.ext (Rat.ofScientific_true_def.trans (Rat.zero_mkRat _))
  show ((OfScientific.ofScientific 0 true 1 : ℚ≥0) : K) = 0
  rw [h,NNRat.cast_zero]

/-- Exact arithmetic in an ordered field. -/
@[reducible] def fieldF32 (K : Type) [Field K] [LinearOrder K] (tanh atanh : K → K) (infinity : K)
    (toI32 : K → Int) : F32 K where
  decidableLT := inferInstance
  decidableLE := inferInstance
  abs x := |x|
  signum x := if x < 0 then -1 else 1
  tanh := tanh
  atanh := atanh
  max x y := max x y
  infinity := infinity
  toI32 := toI32

/-- What IEEE 754 says of adding zero: the sum is on the side of zero where the other value is. -/
structure ZeroNeutral (F : Type) [F32 F] : Prop where
  zero_add_zero : (0.0 : F) + 0.0 = 0.0
  add_zero_pos : ∀ x : F, x + 0.0 > 0.0 ↔ x > 0.0

theorem zeroNeutral_fieldF32 (K : Type) [Field K] [LinearOrder K] (tanh atanh : K → K) (infinity : K)
    (toI32 : K → Int) :
    letI := fieldF32 K tanh atanh infinity toI32
    ZeroNeutral K := by
  let _ := fieldF32 K tanh atanh infinity toI32
  refine ⟨?_,fun x => ?_⟩
  · rw [zero_literal,add_zero]
  · rw [zero_literal,add_zero]

/-- `f32` with its square root. -/
class F32Sqrt (F : Type) extends F32 F where
  sqrt : F → F

/-- Exact arithmetic in an ordered field, with the values of a square root. -/
@[reducible] def sqrtF32 (K : Type) [Field K] [LinearOrder K] (sqrt tanh atanh : K → K) (infinity : K)
    (toI32 : K → Int) : F32Sqrt K where
  toF32 := fieldF32 K tanh atanh infinity toI32
  sqrt := sqrt

/-- Exact arithmetic in an ordered field, with `f32::INFINITY` above its elements. -/
@[reducible] def orderedF32 (K : Type) [Field K] [LinearOrder K] (tanh atanh : K → K) (toI32 : K → Int) :
    F32 (WithTop K) where
  neg x := x.map fun a => -a
  sub x y := x + y.map fun a => -a
  div x y := x * y.map fun a => a⁻¹
  ofScientific m s e := ((OfScientific.ofScientific m s e : K) : WithTop K)
  decidableLT := inferInstance
  decidableLE := inferInstance
  abs x := x.map fun a => max a (-a)
  signum x := x.map fun a => if a < 0 then -1 else 1
  tanh x := x.map tanh
  atanh x := x.map atanh
  max x y := max x y
  infinity := ⊤
  toI32 x := WithTop.recTopCoe 0 toI32 x

end MfskCore.Rust
