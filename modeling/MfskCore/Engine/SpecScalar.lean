import MfskCore.Fec.LlrScalar
import Mathlib.Algebra.Order.Ring.Int
import Mathlib.Tactic.NormNum
import Mathlib.Tactic.Ring

/-! The scalar of the symbol spectra (`engine/scalar.rs`): `f32` and the fixed-point format Q14. Its squared
norm fits its accumulator for every pair of components but one. -/
namespace MfskCore.Engine
open Rust Fec

/-- What the spectra ask of a scalar. -/
class SpecScalar (F S : Type) (Wide : outParam Type) where
  fromF32 : F → S
  fromF32Scaled : F → F → S
  normSqrWide : S → S → Wide

section Float
variable {F : Type} [F32 F]

/-- `f32` as its own scalar, which takes no scale. -/
instance : SpecScalar F F F where
  fromF32 x := x
  fromF32Scaled x _ := x
  normSqrWide re im := re * re + im * im

end Float

/-- Fourteen fractional bits in sixteen. -/
@[ext] structure Q14i16 where
  raw : Fixed 16

/-- Both products and their sum are `i32`. -/
def Q14i16.normSqrWide (re im : Q14i16) : Int :=
  let r := re.raw.val
  let i := im.raw.val
  wrapI32 (wrapI32 (r * r) + wrapI32 (i * i))

instance {F : Type} [F32 F] : SpecScalar F Q14i16 Int where
  fromF32 x := ⟨Fixed.sat 16 (F32.toI32 (x * 16384.0))⟩
  fromF32Scaled x scale := ⟨Fixed.sat 16 (F32.toI32 (x * scale))⟩
  normSqrWide := Q14i16.normSqrWide

/-- The ways to make a component. -/
inductive Conversion (F : Type) where
  | fromF32 (x : F)
  | fromF32Scaled (x scale : F)

namespace Conversion
variable {F : Type} [F32 F]

/-- The number that is clamped. -/
def wide : Conversion F → Int
  | fromF32 x => F32.toI32 (x * 16384.0)
  | fromF32Scaled x scale => F32.toI32 (x * scale)

def value : Conversion F → Q14i16
  | fromF32 x => SpecScalar.fromF32 x
  | fromF32Scaled x scale => SpecScalar.fromF32Scaled x scale

theorem value_raw (c : Conversion F) : c.value.raw = Fixed.sat 16 c.wide := by
  cases c with
  | fromF32 x => rfl
  | fromF32Scaled x scale => rfl

end Conversion

namespace Q14i16

private theorem square_le {x n : Int} (hlo : -n ≤ x) (hhi : x ≤ n) : x * x ≤ n * n := by
  have hprod : 0 ≤ (n - x) * (n + x) := mul_nonneg (by omega) (by omega)
  have hexpand : (n - x) * (n + x) = n * n - x * x := by ring
  omega

private theorem wrapI32_square (q : Fixed 16) : wrapI32 (q.val * q.val) = q.val * q.val := by
  have hle := square_le q.lo q.hi.le
  exact wrapI32_eq (by have hnonneg := mul_self_nonneg q.val; omega) (by omega)

/-- The strongest signal wraps to the most negative power. -/
theorem normSqrWide_min {re im : Q14i16} (hre : re.raw.val = -2^15) (him : im.raw.val = -2^15) :
    re.normSqrWide im = -2^31 := by
  rw [normSqrWide,hre,him]
  decide

/-- The sum of the squares is exact unless both components are the most negative value. -/
theorem normSqrWide_eq_iff (re im : Q14i16) :
    re.normSqrWide im = re.raw.val^2 + im.raw.val^2 ↔ ¬(re.raw.val = -2^15 ∧ im.raw.val = -2^15) := by
  constructor
  · rintro h ⟨hre,him⟩
    rw [normSqrWide_min hre him,hre,him] at h
    norm_num at h
  · intro hcorner
    -- A component that is not the corner keeps its square under `2^30`.
    have hsmall (q : Fixed 16) (hq : q.val ≠ -2^15) : q.val * q.val < 2^30 := by
      have hlo := q.lo
      have hhi := q.hi
      have hle := @square_le q.val (2^15 - 1) (by omega) (by omega)
      omega
    have hre := square_le re.raw.lo re.raw.hi.le
    have him := square_le im.raw.lo im.raw.hi.le
    have hsum : re.raw.val * re.raw.val + im.raw.val * im.raw.val < 2^31 := by
      rcases not_and_or.1 hcorner with h | h
      · have hlt := hsmall re.raw h
        omega
      · have hlt := hsmall im.raw h
        omega
    have hreal := mul_self_nonneg re.raw.val
    have himag := mul_self_nonneg im.raw.val
    rw [normSqrWide,wrapI32_square,wrapI32_square,wrapI32_eq (by omega) hsum,sq,sq]

end Q14i16

section Conversions
variable {F : Type} [F32 F]

private theorem sat_eq_min_iff (x : Int) : (Fixed.sat 16 x).val = -2^15 ↔ x ≤ -2^15 := by
  change max (-2^15) (min x (2^15 - 1)) = -2^15 ↔ x ≤ -2^15
  omega

/-- Of all components a conversion can give, only two that are clamped at the bottom overflow. -/
theorem normSqrWide_exact_iff (re im : Conversion F) :
    SpecScalar.normSqrWide F re.value im.value = re.value.raw.val^2 + im.value.raw.val^2 ↔
      ¬(re.wide ≤ -2^15 ∧ im.wide ≤ -2^15) := by
  change re.value.normSqrWide im.value = _ ↔ _
  rw [Q14i16.normSqrWide_eq_iff,re.value_raw,im.value_raw,sat_eq_min_iff,sat_eq_min_iff]

end Conversions

/-- Both components of `-2 - 2i` saturate. -/
theorem normSqrWide_overflows :
    letI := rationalF32
    ¬∀ re im : Conversion Rat,
      SpecScalar.normSqrWide Rat re.value im.value = re.value.raw.val^2 + im.value.raw.val^2 := by
  let _ := rationalF32
  intro h
  have hmin : (Conversion.fromF32 (-2 : Rat)).value.raw.val = -2^15 := by decide +kernel
  exact (Q14i16.normSqrWide_eq_iff _ _).1 (h (.fromF32 (-2)) (.fromF32 (-2))) ⟨hmin,hmin⟩

end MfskCore.Engine
