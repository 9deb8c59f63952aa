import MfskCore.Rust.F32
import Mathlib.Analysis.SpecialFunctions.Artanh
import Mathlib.Analysis.SpecialFunctions.Complex.Arg
import Mathlib.Analysis.SpecialFunctions.Log.Base

/-! `f32` and `Complex32` in exact arithmetic. -/
namespace MfskCore.Rust

/-- An ordered field with square roots, as exact values of `f32`. -/
class ExactRoots (K : Type) [Field K] [LinearOrder K] where
  sqrt : K → K
  tanh : K → K
  atanh : K → K
  infinity : K
  toI32 : K → Int
  sqrt_nonneg : ∀ x, 0 ≤ sqrt x
  sqrt_mul_self : ∀ x, 0 ≤ x → sqrt x * sqrt x = x
  infinity_pos : 0 < infinity

@[reducible] instance ExactRoots.f32Sqrt {K : Type} [Field K] [LinearOrder K] [ExactRoots K] : F32Sqrt K :=
  sqrtF32 K ExactRoots.sqrt ExactRoots.tanh ExactRoots.atanh ExactRoots.infinity ExactRoots.toI32

/-- The real numbers, with the functions that `f32` approximates. -/
noncomputable instance realF32 : ExactRoots Real where
  sqrt := Real.sqrt
  tanh := Real.tanh
  atanh := Real.artanh
  infinity := 2^128
  toI32 x := if 0 ≤ x then ⌊x⌋ else ⌈x⌉
  sqrt_nonneg := Real.sqrt_nonneg
  sqrt_mul_self _ h := Real.mul_self_sqrt h
  infinity_pos := by positivity

/-- The sign of a soft value. -/
def Signed {K : Type} [Zero K] [LT K] (one : Prop) (x : K) : Prop := (one → 0 < x) ∧ (¬one → x < 0)

theorem Signed.mul {K : Type} [Field K] [LinearOrder K] [IsStrictOrderedRing K] {one : Prop} {x c : K}
    (h : Signed one x) (hc : 0 < c) : Signed one (x * c) :=
  ⟨fun h1 => mul_pos (h.1 h1) hc,fun h0 => mul_neg_of_neg_of_pos (h.2 h0) hc⟩

/-- The soft value of a bit, of a given strength. -/
def antipodal {K : Type} [Neg K] (strength : K) (one : Prop) [Decidable one] : K := if one then strength else -strength

theorem signed_antipodal {K : Type} [Field K] [LinearOrder K] [IsStrictOrderedRing K] {strength : K} (h : 0 < strength)
    (one : Prop) [Decidable one] : Signed one (antipodal strength one) :=
  ⟨fun h1 => by rwa [antipodal,if_pos h1],fun h0 => by rw [antipodal,if_neg h0]; exact neg_neg_of_pos h⟩

/-- `f32` with the functions of phases, and the logarithm. -/
class F32Trig (F : Type) extends F32Sqrt F where
  pi : F
  sin : F → F
  cos : F → F
  atan2 : F → F → F
  log10 : F → F

noncomputable instance realTrig : F32Trig Real where
  toF32Sqrt := ExactRoots.f32Sqrt
  pi := Real.pi
  sin := Real.sin
  cos := Real.cos
  atan2 y x := Complex.arg ⟨x,y⟩
  log10 := Real.logb 10

/-- `usize as f32`. -/
def ofUsize {F : Type} [F32 F] (n : Nat) : F := OfScientific.ofScientific n false 0

structure Complex32 (F : Type) where
  re : F
  im : F

namespace Complex32
variable {F : Type} [F32Trig F]

def add (z w : Complex32 F) : Complex32 F := ⟨z.re + w.re,z.im + w.im⟩
def sub (z w : Complex32 F) : Complex32 F := ⟨z.re - w.re,z.im - w.im⟩
def mul (z w : Complex32 F) : Complex32 F := ⟨z.re * w.re - z.im * w.im,z.re * w.im + z.im * w.re⟩
def normSqr (z : Complex32 F) : F := z.re * z.re + z.im * z.im
def div (z w : Complex32 F) : Complex32 F :=
  ⟨(z.re * w.re + z.im * w.im) / w.normSqr,(z.im * w.re - z.re * w.im) / w.normSqr⟩
def zero : Complex32 F := ⟨0.0,0.0⟩
def conj (z : Complex32 F) : Complex32 F := ⟨z.re,-z.im⟩
def scale (z : Complex32 F) (t : F) : Complex32 F := ⟨z.re * t,z.im * t⟩
def unscale (z : Complex32 F) (t : F) : Complex32 F := ⟨z.re / t,z.im / t⟩
def norm (z : Complex32 F) : F := F32Sqrt.sqrt z.normSqr
def arg (z : Complex32 F) : F := F32Trig.atan2 z.im z.re
def fromPolar (r theta : F) : Complex32 F := ⟨r * F32Trig.cos theta,r * F32Trig.sin theta⟩

end Complex32

section Exact

/-- The complex number that is meant. -/
def toComplex (z : Complex32 Real) : ℂ := ⟨z.re,z.im⟩

@[simp] theorem toComplex_add (z w : Complex32 Real) : toComplex (z.add w) = toComplex z + toComplex w := rfl

@[simp] theorem toComplex_zero : toComplex Complex32.zero = 0 := Complex.ext zero_literal zero_literal

@[simp] theorem toComplex_sub (z w : Complex32 Real) : toComplex (z.sub w) = toComplex z - toComplex w := rfl

@[simp] theorem toComplex_mul (z w : Complex32 Real) : toComplex (z.mul w) = toComplex z * toComplex w :=
  Complex.ext rfl rfl

@[simp] theorem toComplex_conj (z : Complex32 Real) : toComplex z.conj = starRingEnd ℂ (toComplex z) := rfl

@[simp] theorem toComplex_scale (z : Complex32 Real) (t : Real) : toComplex (z.scale t) = toComplex z * t := by
  refine Complex.ext ?_ ?_
  · rw [Complex.re_mul_ofReal]
    rfl
  · rw [Complex.im_mul_ofReal]
    rfl

@[simp] theorem toComplex_unscale (z : Complex32 Real) (t : Real) : toComplex (z.unscale t) = toComplex z / t := by
  refine Complex.ext ?_ ?_
  · rw [Complex.div_ofReal_re]
    rfl
  · rw [Complex.div_ofReal_im]
    rfl

theorem normSqr_eq (z : Complex32 Real) : z.normSqr = Complex.normSq (toComplex z) := by
  rw [Complex.normSq_apply]
  rfl

@[simp] theorem toComplex_div (z w : Complex32 Real) : toComplex (z.div w) = toComplex z / toComplex w := by
  refine Complex.ext ?_ ?_
  · rw [Complex.div_re,← normSqr_eq,← add_div]
    rfl
  · rw [Complex.div_im,← normSqr_eq,← sub_div]
    rfl

theorem ofUsize_eq (n : Nat) : (ofUsize n : Real) = n := by
  have h : (OfScientific.ofScientific n false 0 : ℚ≥0) = n :=
    NNRat.ext (Rat.ofScientific_false_def.trans (by norm_num))
  show ((OfScientific.ofScientific n false 0 : ℚ≥0) : Real) = n
  rw [h,NNRat.cast_natCast]

theorem norm_eq (z : Complex32 Real) : z.norm = ‖toComplex z‖ := by
  rw [Complex.norm_def,Complex.normSq_apply]
  rfl

theorem arg_eq (z : Complex32 Real) : z.arg = Complex.arg (toComplex z) := rfl

theorem toComplex_fromPolar (r theta : Real) :
    toComplex (Complex32.fromPolar r theta) = r * Complex.exp (theta * Complex.I) := by
  refine Complex.ext ?_ ?_
  · rw [Complex.re_ofReal_mul,Complex.exp_ofReal_mul_I_re]
    rfl
  · rw [Complex.im_ofReal_mul,Complex.exp_ofReal_mul_I_im]
    rfl

end Exact

end MfskCore.Rust
