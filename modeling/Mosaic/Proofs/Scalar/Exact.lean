import Mathlib.Analysis.SpecialFunctions.Arcosh
import Mathlib.Analysis.SpecialFunctions.Arsinh
import Mathlib.Analysis.SpecialFunctions.Artanh
import Mathlib.Analysis.SpecialFunctions.Complex.Arg
import Mathlib.Analysis.SpecialFunctions.Trigonometric.Arctan
import Mathlib.Analysis.SpecialFunctions.Pow.Real
import Mathlib.Analysis.SpecialFunctions.Trigonometric.Inverse
import Mosaic.Scalar.Tolerance

/-!
# Scalar — exact arithmetic

The real numbers as scalars: no operation rounds, comparison is that of the real line, and the
functions are the ones of analysis.  Nothing is infinite; what grows beyond every bound gets the
first power of two that is no double.  The simp lemmas spell the constants and operations of
`Scalar ℝ` the way Mathlib does.
-/

namespace Mosaic

noncomputable section

namespace Exact

/-- The whole part of a real number, cut off toward zero. -/
def truncate (x : ℝ) : Int := if 0 ≤ x then ⌊x⌋ else ⌈x⌉

/-- The whole part of a real number, saturating at the ends of the 64-bit range. -/
def toInt64 (x : ℝ) : Int64 :=
  Int64.ofInt (min (max (truncate x) Int64.minValue.toInt) Int64.maxValue.toInt)

open scoped Classical in
instance : Scalar ℝ where
  toAdd := inferInstance
  toSub := inferInstance
  toMul := inferInstance
  toDiv := inferInstance
  toNeg := inferInstance
  toLT := inferInstance
  toLE := inferInstance
  toBEq := ⟨fun a b => decide (a = b)⟩
  toOfScientific := inferInstance
  ltDecidable := inferInstance
  leDecidable := inferInstance
  ofNat := Nat.cast
  ofInt := Int.cast
  ofDecimal m e := m * 10 ^ e
  toInt64 := toInt64
  isFinite _ := true
  infinity := 2 ^ 1024
  pi := Real.pi
  ulp := 0
  abs x := |x|
  sqrt := Real.sqrt
  floor x := ⌊x⌋
  ceil x := ⌈x⌉
  exp := Real.exp
  log := Real.log
  sin := Real.sin
  cos := Real.cos
  tan := Real.tan
  asin := Real.arcsin
  acos := Real.arccos
  atan := Real.arctan
  sinh := Real.sinh
  cosh := Real.cosh
  tanh := Real.tanh
  arsinh := Real.arsinh
  arcosh := Real.arcosh
  artanh := Real.artanh
  atan2 y x := Complex.arg ⟨x, y⟩
  pow x y := x ^ y
  hypot x y := √(x ^ 2 + y ^ 2)
  rem x y := x - y * truncate (x / y)

end Exact

namespace Scalar

@[simp] theorem real_zero : @OfNat.ofNat ℝ 0 Scalar.instOfNat = 0 := Nat.cast_zero

@[simp] theorem real_one : @OfNat.ofNat ℝ 1 Scalar.instOfNat = 1 := Nat.cast_one

@[simp] theorem abs_real (x : ℝ) : Scalar.abs x = |x| := rfl

@[simp] theorem sqrt_real (x : ℝ) : Scalar.sqrt x = √x := rfl

@[simp] theorem sin_real (x : ℝ) : Scalar.sin x = Real.sin x := rfl

@[simp] theorem cos_real (x : ℝ) : Scalar.cos x = Real.cos x := rfl

@[simp] theorem asin_real (x : ℝ) : Scalar.asin x = Real.arcsin x := rfl

@[simp] theorem arsinh_real (x : ℝ) : Scalar.arsinh x = Real.arsinh x := rfl

@[simp] theorem atan2_real (y x : ℝ) : Scalar.atan2 y x = Complex.arg ⟨x, y⟩ := rfl

@[simp] theorem hypot_real (x y : ℝ) : Scalar.hypot x y = √(x ^ 2 + y ^ 2) := rfl

/-- Exact arithmetic takes no divisor for zero but zero. -/
@[simp] theorem vanishes_real (x : ℝ) : Scalar.vanishes x = true ↔ x = 0 := by
  change decide (|x| ≤ (0 : ℝ)) = true ↔ x = 0
  simp

theorem min_real (x y : ℝ) : Scalar.min x y = Min.min x y := by
  have hx : (x == x) = true := decide_eq_true rfl
  simp only [Scalar.min, hx, if_true]
  split
  · exact (min_eq_right (le_of_lt ‹y < x›)).symm
  · exact (min_eq_left (not_lt.mp ‹¬ y < x›)).symm

end Scalar

end

end Mosaic
