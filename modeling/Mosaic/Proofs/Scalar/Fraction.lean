import Mathlib.Data.Rat.Sqrt
import Mosaic.Proofs.Scalar.Whole

/-!
# Scalar — fractions

Rectangles with sides along the axes need no more than fractions: the midpoints of their edges are
halfway between vertices, and they are turned by whole numbers of quarter turns.  With these as
scalars the engine computes exactly with such rectangles, its tolerances included, so what it does
with them can be evaluated in proofs.  Functions that would leave the fractions are constant.
-/

namespace Mosaic

/-- Fractions, as lengths and as angles in quarter turns; of these only the whole ones count. -/
def Fraction : Type := ℚ

namespace Fraction

/-- The absolute value. -/
def size (a : ℚ) : ℚ := if a < 0 then -a else a

instance : Scalar Fraction where
  add := Rat.add
  sub := Rat.sub
  mul := Rat.mul
  div := Rat.div
  neg := Rat.neg
  lt a b := Rat.blt a b = true
  le a b := Rat.blt b a = false
  beq := (inferInstance : BEq ℚ).beq
  ofScientific := Rat.ofScientific
  ltDecidable a b := inferInstanceAs (Decidable (Rat.blt a b = true))
  leDecidable a b := inferInstanceAs (Decidable (Rat.blt b a = false))
  ofNat n := (n : ℚ)
  ofInt n := (n : ℚ)
  ofDecimal m e := Rat.ofScientific m (decide (e < 0)) e.natAbs
  toInt64 a := Int64.ofInt (Rat.floor a)
  isFinite _ := true
  infinity := Rat.ofScientific 1 false 300
  pi := (2 : ℚ)
  ulp := Rat.ofScientific 1 true 16
  abs := size
  sqrt := Rat.sqrt
  floor a := (Rat.floor a : ℚ)
  ceil a := (Rat.ceil a : ℚ)
  exp _ := (1 : ℚ)
  log _ := (0 : ℚ)
  sin a := (Whole.sine (Rat.floor a) : ℚ)
  cos a := (Whole.sine (Rat.floor a + 1) : ℚ)
  tan _ := (0 : ℚ)
  asin _ := (0 : ℚ)
  acos _ := (0 : ℚ)
  atan _ := (0 : ℚ)
  sinh _ := (0 : ℚ)
  cosh _ := (1 : ℚ)
  tanh _ := (0 : ℚ)
  arsinh _ := (0 : ℚ)
  arcosh _ := (0 : ℚ)
  artanh _ := (0 : ℚ)
  atan2 y x := (Whole.direction (Rat.num y) (Rat.num x) : ℚ)
  pow a _ := a
  hypot a b := Rat.add (size a) (size b)
  rem a b := Rat.sub a (Rat.mul b (Rat.floor (Rat.div a b)))

end Fraction

end Mosaic
