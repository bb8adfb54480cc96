/-!
# Scalar — the numbers of the engine

All geometry of the library is written over an abstract field of numbers, so that the program
that runs over machine doubles and the statements about exact arithmetic share their definitions.

* `Scalar`: arithmetic, decidable comparison, the elementary functions, and the few constants and
  conversions the engine needs. No law is asked for: doubles satisfy almost none.
* `Scalar.max`, `Scalar.min`: the larger and the smaller of two numbers, where an operand that is
  not equal to itself gives way to the other one.
-/

namespace Mosaic

/-- A type of numbers the engine can compute with. -/
class Scalar (α : Type) extends Add α, Sub α, Mul α, Div α, Neg α, LT α, LE α, BEq α,
    OfScientific α where
  ltDecidable : DecidableLT α
  leDecidable : DecidableLE α
  ofNat : Nat → α
  ofInt : Int → α
  /-- The number `m * 10 ^ e`, rounded to the scale of the type. -/
  ofDecimal : (m : Nat) → (e : Int) → α
  /-- Truncation toward zero, saturating at the ends of the 64-bit range. -/
  toInt64 : α → Int64
  isFinite : α → Bool
  /-- The value of a quantity that grows beyond every bound. -/
  infinity : α
  pi : α
  /-- Spacing of the numbers just above one. -/
  ulp : α
  abs : α → α
  sqrt : α → α
  floor : α → α
  ceil : α → α
  exp : α → α
  log : α → α
  sin : α → α
  cos : α → α
  tan : α → α
  asin : α → α
  acos : α → α
  atan : α → α
  sinh : α → α
  cosh : α → α
  tanh : α → α
  arsinh : α → α
  arcosh : α → α
  artanh : α → α
  /-- Angle of the vector with ordinate `y` and abscissa `x`. -/
  atan2 : (y x : α) → α
  pow : α → α → α
  /-- Length of the hypotenuse over two legs. -/
  hypot : α → α → α
  /-- Remainder of a division truncated toward zero; it has the sign of the dividend. -/
  rem : α → α → α

namespace Scalar

variable {α : Type} [Scalar α]

@[inline] instance : DecidableLT α := Scalar.ltDecidable

@[inline] instance : DecidableLE α := Scalar.leDecidable

instance (priority := low) {n : Nat} : OfNat α n := ⟨Scalar.ofNat n⟩

/-- A full turn. -/
@[inline] def tau : α := 2 * pi

/-- The larger of two numbers; one that differs from itself gives way to the other. -/
@[inline] def max (a b : α) : α := if a < b then b else if a == a then a else b

/-- The smaller of two numbers; one that differs from itself gives way to the other. -/
@[inline] def min (a b : α) : α := if b < a then b else if a == a then a else b

/-- The nearest integer, a half going up. -/
def round (x : α) : Int := (toInt64 (floor (x + 0.5))).toInt

end Scalar

end Mosaic
