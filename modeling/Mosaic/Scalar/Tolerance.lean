import Mosaic.Scalar

/-!
# Scalar — comparison up to rounding

One tolerance, relative to the size of the numbers compared, serves polygon closure, edge
lengths and the coincidence of points.

* `approxEq`: equality within `tolerance`, measured on the larger operand but at least on one.
* `safeDiv`: a quotient with a value of the caller's choice where the divisor vanishes.
-/

namespace Mosaic.Scalar

variable {α : Type} [Scalar α]

/-- The relative tolerance of all comparisons. -/
@[inline] def tolerance : α := 1e-6

/-- The size a difference of `a` and `b` is measured on. -/
@[inline] def magnitude (a b : α) : α := max (max 1 (abs a)) (abs b)

/-- Equality within `eps`, relative to the size of the operands. -/
def approxEqWithin (a b eps : α) : Bool := abs (a - b) ≤ eps * magnitude a b

/-- Equality within the tolerance. -/
def approxEq (a b : α) : Bool := approxEqWithin a b tolerance

/-- Whether a number is zero within the tolerance. -/
def nearZero (x : α) : Bool := abs x ≤ tolerance

/-- Whether a divisor is too small to be used. -/
@[inline] def vanishes (x : α) : Bool := abs x ≤ ulp

/-- `num / den`, or `fallback` where `den` vanishes. -/
def safeDiv (num den fallback : α) : α := if vanishes den then fallback else num / den

end Mosaic.Scalar
