/-!
# Scalar — Double — significands

Binary64 numbers by significand and exponent, and the functions that need no series:

* `decode`, `encode`: a double as a natural number times a power of two, and back.
* `remainder`: exact remainder of a truncating division, from significands and exponents.
* `hypotenuse`: `√(x² + y²)` without overflow of the squares, and with the error of its root
  taken off.
-/

namespace Mosaic.Double

/-- Significand and exponent of a finite double: `|x| = (decode x).1 * 2 ^ (decode x).2`, up to the
shift of all exponents by `1074`. -/
def decode (x : Float) : Nat × Nat :=
  let bits := x.toBits.toNat
  let exponent := bits / Nat.pow 2 52 % Nat.pow 2 11
  let fraction := bits % Nat.pow 2 52
  if exponent = 0 then (fraction, 0) else (fraction + Nat.pow 2 52, exponent - 1)

/-- Whether a double has the sign bit, which also a zero may have. -/
def isSigned (x : Float) : Bool := Nat.pow 2 63 ≤ x.toBits.toNat

/-- The double with significand `m < 2 ^ 53` and shifted exponent `e`. -/
def encode (m e : Nat) : Float := (Float.ofNat m).scaleB ((e : Int) - 1074)

/-- Remainder of `x / y` truncated toward zero, exact, with the sign of `x`. -/
def remainder (x y : Float) : Float :=
  if !x.isFinite || y.isNaN || y == 0 then 0 / 0
  else if !y.isFinite then x
  else
    let (mx, ex) := decode x
    let (my, ey) := decode y
    let r := if ey ≤ ex then encode ((mx * Nat.pow 2 (ex - ey)) % my) ey
      else encode (mx % (my * Nat.pow 2 (ey - ex))) ex
    if isSigned x then -r else r

/-- Length of the hypotenuse over legs `b ≤ a` whose squares neither overflow nor vanish: the root
`h` of the rounded sum of squares, less the error that `h² - a² - b²` shows it to have. The error is
summed from products of small differences, arranged around the leg that is nearer to `h`. -/
def hypotenuseOf (a b : Float) : Float :=
  let h := Float.sqrt (a * a + b * b)
  let error :=
    if h <= 2 * b then
      let d := h - b
      a * (2 * d - a) + (d - 2 * (a - b)) * d
    else
      let d := h - a
      2 * d * (a - 2 * b) + ((4 * d - b) * b + d * d)
  h - error / (2 * h)

/-- Length of the hypotenuse; infinite as soon as one leg is. A leg below `2 ^ -54` of the other
only counts in the rounding of their sum, and legs of extreme size are scaled by `2 ^ 600`. -/
def hypotenuse (x y : Float) : Float :=
  let x := x.abs
  let y := y.abs
  if x.isInf || y.isInf then 1 / 0
  else if x.isNaN || y.isNaN then 0 / 0
  else
    let a := if x < y then y else x
    let b := if x < y then x else y
    if b.scaleB 54 <= a then a + b
    else if (1.0 : Float).scaleB 511 < a then
      (hypotenuseOf (a.scaleB (-600)) (b.scaleB (-600))).scaleB 600
    else if b < (1.0 : Float).scaleB (-459) then
      (hypotenuseOf (a.scaleB 600) (b.scaleB 600)).scaleB (-600)
    else hypotenuseOf a b

end Mosaic.Double
