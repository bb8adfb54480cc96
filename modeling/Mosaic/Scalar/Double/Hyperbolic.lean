import Mosaic.Scalar.Double.Basic

/-!
# Scalar — Double — inverse hyperbolic functions

The logarithm near one, and the inverse hyperbolic functions that are written with it.

* `logOnePlus`: `log (1 + x)` with the accuracy of `x`. One plus `x` is a power of two times
  `1 + f`, `√½ ≤ 1 + f < √2`; `logReduced` adds the logarithms of the two factors.
* `arsinh`: odd, and accurate both near zero and where the double of its argument is infinite.
* `artanh`: half the logarithm of `(1 + x) / (1 - x)`. It is not odd in its last digits: next to
  minus one the denominator `1 - x` is rounded to two, next to one it is exact.
-/

namespace Mosaic.Double

/-- The logarithm of two to 32 bits; a product with an exponent is exact. -/
def logTwoHigh : Float := 6.93147180369123816490e-01

/-- What `logTwoHigh` lacks of the logarithm of two. -/
def logTwoLow : Float := 1.90821492927058770002e-10

/-- The series of `(log (1 + s) - log (1 - s) - 2 * s) / s` in `z = s * s`, as a polynomial with
the least error on `z ≤ 0.0295`. -/
def logSeries (z : Float) : Float :=
  let z2 := z * z
  let z4 := z2 * z2
  z * 6.666666666666735130e-01
    + z2 * (3.999999999940941908e-01 + z * 2.857142874366239149e-01)
    + z4 * (2.222219843214978396e-01 + z * 1.818357216161805012e-01)
    + z4 * z2 * (1.531383769920937332e-01 + z * 1.479819860511658591e-01)

/-- `log (2 ^ k * (1 + f)) + c` for `1 + f` between `√½` and `√2` and a small `c`. With
`s = f / (2 + f)` the logarithm of `1 + f` is that of `(1 + s) / (1 - s)`. -/
def logReduced (k : Int) (f c : Float) : Float :=
  let k := Float.ofInt k
  let s := f / (2 + f)
  let halfSquare := 0.5 * f * f
  let tail := s * (halfSquare + logSeries (s * s)) + (k * logTwoLow + c)
  k * logTwoHigh - ((halfSquare - tail) - f)

/-- `log (1 + x)`, not a number below minus one. What the sum `1 + x` loses by rounding is added to
its logarithm as `c`. -/
def logOnePlus (x : Float) : Float :=
  if x.isNaN || x == 1 / 0 then x
  else if x < -1 then 0 / 0
  else if x == -1 then -1 / 0
  else if x.abs < (1.0 : Float).scaleB (-29) then x - x * x * 0.5
  else if -0.2928934097290039 < x && x < 0.4142136573791504 then logReduced 0 x 0
  else
    let isWhole := (1.0 : Float).scaleB 53 <= x
    let u := if isWhole then x else 1 + x
    let (m, e) := decode u
    let k := (e : Int) - 1022
    let c := if isWhole then 0 else (if 0 < k then 1 - (u - x) else x - (u - 1)) / u
    if m < 0x16a09e * Nat.pow 2 32 then logReduced k (encode m 1022 - 1) c
    else logReduced (k + 1) (encode m 1021 - 1) c

/-- Inverse hyperbolic sine, `log (a + √(a² + 1))` for `a = |x|` with the sign of `x`. -/
def arsinh (x : Float) : Float :=
  let a := x.abs
  let inverse := 1 / a
  let t := a + a / (hypotenuse 1 inverse + inverse)
  let r := if t.isInf then Float.log a + Float.log 2 else logOnePlus t
  if isSigned x then -r else r

/-- Inverse hyperbolic tangent, not a number beyond one. -/
def artanh (x : Float) : Float := 0.5 * logOnePlus (2 * x / (1 - x))

end Mosaic.Double
