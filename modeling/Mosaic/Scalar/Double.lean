import Mosaic.Scalar
import Mosaic.Scalar.Double.Hyperbolic

/-!
# Scalar — machine doubles

The binary64 numbers as scalars, and the double nearest to a decimal number of any length
(`shorten`, `ofDecimal`).
-/

namespace Mosaic.Double

/-- A shorter decimal number that rounds to the same double as `m * 10 ^ e`. No double, and no
number half-way between two, has more than 800 decimal digits, so of the digits beyond these it
only matters whether all of them are zero. -/
def shorten (m : Nat) (e : Int) : Nat × Int :=
  let k := m.log2 * 3 / 10 - 800
  if k = 0 then (m, e)
  else
    let unit := Nat.pow 10 k
    (m / unit * 10 + (if m % unit = 0 then 0 else 1), e + k - 1)

/-- The double nearest to `m * 10 ^ e`. Exponents for which the size of `m` already decides that the
result is infinite or zero are not computed with. -/
def ofDecimal (m : Nat) (e : Int) : Float :=
  let (m, e) := shorten m e
  if m = 0 then 0
  else if 400 < e then 1 / 0
  else if 0 ≤ e then Float.ofScientific m false e.toNat
  else if (m.log2 : Int) / 3 + 2 + e < -400 then 0
  else Float.ofScientific m true (-e).toNat

/-- The double nearest to half a turn. -/
def pi : Float := 3.141592653589793

/-- The distance from one to the next double. -/
def ulp : Float := 2.220446049250313e-16

instance : Scalar Float where
  ltDecidable := Float.decLt
  leDecidable := Float.decLe
  ofNat := Float.ofNat
  ofInt := Float.ofInt
  ofDecimal := ofDecimal
  toInt64 := Float.toInt64
  isFinite := Float.isFinite
  infinity := 1 / 0
  pi := pi
  ulp := ulp
  abs := Float.abs
  sqrt := Float.sqrt
  floor := Float.floor
  ceil := Float.ceil
  exp := Float.exp
  log := Float.log
  sin := Float.sin
  cos := Float.cos
  tan := Float.tan
  asin := Float.asin
  acos := Float.acos
  atan := Float.atan
  sinh := Float.sinh
  cosh := Float.cosh
  tanh := Float.tanh
  arsinh := arsinh
  arcosh := Float.acosh
  artanh := artanh
  atan2 := Float.atan2
  pow := Float.pow
  hypot := hypotenuse
  rem := remainder

end Mosaic.Double
