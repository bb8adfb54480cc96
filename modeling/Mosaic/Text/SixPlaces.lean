/-!
# Text — numbers with six places

Reports write a number with six decimal places and, from ten on, a decimal exponent: `1.500000`,
`1.250000e1`. The mantissa is scaled by repeated division by ten, so that the text is a function of
the double alone.

* `SixPlaces.render`: the text of a number.
* `SixPlaces.scaled`: the number of millionths written, and the exponent.
-/

namespace Mosaic.SixPlaces

/-- Divides `a` by ten until it rounds to less than ten at six places, `fuel` times at most;
the quotient, and `e` raised by the number of divisions. -/
def scaleDown : (fuel : Nat) → (a : Float) → (e : Nat) → Float × Nat
  | 0, a, e => (a, e)
  | fuel + 1, a, e =>
    if 1e7 ≤ (a * 1e6).round then scaleDown fuel (a / 10) (e + 1) else (a, e)

/-- Millionths of the mantissa and decimal exponent of a finite number; no finite double needs
more than 309 divisions. -/
def scaled (x : Float) : Nat × Nat :=
  let (a, e) := scaleDown 400 x.abs 0
  ((a * 1e6).round.toUInt64.toNat, e)

/-- Six digits, with leading zeros. -/
def sixDigits (n : Nat) : String :=
  let s := toString n
  "".pushn '0' (6 - s.length) ++ s

/-- The text of a number. A number that rounds to zero has no sign. -/
def render (x : Float) : String :=
  if x.isNaN then "nan"
  else if x.isInf then if x < 0 then "-inf" else "inf"
  else
    let (n, e) := scaled x
    let sign := if x < 0 && 0 < n then "-" else ""
    let exponent := if 0 < e then "e" ++ toString e else ""
    sign ++ toString (n / 1000000) ++ "." ++ sixDigits (n % 1000000) ++ exponent

end Mosaic.SixPlaces
