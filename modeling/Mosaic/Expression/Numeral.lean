import Mosaic.Reading.Reader

/-!
# Expression — decimal numbers

A number is a run of digits with at most one point, and an exponent if digits follow the `e`; at
least one digit stands beside the point. An exponent grows only as long as it is below 65536; the
digits after that belong to the number and add nothing.

* `digitsValue`, `exponentValue`: what a run of digits counts as before and after the `e`.
* `Numeral`: the digits read as one integer, and the power of ten it is scaled by.
* `Reader.numeral`: the number at the cursor. A lone point, with or without an exponent, is refused
  at its first byte, though line and column are those of its end.
-/

namespace Mosaic

/-- The integer that the digits of `text` from `i` to `stop` spell: that of the first half, moved to
the left by the second half. -/
def digitsValue (text : ByteArray) (i stop : Nat) : Nat :=
  if h : i + 1 < stop then
    let mid := (i + stop) / 2
    digitsValue text i mid * Nat.pow 10 (stop - mid) + digitsValue text mid stop
  else if i < stop then ((text[i]?).getD 48).toNat - 48
  else 0
termination_by stop - i

/-- The size of the exponent that the digits of `text` from `i` to `stop` spell after a part that
spells `n`: each digit is appended while the value is below 65536, and passed over from then on. -/
def exponentValue (text : ByteArray) (i stop n : Nat) : Nat :=
  if i < stop ∧ n < 65536 then
    exponentValue text (i + 1) stop (n * 10 + (((text[i]?).getD 48).toNat - 48))
  else n
termination_by stop - i

/-- A decimal number: `digits * 10 ^ exponent`. -/
structure Numeral where
  digits : Nat
  exponent : Int
  deriving DecidableEq, Repr

namespace Reader

variable {α : Type}

/-- Takes an exponent and answers its value; without digits nothing is taken and it is zero. -/
def exponent : Reader Int := do
  let text ← source
  let start ← offset
  let isMark (c : UInt8) := c == 101 || c == 69
  if (text[start]?).any isMark then
    let sign := text[start + 1]?
    let first := if sign == some 43 || sign == some 45 then start + 2 else start + 1
    let stop := runEnd isDigit text first
    if first < stop then
      set stop
      let n := exponentValue text first stop 0
      return if sign == some 45 then -(n : Int) else n
    else return 0
  else return 0

/-- The number at the cursor. -/
def numeral : Reader Numeral := do
  let text ← source
  let start ← offset
  let point := runEnd isDigit text start
  let first := if text[point]? == some 46 then point + 1 else point
  let stop := runEnd isDigit text first
  set stop
  let e ← exponent
  if start < point ∨ first < stop then
    let whole := digitsValue text start point
    let fraction := digitsValue text first stop
    return ⟨whole * Nat.pow 10 (stop - first) + fraction, e - (stop - first : Nat)⟩
  else
    let here := Position.of text (← offset)
    throw ⟨.malformedNumber (textBetween text start (← offset)), { here with offset := start }⟩

/-- The value of the number at the cursor. -/
def number [Scalar α] : Reader α := do
  let n ← numeral
  return Scalar.ofDecimal n.digits n.exponent

end Reader

end Mosaic
