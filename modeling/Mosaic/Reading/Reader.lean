import Mosaic.Descent
import Mosaic.Reading.Fault
import Mosaic.Scalar
import Mosaic.Text.Utf8

/-!
# Reading — the cursor

A `Reader` reads a text from a byte offset and leaves the offset where it stopped, also when it
fails. White space between tokens is blanks, tabs and line ends.

* `Reader.iterate`: a loop whose rounds advance; it ends because the text does.
* Tokens: `take`, `eat`, `expect`, `identifier`, `takeChar`, `restOfLine`, `takeUntil`,
  `textBetween`.
* `Reader.fail`, `Reader.failAt`: faults at the cursor and at an earlier offset.
-/

namespace Mosaic

/-- Blanks, tabs and line ends. -/
def isBlank (c : UInt8) : Bool := c == 32 || c == 9 || c == 10 || c == 13

/-- Decimal digits. -/
def isDigit (c : UInt8) : Bool := 48 ≤ c && c ≤ 57

/-- Letters and the underscore. -/
def isNameStart (c : UInt8) : Bool :=
  (65 ≤ c && c ≤ 90) || (97 ≤ c && c ≤ 122) || c == 95

/-- Letters, digits and the underscore. -/
def isNamePart (c : UInt8) : Bool := isNameStart c || isDigit c

/-- The first offset from `i` on whose byte does not satisfy `p`. -/
@[specialize] def runEnd (p : UInt8 → Bool) (text : ByteArray) (i : Nat) : Nat :=
  if h : i < text.size then
    if p text[i] then runEnd p text (i + 1) else i
  else i
termination_by text.size - i

/-- Whether given bytes stand in the text from `i` on. -/
def standsAt (text : ByteArray) (i : Nat) : List UInt8 → Bool
  | [] => true
  | c :: rest => text[i]? == some c && standsAt text (i + 1) rest

/-- The text between two byte offsets. -/
def textBetween (text : ByteArray) (start stop : Nat) : String :=
  Utf8.decode (text.extract start stop)

/-- A computation that reads a text from an offset on. -/
abbrev Reader (β : Type) := ReaderT ByteArray (EStateM ParseError Nat) β

namespace Reader

variable {α β σ : Type}

/-- The text being read. -/
@[inline] def source : Reader ByteArray := read

/-- The offset of the cursor. -/
@[inline] def offset : Reader Nat := get

/-- Refuses the text at an offset. -/
def failAt (place : Nat) (fault : Fault) : Reader β := fun text i =>
  .error ⟨fault, Position.of text place⟩ i

/-- Refuses the text at the cursor. -/
def fail (fault : Fault) : Reader β := fun text i => .error ⟨fault, Position.of text i⟩ i

/-- The value, or its fault at the cursor. -/
def ofExcept : Except Fault β → Reader β
  | .ok b => pure b
  | .error fault => fail fault

/-- Repeats `step` until it answers. A round that goes on has to advance the cursor inside the
text, which is why the loop ends. -/
@[inline] def iterate (step : σ → Reader (σ ⊕ β)) (x : σ) : Reader β := fun text =>
  descend (fun _ i => (text.size - i, 0)) (fun i => ⟨.stalled, Position.of text i⟩)
    (fun x => step x text) x

/-- The byte at the cursor. -/
def peek : Reader (Option UInt8) := fun text i => .ok text[i]? i

/-- Takes the byte at the cursor. -/
def takeChar : Reader (Option UInt8) := fun text i =>
  match text[i]? with
  | some c => .ok (some c) (i + 1)
  | none => .ok none i

/-- Skips the bytes that satisfy `p`. -/
@[inline] def skipWhile (p : UInt8 → Bool) : Reader Unit := fun text i =>
  .ok () (runEnd p text i)

/-- Skips white space. -/
def skipBlanks : Reader Unit := skipWhile isBlank

/-- Whether only white space was left; it is skipped. -/
def atEnd : Reader Bool := do
  skipBlanks
  return (← source).size ≤ (← offset)

/-- Takes a word if it comes next. -/
def take (word : String) : Reader Bool := do
  let i ← offset
  if standsAt (← source) i word.toByteArray.data.toList then
    set (i + word.utf8ByteSize)
    return true
  else return false

/-- Takes a token, after white space, if it comes next. -/
def eat (token : String) : Reader Bool := do
  skipBlanks
  take token

/-- Takes a token that has to come next. -/
def expect (token : String) : Reader Unit := do
  unless ← eat token do fail (.expected token)

/-- The identifier at the cursor, after white space; empty if there is none. -/
def identifier : Reader String := do
  skipBlanks
  let start ← offset
  if ((← peek).any isNameStart) then skipWhile isNamePart
  return textBetween (← source) start (← offset)

/-- The rest of the line, up to the first control character. -/
def restOfLine : Reader String := do
  let start ← offset
  skipWhile (32 ≤ ·)
  return textBetween (← source) start (← offset)

/-- The text up to a byte, which stays. -/
def takeUntil (stop : UInt8) : Reader String := do
  let start ← offset
  skipWhile (· != stop)
  if (← peek).isSome then return textBetween (← source) start (← offset)
  else fail (.unterminatedText (Char.ofNat stop.toNat))

/-- A number that has to be finite. -/
def finite [Scalar α] (x : α) : Reader α :=
  if Scalar.isFinite x then pure x
  else fail (.notFinite (if x < 0 then .negative else if 0 < x then .positive else .undefined))

end Reader

end Mosaic
