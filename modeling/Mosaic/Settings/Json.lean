import Mosaic.Expression.Numeral
import Mosaic.Settings

/-!
# Settings — settings in JSON

Settings are read from a JSON object with some of their fields, or from an array of the first of
them; what is missing has its default. Fields of other names are passed over if they are well
formed, however deeply nested they are; a field given twice is refused. Numbers are written as
non-negative integers of at most 64 bits, without fraction or exponent.

* `Json.text`, `Json.natural`, `Json.truth`: the values that settings have.
* `Json.skipValue`: passes over any value.
* `Settings.ofJson?`: the settings that a text describes, if it does.
-/

namespace Mosaic

namespace Json

open Reader

/-- Refuses the text. -/
def refuse {β : Type} : Reader β := fail .malformedSettings

/-- Takes a byte that has to come next, after white space. -/
def token (c : UInt8) : Reader Unit := do
  skipBlanks
  unless (← takeChar) == some c do refuse

/-- Takes the bytes of a word that have to come next. -/
def word (s : String) : Reader Unit := do
  unless ← take s do refuse

/-- The value of a hexadecimal digit. -/
def hexDigit? (c : UInt8) : Option Nat :=
  if isDigit c then some (c.toNat - 48)
  else if 97 ≤ c && c ≤ 102 then some (c.toNat - 87)
  else if 65 ≤ c && c ≤ 70 then some (c.toNat - 55)
  else none

/-- The number that `n` more hexadecimal digits spell after those that spell `v`. -/
def hexadecimal : (n v : Nat) → Reader Nat
  | 0, v => return v
  | n + 1, v => do
    match (← takeChar).bind hexDigit? with
    | some d => hexadecimal n (v * 16 + d)
    | none => refuse

/-- The character that a letter stands for after a backslash. -/
def escape? (c : UInt8) : Option UInt8 :=
  match c.toNat with
  | 34 => some 34
  | 92 => some 92
  | 47 => some 47
  | 98 => some 8
  | 102 => some 12
  | 110 => some 10
  | 114 => some 13
  | 116 => some 9
  | _ => none

/-- The character of a unit of sixteen bits after `\u`; the first half of a pair has to be followed
by the second one. -/
def unicodeEscape : Reader Char := do
  let a ← hexadecimal 4 0
  if 0xDC00 ≤ a && a ≤ 0xDFFF then refuse
  if 0xD800 ≤ a && a ≤ 0xDBFF then
    word "\\u"
    let b ← hexadecimal 4 0
    if b < 0xDC00 || 0xDFFF < b then refuse
    return Char.ofNat (0x10000 + (a - 0xD800) * 0x400 + (b - 0xDC00))
  return Char.ofNat a

/-- The text up to the closing quote. -/
def text : Reader String :=
  iterate (fun (done : String) => do
    let start ← offset
    skipWhile fun c => c != 34 && c != 92 && 32 ≤ c
    let done := done ++ textBetween (← source) start (← offset)
    match ← takeChar with
    | some 34 => return .inr done
    | some 92 =>
      match ← takeChar with
      | some 117 => return .inl (done.push (← unicodeEscape))
      | some c =>
        match escape? c with
        | some c => return .inl (done.push (Char.ofNat c.toNat))
        | none => refuse
      | none => refuse
    | _ => refuse) ""

/-- Passes over a text up to its closing quote. Escaped halves of pairs may stand alone. -/
def skipText : Reader Unit :=
  iterate (fun () => do
    skipWhile fun c => c != 34 && c != 92 && 32 ≤ c
    match ← takeChar with
    | some 34 => return .inr ()
    | some 92 =>
      match ← takeChar with
      | some 117 =>
        let _ ← hexadecimal 4 0
        return .inl ()
      | some c => if (escape? c).isSome then return .inl () else refuse
      | none => refuse
    | _ => refuse) ()

/-- Passes over digits, of which there has to be one. -/
def skipDigits : Reader Unit := do
  unless (← peek).any isDigit do refuse
  skipWhile isDigit

/-- Passes over a number after its sign. -/
def skipNumber : Reader Unit := do
  if (← peek) == some 48 then
    let _ ← takeChar
    if (← peek).any isDigit then refuse
  else skipDigits
  if (← peek) == some 46 then
    let _ ← takeChar
    skipDigits
  if (← peek).any fun c => c == 101 || c == 69 then
    let _ ← takeChar
    if (← peek).any fun c => c == 43 || c == 45 then
      let _ ← takeChar
    skipDigits

/-- What encloses a value: an array or an object. -/
inductive Frame where
  | array
  | object
  deriving DecidableEq, Repr

/-- The byte that closes a frame. -/
def Frame.close : Frame → UInt8
  | array => 93
  | object => 125

/-- Passes over a value without parts, or over the beginning of one, whose frame is answered. -/
def openValue : Reader (Option Frame) := do
  skipBlanks
  match ← takeChar with
  | none => refuse
  | some c =>
    match c.toNat with
    | 110 => word "ull"; return none
    | 116 => word "rue"; return none
    | 102 => word "alse"; return none
    | 34 => skipText; return none
    | 45 => skipNumber; return none
    | 91 => return some .array
    | 123 => return some .object
    | _ =>
      if isDigit c then
        set ((← offset) - 1)
        skipNumber
        return none
      else refuse

/-- Passes over the ends of frames up to the next part of one, and answers the frames that are left
open. At the beginning of a frame no comma comes before its first part. -/
def closeFrames : List Frame → (fresh : Bool) → Reader (List Frame)
  | [], _ => return []
  | f :: rest, fresh => do
    skipBlanks
    match ← peek with
    | none => refuse
    | some c =>
      if c == 44 && !fresh then
        let _ ← takeChar
        return f :: rest
      else if c == f.close then
        let _ ← takeChar
        closeFrames rest false
      else if fresh then return f :: rest
      else refuse

/-- Passes over a value with all its parts. -/
def skipValue : Reader Unit :=
  iterate (fun (frames : List Frame) => do
    let frames ← match ← openValue with
      | some f => closeFrames (f :: frames) true
      | none => closeFrames frames false
    match frames with
    | [] => return .inr ()
    | .array :: _ => return .inl frames
    | .object :: _ =>
      token 34
      skipText
      token 58
      return .inl frames) []

/-- A non-negative integer of at most 64 bits. -/
def natural : Reader Nat := do
  skipBlanks
  let start ← offset
  skipDigits
  let stop ← offset
  if (← source)[start]? == some 48 && start + 1 < stop then refuse
  if (← peek).any fun c => c == 46 || c == 101 || c == 69 then refuse
  let n := digitsValue (← source) start stop
  if n < Nat.pow 2 64 then return n else refuse

/-- A truth value. -/
def truth : Reader Bool := do
  skipBlanks
  if (← peek) == some 116 then
    word "true"
    return true
  else
    word "false"
    return false

end Json

namespace Settings

open Reader

/-- A field of the settings. -/
inductive Field where
  | affineLimit
  | doubleCover
  | minimise
  | reverseOrder
  | retestBudget
  deriving DecidableEq, Repr

/-- The fields in the order in which an array gives them. -/
def Field.all : List Field := [affineLimit, doubleCover, minimise, reverseOrder, retestBudget]

/-- The field of a given name. -/
def Field.ofName? : String → Option Field
  | "affine_limit" => some affineLimit
  | "unmirror" => some doubleCover
  | "minimize_on_convert" => some minimise
  | "reverse_order" => some reverseOrder
  | "convert_retest_budget" => some retestBudget
  | _ => none

/-- The settings with the value of a field read from the text. -/
def readField (s : Settings) : Field → Reader Settings
  | .affineLimit => return { s with affineLimit := ← Json.natural }
  | .doubleCover => return { s with doubleCover := ← Json.truth }
  | .minimise => return { s with minimise := ← Json.truth }
  | .reverseOrder => return { s with reverseOrder := ← Json.truth }
  | .retestBudget => return { s with retestBudget := ← Json.natural }

/-- The values of an array after its opening bracket, for the fields listed. -/
def readArray (s : Settings) : List Field → (fresh : Bool) → Reader Settings
  | [], _ => do
    Json.token 93
    return s
  | f :: rest, fresh => do
    skipBlanks
    if (← peek) == some 93 then
      let _ ← takeChar
      return s
    unless fresh do Json.token 44
    readArray (← readField s f) rest false

/-- The fields of an object after its opening brace. -/
def readObject : Reader Settings :=
  iterate (fun ((s, given) : Settings × List Field) => do
    let name ← Json.text
    Json.token 58
    let (s, given) ← match Field.ofName? name with
      | none =>
        Json.skipValue
        pure (s, given)
      | some f =>
        if given.contains f then Json.refuse
        else pure (← readField s f, f :: given)
    skipBlanks
    match ← takeChar with
    | some 125 => return .inr s
    | some 44 =>
      Json.token 34
      return .inl (s, given)
    | _ => Json.refuse) (Settings.default, [])

/-- The settings at the cursor and nothing but white space after them. -/
def readAll : Reader Settings := do
  skipBlanks
  let s ← match ← takeChar with
    | some 91 => readArray Settings.default Field.all true
    | some 123 => do
      skipBlanks
      if (← peek) == some 125 then
        let _ ← takeChar
        pure Settings.default
      else
        Json.token 34
        readObject
    | _ => Json.refuse
  unless ← atEnd do Json.refuse
  return s

/-- The settings that a text describes. -/
def ofJson? (s : String) : Option Settings :=
  match readAll s.toByteArray 0 with
  | .ok settings _ => some settings
  | .error _ _ => none

end Settings

end Mosaic
