/-!
# Reading — what can be wrong with a description

* `Position`: a place in a text, by byte offset and by line and column.
* `Fault`: the causes for which a description is refused, with `Fault.message` for their wording.
* `ParseError`: a fault and the place where it was found.
-/

namespace Mosaic

/-- A place in a text. Lines and columns count from one, and columns count bytes. -/
structure Position where
  offset : Nat
  line : Nat
  column : Nat
  deriving DecidableEq, Repr

namespace Position

/-- The place of no text at all. -/
def none : Position := ⟨0, 0, 0⟩

/-- Line and column after one more byte. -/
def advance (p : Nat × Nat) (c : UInt8) : Nat × Nat :=
  if c == 10 then (p.1 + 1, 1) else (p.1, p.2 + 1)

/-- The place at a byte offset of a text. -/
def of (text : ByteArray) (offset : Nat) : Position :=
  let (line, column) := Nat.fold (min offset text.size)
    (fun i _ p => advance p ((text[i]?).getD 0)) (1, 1)
  ⟨offset, line, column⟩

/-- A place as it is written in messages. -/
def message (p : Position) : String :=
  "line " ++ toString p.line ++ ", column " ++ toString p.column

end Position

/-- A value that is not a finite number. -/
inductive NonFinite where
  | positive
  | negative
  | undefined
  deriving DecidableEq, Repr

/-- The spelling of a value that is not a finite number. -/
def NonFinite.text : NonFinite → String
  | positive => "inf"
  | negative => "-inf"
  | undefined => "NaN"

/-- Why a description is refused while it is read. -/
inductive Fault where
  | expected (token : String)
  | unterminatedText (stop : Char)
  | notFinite (value : NonFinite)
  | badIndex (value : Int)
  | nestedTooDeeply
  | malformedNumber (text : String)
  | expectedExpression
  | unknownIdentifier (name : String)
  | wrongArity (name : String) (wanted given : Nat)
  | wrongIdealArity (name : String)
  | unknownFunction (name : String)
  | expectedCommand
  | notACommand (name : String)
  | unknownFlag (name : String)
  | unknownDirective (name : String)
  | expectedVariable
  | noTileToMark
  | tooManySliders
  | tooManyTiles
  | tooManyEdges
  | noCorners
  | negativeRepeat
  | repeatTooLarge (factor : Int)
  | expectedClosing
  | expectedSeparator
  | badRepeat (factor : Int)
  | repeatNotAFactor (factor vertices : Nat)
  | unterminatedTreeState
  | badConway
  | sourceTooLong (limit : Nat)
  | noSource
  | malformedSettings
  | stalled
  | note (text : String)
  deriving DecidableEq, Repr

/-- The wording of a fault. -/
def Fault.message : Fault → String
  | expected token => "expecting '" ++ token ++ "'"
  | unterminatedText stop => "unterminated text, expecting '" ++ stop.toString ++ "'"
  | notFinite value => "not a finite number: " ++ value.text
  | badIndex value => "bad index: " ++ toString value
  | nestedTooDeeply => "expression nested too deeply"
  | malformedNumber text => "malformed number '" ++ text ++ "'"
  | expectedExpression => "expecting expression"
  | unknownIdentifier name => "unknown identifier '" ++ name ++ "'"
  | wrongArity name wanted given =>
    name ++ " takes " ++ toString wanted ++ " argument(s), got " ++ toString given
  | wrongIdealArity name => name ++ " takes 1 or 2 arguments"
  | unknownFunction name => "unknown function '" ++ name ++ "'"
  | expectedCommand => "expecting command"
  | notACommand name => "expecting command, found '" ++ name ++ "'"
  | unknownFlag name => "unknown directive '" ++ name ++ ".'"
  | unknownDirective name => "unknown directive '" ++ name ++ "('"
  | expectedVariable => "expecting variable name"
  | noTileToMark => "no tile to mark"
  | tooManySliders => "too many sliders"
  | tooManyTiles => "too many tiles"
  | tooManyEdges => "tile has too many edges"
  | noCorners => "tile has no corners"
  | negativeRepeat => "don't know how to use a negative repeat in tile definition"
  | repeatTooLarge factor => "repeat factor " ++ toString factor ++ " too large"
  | expectedClosing => "expecting ) after repeat"
  | expectedSeparator => "expecting , or )"
  | badRepeat factor => "bad repeat value " ++ toString factor
  | repeatNotAFactor factor vertices =>
    "repeat value " ++ toString factor ++ " should be a factor of the number of vertices "
      ++ toString vertices
  | unterminatedTreeState => "unterminated treestate"
  | badConway => "cannot parse Conway notation"
  | sourceTooLong limit => "source exceeds " ++ toString limit ++ " bytes"
  | noSource => "no tiling source loaded"
  | malformedSettings => "malformed settings"
  | stalled => "reading does not advance"
  | note text => text

/-- A fault at a place of the text. -/
structure ParseError where
  fault : Fault
  position : Position
  deriving DecidableEq, Repr

/-- The wording of a fault with its place. -/
def ParseError.message (e : ParseError) : String :=
  e.fault.message ++ " at " ++ e.position.message

end Mosaic
