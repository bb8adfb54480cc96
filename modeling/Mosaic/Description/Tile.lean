import Mosaic.Description.Draft

/-!
# Description — tiles

A tile is a list of corners `d, a`: an edge and the angle at its end. An ideal corner is written
with brackets, `[d, a, d, a]` or `d, [a, d, a]`. A last entry `*n` repeats all corners before it,
and `*inf` makes the tile an apeirogon.

* `Outline`: the corners read so far, and how the list ended.
* `Drafting.tile`: reads a tile and adds its shape to the catalogue.
-/

namespace Mosaic

/-- The most edges that a tile may have, counting repeated ones. -/
def maxShapeEdges : Nat := 10000

/-- The most often that anything may be repeated. -/
def maxRepeat : Nat := 1000

/-- The most shapes that a catalogue may have. -/
def maxShapes : Nat := 4096

/-- Whether a factor is one that corners or connections may be repeated by. -/
def inRepeatBounds (factor : Int) : Bool := 0 ≤ factor && factor ≤ maxRepeat

/-- The boundary of a tile as it is described. -/
structure Outline (α : Type) where
  corners : Array (Corner α)
  apeirogonal : Bool
  repeatCount : Nat

/-- The items of `xs`, `n` times over. -/
def repeatItems {β : Type} (xs : Array β) : Nat → Array β
  | 0 => #[]
  | n + 1 => repeatItems xs n ++ xs

namespace Drafting

variable {α : Type} [Scalar α]

/-- Adds a corner, with edge and angle in the units of the description. -/
def pushCorner (corners : Array (Corner α)) (edge angle : α) (ideal : Bool) :
    Drafting α (Array (Corner α)) := do
  let d ← draft
  let edge ← Reader.finite (edge * d.distanceUnit)
  let angle ← Reader.finite (angle * d.angleUnit)
  if maxShapeEdges ≤ corners.size then Reader.fail .tooManyEdges
  return corners.push ⟨edge, angle, ideal⟩

/-- The outline after a `*`: its repetitions, or the apeirogon. -/
def tileRepeat (corners : Array (Corner α)) : Drafting α (Outline α) := do
  let place ← Reader.offset
  let factor ← sum
  if factor == Scalar.infinity then
    Reader.expect ")"
    return ⟨corners, true, 1⟩
  let factor := Scalar.round (← Reader.finite factor)
  if factor < 0 then Reader.failAt place .negativeRepeat
  if !inRepeatBounds factor || decide (maxShapeEdges < corners.size * factor.toNat) then
    Reader.failAt place (.repeatTooLarge factor)
  unless ← Reader.eat ")" do Reader.fail .expectedClosing
  return ⟨repeatItems corners factor.toNat, false, factor.toNat⟩

/-- The corners with one more entry of the list; a tile of unit edges is given by angles alone. -/
def tileEntry (unit : Bool) (corners : Array (Corner α)) : Drafting α (Array (Corner α)) := do
  let bracket ← if unit then pure false else Reader.eat "["
  let edge ← if unit then pure 1 else do
    let d ← sum
    Reader.expect ","
    pure d
  if ← (if bracket then pure true else Reader.eat "[") then
    let a ← sum
    Reader.expect ","
    let corners ← pushCorner corners edge a true
    let d ← sum
    Reader.expect ","
    let a ← sum
    Reader.expect "]"
    pushCorner corners d a false
  else
    pushCorner corners edge (← sum) false

/-- The list of corners with its closing parenthesis. -/
def outline (unit : Bool) : Drafting α (Outline α) :=
  iterate (fun (corners : Array (Corner α)) => do
    if ← Reader.eat ")" then return .inr ⟨corners, false, 1⟩
    if ← Reader.eat "*" then return .inr (← tileRepeat corners)
    let corners ← tileEntry unit corners
    if ← Reader.eat "," then return .inl corners
    if ← Reader.eat ")" then return .inr ⟨corners, false, 1⟩
    Reader.fail .expectedSeparator) #[]

/-- A defect in the units of the description. -/
def inUnits (d : Draft α) : ClosingDefect α → ClosingDefect α
  | .distance x => .distance (x / d.distanceUnit)
  | .angle x => .angle (x / d.angleUnit)
  | defect => defect

/-- Reads a tile and adds its shape to the catalogue. -/
def tile (unit : Bool) (place : Nat) : Drafting α Unit := do
  if maxShapes ≤ (← draft).tiling.shapes.size then Reader.failAt place .tooManyTiles
  let outline ← outline unit
  if outline.corners.isEmpty then Reader.failAt place .noCorners
  let d ← draft
  let id := d.tiling.shapes.size
  match Shape.ofCorners id d.tiling.space d.tiling.isCombinatorial outline.apeirogonal
      outline.corners outline.repeatCount with
  | .ok (shape, _) =>
    modifyTiling fun t => { t with shapes := t.shapes.push shape }
  | .error e =>
    stop (.openPolygon ⟨id, e.chain, inUnits d e.defect, d.bindings.toList⟩)

end Drafting

end Mosaic
