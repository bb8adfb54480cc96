import Mosaic.Description.Tile
import Mosaic.Text.Blank

/-!
# Description — directives

The directives of the language: flags `name.` and calls `name(…)`, each a computation on the draft
that begins after the full stop or the opening parenthesis.

* `Drafting.flag`, `Drafting.directive`: what a flag and a call do.
* `Drafting.cycles`: gluings in cycle notation, `(a b)` for an edge glued to an edge, `[a b]`
  mirrored; primes or `@k` name the shape, and a cycle of one edge glues it to itself.
-/

namespace Mosaic

/-- The most sliders, of both kinds together. -/
def maxSliders : Nat := 1024

namespace Drafting

variable {α : Type}

/-- Sets the geometry of the tiling. -/
def setGeometry (g : Geometry) : Drafting α Unit := modifyTiling ({ · with geometry := g })

/-- What the flag `name.` does, which begins at `place`. -/
def flag (name : String) (place : Nat) : Drafting α Unit :=
  match name with
  | "e2" => setGeometry .euclidean
  | "h2" => setGeometry .hyperbolic
  | "s2" => setGeometry .spherical
  | "a2" => modifyTiling fun t =>
    { t with geometry := .affine, affineLimit := Tiling.defaultAffineLimit }
  | "star" => modifyTiling ({ · with isStar := true })
  | "combinatorial" => modifyTiling ({ · with isCombinatorial := true })
  | _ => Reader.failAt place (.unknownFlag name)

/-- Quoted texts with commas between them, and the closing parenthesis. -/
def options : Drafting α Unit := do
  Reader.expect "\""
  iterate (fun () => do
    let s ← Reader.takeUntil 34
    let _ ← Reader.takeChar
    modifyTiling fun t => { t with options := t.options.push s }
    if ← Reader.eat "," then
      Reader.expect "\""
      return .inl ()
    Reader.expect ")"
    return .inr ()) ()

/-- The text up to the parenthesis that closes the directive, without blank margins. -/
def treeState : Drafting α Unit := do
  let start ← Reader.offset
  iterate (fun (depth : Nat) => do
    match ← Reader.takeChar with
    | none => Reader.fail .unterminatedTreeState
    | some c =>
      if c == 40 then return .inl (depth + 1)
      else if c == 41 then return if depth = 0 then .inr () else .inl (depth - 1)
      else return .inl depth) 0
  let payload := textBetween (← Reader.source) start ((← Reader.offset) - 1)
  modifyTiling fun t =>
    { t with treeStates := t.treeStates.push (Text.trim payload), haveTree := true }

variable [Scalar α]

/-- The shape that a mark is put on: the one named, or the last one if none is. -/
def markedShape (place : Nat) : Drafting α Nat := do
  if ← Reader.eat ")" then
    match (← draft).tiling.shapes.size with
    | 0 => Reader.failAt place .noTileToMark
    | n + 1 => return n
  else
    let i ← shapeIndex
    Reader.expect ")"
    return i

/-- An integer and the closing parenthesis. -/
def integerThenClose : Drafting α Int := do
  let v ← integer
  Reader.expect ")"
  return v

/-- Refuses another slider when there are too many. -/
def checkSliderCount (place : Nat) : Drafting α Unit := do
  let t := (← draft).tiling
  if maxSliders ≤ t.sliders.size + t.intSliders.size then Reader.failAt place .tooManySliders

/-- Name, declared value and range of a slider, and the closing parenthesis. -/
def sliderFields {β : Type} (value : Drafting α β) : Drafting α (Slider β) := do
  let name ← Reader.identifier
  Reader.expect ","
  let zero ← value
  Reader.expect ","
  let min ← value
  Reader.expect ","
  let max ← value
  Reader.expect ")"
  return ⟨name, zero, zero, min, max⟩

/-- A slider; its value is the one that the slider of the same number has in `prior`. -/
def slider (prior : Option (Tiling α)) (place : Nat) : Drafting α Unit := do
  checkSliderCount place
  let s ← sliderFields real
  let q := (← draft).tiling.sliders.size
  let current := ((prior.bind (·.sliders[q]?)).map (·.current)).getD s.zero
  bindVariable s.name current
  modifyTiling fun t => { t with sliders := t.sliders.push { s with current } }

/-- A slider for integers. -/
def intSlider (prior : Option (Tiling α)) (place : Nat) : Drafting α Unit := do
  checkSliderCount place
  let s ← sliderFields integer
  let q := (← draft).tiling.intSliders.size
  let current := ((prior.bind (·.intSliders[q]?)).map (·.current)).getD s.zero
  bindVariable s.name (Scalar.ofInt current)
  modifyTiling fun t => { t with intSliders := t.intSliders.push { s with current } }

/-- A variable and its value. -/
def letVariable : Drafting α Unit := do
  let name ← Reader.identifier
  if name.isEmpty then Reader.fail .expectedVariable
  Reader.expect "="
  bindVariable name (← realThenClose)

/-- Shape and edge of one end of a cycle. -/
def cycleEnd : Drafting α (Nat × Nat) := do
  let place ← Reader.offset
  let edge ← integer
  let primes ← iterate (fun (n : Nat) => do
    if ← Reader.eat "'" then return .inl (n + 1) else return .inr n) 0
  let shape ← if ← Reader.eat "@" then integer else pure (primes : Int)
  let t := (← draft).tiling
  if shape < 0 ∨ (t.shapes.size : Int) ≤ shape then Reader.failAt place (.badIndex shape)
  if edge < 0 ∨ ((t.shape shape.toNat).size : Int) ≤ edge then Reader.failAt place (.badIndex edge)
  return (shape.toNat, edge.toNat)

/-- What comes next in cycle notation: a cycle, mirrored or not, or the end of the text. -/
def cycleOpening : Drafting α (Option Bool) := do
  if ← Reader.eat "(" then return some false
  else if ← Reader.eat "[" then return some true
  else if ← Reader.eat "\"" then return none
  else Reader.fail .badConway

/-- Gluings in cycle notation. The end of a cycle may be left out before the next one. -/
def cycles : Drafting α Unit := do
  Reader.expect "\""
  iterate (fun () => do
    let mirror ← cycleOpening
    match mirror with
    | none => return .inr ()
    | some mirror =>
      let (a, e) ← cycleEnd
      let closed ← (do if ← Reader.eat ")" then return true else Reader.eat "]" : Drafting α Bool)
      let (b, f) ← if closed then pure (a, e) else do
        let last ← cycleEnd
        unless ← Reader.eat ")" do
          let _ ← Reader.eat "]"
        pure last
      modifyTiling (·.connect a e b f mirror)
      return .inl ()) ()
  Reader.expect ")"

/-- Glues one edge to another. -/
def connection : Drafting α Unit := do
  let a ← shapeIndex
  Reader.expect ","
  let e ← edgeIndex a
  Reader.expect ","
  let b ← shapeIndex
  Reader.expect ","
  let f ← edgeIndex b
  Reader.expect ","
  let mirror ← integerThenClose
  modifyTiling (·.connect a e b f (mirror ≠ 0))

/-- Joins two vertices of a shape by a line of decoration. -/
def subline : Drafting α Unit := do
  let a ← shapeIndex
  Reader.expect ","
  let i ← edgeIndex a
  Reader.expect ","
  let j ← edgeIndex a
  Reader.expect ")"
  modifyTiling (·.modifyShape a fun s => { s with sublines := s.sublines.push (i, j) })

/-- The pairs of vertices of a shape at distance `d` within `eps` that are not joined by an edge,
each with the later vertex first. -/
def vertexPairsAt (space : Space) (d eps : α) (s : Shape α) : List (Nat × Nat) :=
  let n := s.size
  (List.range n).flatMap fun i =>
    (List.range i).filterMap fun j =>
      if i == j + 1 || (j == 0 && i == n - 1) then none
      else if Scalar.abs (space.dist (s.vertex i) (s.vertex j) - d) < eps then some (i, j)
      else none

/-- Joins all vertices at a given distance, unless by an edge. -/
def sublines : Drafting α Unit := do
  let unit := (← draft).distanceUnit
  let d := (← real) * unit
  let eps ← if ← Reader.eat "," then pure ((← real) * unit) else pure 1e-4
  Reader.expect ")"
  modifyTiling fun t =>
    { t with
      shapes := t.shapes.map fun s =>
        { s with sublines := s.sublines ++ (vertexPairsAt t.space d eps s).toArray } }

/-- Declares that the connections of a shape repeat around it. -/
def repeatConnections : Drafting α Unit := do
  let a ← shapeIndex
  Reader.expect ","
  let place ← Reader.offset
  let count ← integerThenClose
  if count ≤ 0 ∨ !inRepeatBounds count then Reader.failAt place (.badRepeat count)
  let s := (← draft).tiling.shape a
  match s.setRepeat count.toNat with
  | some s => modifyTiling (·.modifyShape a fun _ => s)
  | none => Reader.failAt place (.repeatNotAFactor count.toNat s.angles.size)

/-- Stretch and shear of a gluing. -/
def stretchShear : Drafting α Unit := do
  let stretch ← real
  Reader.expect ","
  let shear ← real
  Reader.expect ","
  let a ← shapeIndex
  Reader.expect ","
  let e ← edgeIndex a
  Reader.expect ")"
  modifyTiling (·.setStretchShear a e stretch shear)

/-- Ends the load with a shape of the unfinished tiling to inspect. -/
def inspection : Drafting α Unit := do
  let shape ← shapeIndex
  Reader.expect ")"
  stop (.inspection shape (← draft).tiling)

/-- What the call `name(` does, which begins at `place`. -/
def directive (prior : Option (Tiling α)) (name : String) (place : Nat) : Drafting α Unit := do
  match name with
  | "c2" => setGeometry (Geometry.ofCurvature (← realThenClose))
  | "option" => options
  | "angleunit" =>
    let u ← realThenClose
    modifyDraft ({ · with angleUnit := u })
  | "distunit" =>
    let u ← realThenClose
    modifyDraft ({ · with distanceUnit := u })
  | "line" =>
    let i ← markedShape place
    modifyTiling fun t => { t.modifyShape i ({ · with line := true }) with haveLine := true }
  | "grave" =>
    let i ← markedShape place
    modifyTiling fun t => { t.modifyShape i ({ · with grave := true }) with haveGrave := true }
  | "slider" => slider prior place
  | "intslider" => intSlider prior place
  | "let" => letVariable
  | "tile" => tile false place
  | "unittile" => tile true place
  | "affine_limit" =>
    let n ← Expression.index (← scope)
    Reader.expect ")"
    modifyTiling ({ · with affineLimit := n })
  | "cscale" =>
    let x ← realThenClose
    modifyTiling ({ · with cscale := x })
  | "treestate" => treeState
  | "first_treestate" =>
    let n ← integer
    modifyTiling ({ · with firstTreeState := some n })
    Reader.expect ")"
  | "yendor_backsteps" =>
    let n ← integerThenClose
    modifyTiling ({ · with yendorBacksteps := n })
  | "range" =>
    let n ← integerThenClose
    modifyTiling ({ · with range := n })
  | "floor_scale" =>
    let x ← realThenClose
    modifyTiling ({ · with floorScale := x })
  | "boundary_ratio" =>
    let x ← realThenClose
    modifyTiling ({ · with boundaryRatio := x })
  | "conway" => cycles
  | "c" => connection
  | "subline" => subline
  | "sublines" => sublines
  | "repeat" => repeatConnections
  | "debug" => inspection
  | "stretch_shear" => stretchShear
  | _ => Reader.failAt place (.unknownDirective name)

end Drafting

end Mosaic
