import Mosaic.Anchor.Word
import Mosaic.Plane.Orthonormal

/-!
# Anchor — cells of a coarse lattice

Placed tiles are kept relative to the cells of a lattice that covers the whole space: unit squares
of the plane, right-angled pentagons of the hyperbolic plane, one cell for the sphere. Cells have
exact names, so that tiles are compared through short motions however far away they lie.

* `AnchorKey`, `Placement`: the name of a cell, and a motion relative to a cell.
* `Lattice.settle`: the same placement relative to the cell that contains its centre.
* `Lattice.between`, `Lattice.around`: the motion between two cells, and the cells that touch one.
-/

namespace Mosaic

/-- The name of a cell. -/
inductive AnchorKey where
  /-- A unit square of the plane. -/
  | grid (x y : Int64)
  /-- The pentagon reached from the central one by reflections. -/
  | cell (w : Word)
  /-- The whole space. -/
  | globe
  deriving DecidableEq, Hashable, Repr

/-- A motion relative to the frame of a cell. -/
structure Placement (α : Type) where
  key : AnchorKey
  offset : Motion α

/-- The lattice of a geometry: the normals of the sides of the central pentagon, and the
reflections in them. -/
structure Lattice (α : Type) where
  space : Space
  walls : Vector (Point α) 5
  mirrors : Vector (Motion α) 5

namespace Lattice

variable {α : Type} [Scalar α]

/-- Where the squares of the plane begin, so that lattice points lie well inside of them. -/
def gridOffset : α := 0.261

/-- How many sides a placement may cross on its way to its cell. -/
def maxCrossings : Nat := 4096

/-- The square that contains a coordinate. -/
def squareOf (x : α) : Int64 := Scalar.toInt64 (Scalar.floor (x + gridOffset))

/-- The form of the hyperbolic plane. -/
def lorentz (p q : Point α) : α := p.x * q.x + p.y * q.y - p.z * q.z

/-- Reflection in the line with unit normal `n`. -/
def reflection (n : Point α) : Motion α :=
  ⟨1 - 2 * n.x * n.x, 0 - 2 * n.x * n.y, 0 - 2 * n.x * -n.z,
   0 - 2 * n.y * n.x, 1 - 2 * n.y * n.y, 0 - 2 * n.y * -n.z,
   0 - 2 * n.z * n.x, 0 - 2 * n.z * n.y, 1 - 2 * n.z * -n.z⟩

/-- Distance from the centre of the right-angled pentagon to its sides. -/
def inradius : α :=
  Scalar.arcosh (Scalar.cos (Scalar.pi / 4) / Scalar.sin (Scalar.pi / 5))

/-- The unit normal of a side of the central pentagon. -/
def wall (i : Side) : Point α :=
  let r : α := inradius
  let turn : α := Scalar.tau * Scalar.ofNat i.val / 5
  ⟨Scalar.cosh r * Scalar.cos turn, Scalar.cosh r * Scalar.sin turn, Scalar.sinh r⟩

/-- The lattice of a geometry. -/
def ofSpace (s : Space) : Lattice α :=
  let walls := Vector.ofFn wall
  ⟨s, walls, walls.map reflection⟩

/-- The cell around the origin. -/
def originKey (l : Lattice α) : AnchorKey :=
  match l.space with
  | .euclidean => .grid 0 0
  | .hyperbolic => .cell []
  | .spherical => .globe

/-- The motion of a sequence of reflections. -/
def wordMotion (l : Lattice α) (w : Word) : Motion α :=
  w.foldl (fun m s => m * l.mirrors.get s) Motion.identity

/-- A whole number of squares as a displacement. -/
def gridMotion (x y : Int64) : Motion α :=
  Motion.displacement (Scalar.ofInt x.toInt) (Scalar.ofInt y.toInt)

/-- The frame of a cell. -/
def frame (l : Lattice α) : AnchorKey → Motion α
  | .grid x y => gridMotion x y
  | .cell w => l.wordMotion w
  | .globe => Motion.identity

/-- The frame of the cell `b` seen from the cell `a`; none when the frame of `a` has no inverse. -/
def between (l : Lattice α) : (a b : AnchorKey) → Option (Motion α)
  | .grid x y, .grid x' y' => some (gridMotion (x' - x) (y' - y))
  | .cell a, .cell b => some (l.wordMotion (Word.product (a.reverse ++ b)))
  | a, b => do return (← (l.frame a).inverse) * l.frame b

/-- The side of the central pentagon that a point lies farthest beyond, and how far. -/
def farthestSide (l : Lattice α) (p : Point α) : Side × α :=
  (List.finRange 5).foldl (fun best i =>
    let d := lorentz (l.walls.get i) p
    if best.2 < d then (i, d) else best) (Side.first, -Scalar.infinity)

/-- Reflects a placement into the pentagon that contains its centre, across `fuel` sides at most;
the word that names the pentagon, and the motion seen from it. -/
def cross (l : Lattice α) : (fuel : Nat) → Word → Motion α → Word × Motion α
  | 0, w, t => (w, t)
  | fuel + 1, w, t =>
    let (i, beyond) := l.farthestSide (l.space.normalize t.originImage)
    if Scalar.tolerance < beyond then cross l fuel (w.push i) (l.mirrors.get i * t) else (w, t)

/-- The placement `t`, given relative to a cell, relative to the cell that contains its centre. -/
def settle (l : Lattice α) (key : AnchorKey) (t : Motion α) : Placement α :=
  match key with
  | .grid x y =>
    let dx := squareOf (t.xz / t.zz)
    let dy := squareOf (t.yz / t.zz)
    ⟨.grid (x + dx) (y + dy), l.space.orthonormalize (gridMotion (-dx) (-dy) * t)⟩
  | .cell w =>
    let (w, t) := l.cross maxCrossings w t
    ⟨.cell w.normalForm, l.space.orthonormalize t⟩
  | .globe => ⟨.globe, l.space.orthonormalize t⟩

/-- The reflections that lead from a pentagon to itself, across each side and across each corner. -/
def cellSteps : List Word :=
  [] :: ((List.finRange 5).map fun i => [i]) ++ (List.finRange 5).map fun i => [i, Side.next i]

/-- The cells that touch a cell, itself included, each with its frame seen from that cell. -/
def around (l : Lattice α) : AnchorKey → List (AnchorKey × Motion α)
  | .grid x y =>
    let near : List Int64 := [-1, 0, 1]
    near.flatMap fun dx => near.map fun dy => (.grid (x + dx) (y + dy), gridMotion dx dy)
  | .cell w => cellSteps.map fun g => (.cell (g.foldl Word.push w).normalForm, l.wordMotion g)
  | .globe => [(.globe, Motion.identity)]

end Lattice

end Mosaic
