import Mosaic.Atlas.Step

/-!
# Conversion — cell complexes

A tessellation that can be walked cell by cell, with cells of finitely many classes. Cells may come
into being as they are reached, so the operations work on a state of their own.

* `CellComplex`: what a conversion asks of a tessellation.
* `Atlas.complex`: the tiles of an atlas, walked across gluings that keep orientation.
* `CellTable`, `CellTable.complex`: a finite tessellation given cell by cell.
-/

namespace Mosaic

/-- A tessellation with cells of type `κ`, walked on states of type `σ`. Corner `k` of a cell starts
its edge `k`; cells of different classes never become one shape. -/
structure CellComplex (α σ κ : Type) where
  geometry : Geometry
  start : EStateM (MapError α) σ κ
  degree : σ → κ → Nat
  classOf : σ → κ → Nat
  /-- How many classes there are at most. -/
  classBound : Nat
  /-- The neighbour across an edge, and the edge of the neighbour that leads back. -/
  step : κ → Nat → EStateM (MapError α) σ (κ × Nat)
  /-- A corner of a cell in the frame of the cell. -/
  corner : σ → κ → Nat → Point α

namespace Atlas

variable {α : Type} [Scalar α]

/-- The class of a tile: its shape. -/
def shapeOf (m : Atlas α) (id : Nat) : Nat := ((m.nodes[id]?).map (·.shape)).getD 0

/-- The neighbour across an edge and the edge that leads back, unless the gluing is mirrored. -/
def stepOriented (id edge : Nat) : Walk α (Nat × Nat) := do
  let _ ← step id edge
  let m ← get
  match m.neighbour? id edge with
  | none => throw (.invalidEdge (m.shapeOf id) edge)
  | some l => if l.mirror then throw (.nonOrientable id edge) else return (l.node, l.edge)

/-- The tiles of an atlas of `t` as cells. -/
def complex (t : Tiling α) : CellComplex α (Atlas α) Nat where
  geometry := t.geometry
  start := return 0
  degree m id := ((m.nodes[id]?).map (·.degree)).getD 0
  classOf := shapeOf
  classBound := t.shapes.size
  step := stepOriented
  corner m id k :=
    let s := m.tiling.shape (m.shapeOf id)
    s.vertex (k % s.size)

end Atlas

/-- A cell of a table: its class, its corners, and where its edges lead. -/
structure TableCell (α : Type) where
  cls : Nat
  corners : Array (Point α)
  links : Array (Option (Nat × Nat))

/-- A finite tessellation given cell by cell. -/
structure CellTable (α : Type) where
  geometry : Geometry
  start : Nat
  cells : Array (TableCell α)

namespace CellTable

variable {α : Type} [Scalar α]

/-- A cell of the table, or one without corners if there is none. -/
def cell (t : CellTable α) (i : Nat) : TableCell α := (t.cells[i]?).getD ⟨0, #[], #[]⟩

/-- The cells of a table; they are all there from the start. -/
def complex (t : CellTable α) : CellComplex α Unit Nat where
  geometry := t.geometry
  start := if t.cells.isEmpty then throw .emptyTiling else return t.start
  degree _ i := (t.cell i).links.size
  classOf _ i := (t.cell i).cls
  classBound := t.cells.size
  step i edge :=
    match ((t.cell i).links[edge]?).join with
    | some link => return link
    | none => throw (.invalidEdge (t.cell i).cls edge)
  corner _ i k := ((t.cell i).corners[k]?).getD Point.origin

end CellTable

end Mosaic
