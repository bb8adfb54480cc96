import Mosaic.Conversion.Minimise
import Mosaic.Settings
import Mosaic.Tiling.Valence

/-!
# Conversion — the converted tiling

Every class that is its own target becomes a shape, with the corners of its sample and gluings to
the targets of the neighbours.

* `Shape.ofSample`: the shape of a cell with given corners and gluings.
* `Surveying.emit`: the tiling of all classes.
* `CellComplex.convert`: analysis, minimisation if the settings ask for it, and the tiling with its
  valences. The state of the complex is answered also when the conversion fails.
-/

namespace Mosaic

/-- Why a conversion fails. -/
inductive ConversionError (α : Type) where
  | walk (e : MapError α)
  | inconsistent (e : Inconsistency α)
  deriving Repr

variable {α : Type} [Scalar α]

/-- The shape of a cell with given corners and gluings, symmetric with a given period. Lengths are
zero beside improper corners and angles are zero at them; angles that sum up to less than nothing
belong to a cell walked the other way around. -/
def Shape.ofSample (id : Nat) (space : Space) (corners : Array (Point α))
    (connections : Array Connection) (period : Nat) : Shape α :=
  let t := corners.size
  let corner (j : Nat) : Point α := (corners[j % t]?).getD Point.origin
  let lengths := corners.mapIdx fun j a =>
    let b := corner (j + 1)
    if space.isProper a && space.isProper b then space.dist a b else 0
  let turns := corners.mapIdx fun j a =>
    let v := corner (j + 1)
    if space.isProper v then
      let back := space.pushFrom v
      wrapAngle ((back.apply a).angle - (back.apply (corner (j + 2))).angle)
    else 0
  let angles := if turns.foldl (· + ·) 0 < 0 then turns.map (- ·) else turns
  { Shape.empty with
    id, connections, angles, period
    vertices := corners
    edges := Polygon.markIdeal angles (lengths.map .finite)
    corners := (lengths.zip angles).map fun (d, a) => ⟨d, a, false⟩
    stretchShear := Array.replicate t (1, 0)
    repeatCount := t / Nat.max period 1 }

namespace Surveying

variable {σ κ : Type} (cx : CellComplex α σ κ)

/-- The gluing of edge `j` of a sample, where the classes listed become shapes in that order. -/
def emitConnection (order : List Nat) (sample : κ) (j : Nat) : Surveying α σ κ Connection := do
  let w ← cross cx ⟨sample, j⟩
  let target := (← record cx w.cell).target
  let w ← toSample cx w
  match order.idxOf? target with
  | some i => return ⟨i, w.spin, false⟩
  | none => throw (.unresolvedClass target)

/-- The shape of a class, which is number `id` in the list of classes. -/
def emitShape (order : List Nat) (id cls : Nat) : Surveying α σ κ (Shape α) := do
  let s ← get
  match s.classes[cls]? with
  | none => throw (.unresolvedClass cls)
  | some r =>
    let t := cx.degree s.source r.sample
    let corners := (List.range t).map (cx.corner s.source r.sample)
    let connections ← (List.range t).mapM (emitConnection cx order r.sample)
    return Shape.ofSample id cx.geometry.space corners.toArray connections.toArray r.period

/-- The tiling whose shapes are the classes that are their own target. -/
def emit (settings : Settings) : Surveying α σ κ (Tiling α) := do
  let masters := (← get).classes.masters
  let order := if settings.reverseOrder then masters.reverse else masters
  let shapes ← order.zipIdx.mapM fun (cls, id) => emitShape cx order id cls
  return { (Tiling.empty : Tiling α) with
    name := "converted"
    comment := "converted from: " ++ cx.geometry.title
    geometry := cx.geometry
    shapes := shapes.toArray
    affineLimit := settings.affineLimit }

end Surveying

/-- The number of cells that a budget allows to be examined again. A budget that does not fit a
signed word counts as none. -/
def Settings.allowance (s : Settings) : Nat :=
  if s.retestBudget < Nat.pow 2 63 then s.retestBudget else 0

/-- The tiling whose shapes are the classes of cells of a complex. -/
def CellComplex.convert {σ κ : Type} [BEq κ] [Hashable κ] (cx : CellComplex α σ κ)
    (settings : Settings) : EStateM (ConversionError α) σ (Tiling α) := fun source =>
  let survey : Surveying α σ κ (Tiling α) := do
    Surveying.analyse cx settings.allowance
    if settings.minimise then Surveying.minimise cx
    Surveying.emit cx settings
  match survey ⟨source, ∅, 0⟩ with
  | .error e s => .error (.walk e) s.source
  | .ok t s =>
    match Tiling.analyseValence.run t with
    | .ok _ t => .ok t s.source
    | .error e _ => .error (.inconsistent e) s.source

/-- The tiling whose shapes are the classes of tiles of an atlas. -/
def Atlas.convert (settings : Settings) : EStateM (ConversionError α) (Atlas α) (Tiling α) :=
  fun m => (Atlas.complex m.tiling).convert settings m

end Mosaic
