import Mosaic.Anchor.Lattice
import Mosaic.Tiling.Adjacency
import Std.Data.HashMap

/-!
# Atlas — placed tiles

An atlas holds the tiles of a tiling that have been visited, each with its place and with links to
the neighbours that have been resolved. In affine tilings places are absolute; otherwise they are
relative to cells of the anchor lattice, and tiles are filed by cell.

* `Link`, `Node`, `Atlas`: a resolved edge, a placed tile, and the atlas.
* `Atlas.ofTiling`: the atlas with one tile of the first shape.
* `Atlas.motion?`, `Atlas.relativeMotion?`, `Atlas.adjacencyOf`: where tiles lie.
* `Atlas.link`, `Atlas.insert`: the two changes that an atlas undergoes.
-/

namespace Mosaic

/-- A resolved edge: the neighbour, its edge, and whether the gluing reverses orientation. -/
structure Link where
  node : Nat
  edge : Nat
  mirror : Bool
  deriving DecidableEq, Repr

/-- A placed tile. -/
structure Node where
  shape : Nat
  /-- Number of steps from the origin when the tile was placed. -/
  distance : Nat
  /-- Whether an odd number of mirrored gluings separates the tile from the origin. -/
  parity : Bool
  links : Array (Option Link)

namespace Node

/-- Number of edges. -/
def degree (n : Node) : Nat := n.links.size

/-- The link of an edge, if it has been resolved. -/
def link? (n : Node) (edge : Nat) : Option Link := (n.links[edge]?).join

/-- A tile without resolved edges. -/
def fresh (shape degree distance : Nat) (parity : Bool) : Node :=
  ⟨shape, distance, parity, Array.replicate degree none⟩

/-- The tile with an edge resolved. -/
def setLink (n : Node) (edge : Nat) (l : Link) : Node :=
  { n with links := n.links.setIfInBounds edge (some l) }

/-- Whether an edge is unresolved, or already leads to edge `back` of node `id`. -/
def canLink (n : Node) (edge id back : Nat) : Bool :=
  (n.link? edge).all fun l => l.node == id && l.edge == back

end Node

/-- The tiles of a tiling that have been visited. -/
structure Atlas (α : Type) where
  tiling : Tiling α
  lattice : Lattice α
  nodes : Array Node
  places : Array (Placement α)
  /-- The tiles in each cell, in the order in which they were placed; none in affine tilings. -/
  buckets : Std.HashMap AnchorKey (Array Nat)

namespace Atlas

variable {α : Type}

/-- Number of tiles. -/
def size (m : Atlas α) : Nat := m.nodes.size

/-- Whether places are absolute and may be affine maps. -/
def isAffine (m : Atlas α) : Bool := m.tiling.geometry.isAffine

/-- The link of an edge of a tile, if it has been resolved. -/
def neighbour? (m : Atlas α) (id edge : Nat) : Option Link := do (← m.nodes[id]?).link? edge

/-- Places a tile. Its number is the number of tiles before it. -/
def insert (m : Atlas α) (node : Node) (place : Placement α) : Atlas α :=
  let id := m.nodes.size
  let affine := m.isAffine
  { m with
    nodes := m.nodes.push node
    places := m.places.push place
    buckets :=
      if affine then m.buckets
      else m.buckets.alter place.key fun ids => some ((ids.getD #[]).push id) }

/-- Links edge `e` of tile `a` and edge `f` of tile `b` to each other. -/
def link (m : Atlas α) (a e b f : Nat) (mirror : Bool) : Atlas α :=
  { m with
    nodes := (m.nodes.modify a (·.setLink e ⟨b, f, mirror⟩)).modify b (·.setLink f ⟨a, e, mirror⟩) }

/-- Number of cells with tiles. -/
def bucketCount (m : Atlas α) : Nat := m.buckets.size

/-- The cell of a tile and its motion from there; none in affine tilings. -/
def anchor? (m : Atlas α) (id : Nat) : Option (Placement α) :=
  if m.isAffine then none else m.places[id]?

variable [Scalar α]

/-- The place of the first tile, moved and turned so that none of its vertices and edges lies on an
axis. -/
def originMotion (s : Space) : Motion α := s.push 0.01241 * Motion.spin 1.4117 * s.push 0.1241

/-- The atlas with a single tile, of the first shape. -/
def ofTiling (t : Tiling α) : Except (MapError α) (Atlas α) :=
  match t.shapes[0]? with
  | none => .error .emptyTiling
  | some first =>
    let space := t.space
    let lattice := Lattice.ofSpace space
    let place :=
      if t.geometry.isAffine then ⟨.globe, originMotion space⟩
      else lattice.settle lattice.originKey (originMotion space)
    let m : Atlas α := ⟨t, lattice, #[], #[], ∅⟩
    .ok (m.insert (Node.fresh 0 first.size 0 false) place)

/-- The place of a tile, or the origin if there is none. -/
def place (m : Atlas α) (id : Nat) : Placement α :=
  (m.places[id]?).getD ⟨.globe, Motion.identity⟩

/-- The frame of a tile. -/
def motion? (m : Atlas α) (id : Nat) : Option (Motion α) := do
  let p ← m.places[id]?
  return m.lattice.frame p.key * p.offset

/-- The centre of a tile. -/
def center? (m : Atlas α) (id : Nat) : Option (Point α) := do
  return (← m.motion? id).apply Point.origin

/-- The frame of the tile `b` seen from the tile `a`. -/
def relativeMotion? (m : Atlas α) (a b : Nat) : Option (Motion α) := do
  let p ← m.places[a]?
  let q ← m.places[b]?
  let link ← m.lattice.between p.key q.key
  return (← p.offset.inverse) * link * q.offset

/-- The motion from the frame of the neighbour across an edge, entered through the edge that the
link says if there is one. -/
def adjacencyOf (m : Atlas α) (id edge : Nat) : Except (MapError α) (Motion α) :=
  match m.nodes[id]? with
  | none => .error (.invalidNode id)
  | some n => m.tiling.adjacencyVia n.shape edge ((n.link? edge).map (·.edge)) m.isAffine

end Atlas

end Mosaic
