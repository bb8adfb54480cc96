import Mosaic.Cyclic
import Mosaic.Shape.Polygon

/-!
# Shape — the tiles of a tiling

A shape is a polygon whose edges are glued to edges of shapes. Vertices, angles, edges and
connections are numbered alike: vertex `i` starts edge `i`, connection `i` is the gluing of edge
`i`, and angle `i` lies at the end of edge `i`.

* `Connection`, `Valence`: where an edge leads, and how many corners meet at a vertex.
* `Shape.stride`: distance of the copies of a connection around a shape of given symmetry.
* `Shape.ofCorners`: the shape with given corners, every edge glued to itself.
* `Shape.setRepeat`: declares that the connections of a shape repeat around it.
-/

namespace Mosaic

/-- The edge of a shape that an edge is glued to; a mirrored gluing reverses orientation. -/
structure Connection where
  shape : Nat
  edge : Nat
  mirror : Bool
  deriving DecidableEq, Repr

/-- Number of corners around a vertex; a vertex at infinity has no finite one. -/
inductive Valence where
  | finite (corners : Nat)
  | unbounded
  deriving DecidableEq, Repr

/-- The order of valences, the unbounded one last. -/
def Valence.le : Valence → Valence → Bool
  | finite a, finite b => a ≤ b
  | _, unbounded => true
  | unbounded, finite _ => false

/-- A tile of a tiling. -/
structure Shape (α : Type) where
  id : Nat
  vertices : Array (Point α)
  angles : Array α
  edges : Array (EdgeLength α)
  /-- The steps of the boundary the shape was built from. -/
  corners : Array (Corner α)
  connections : Array Connection
  /-- Pairs of vertices joined by a line of decoration. -/
  sublines : Array (Nat × Nat)
  /-- Stretch and shear of the gluing of each edge, in affine tilings. -/
  stretchShear : Array (α × α)
  /-- Whether the shape is one period of an infinite polygon. -/
  apeirogonal : Bool
  /-- How often the connections are declared to repeat around the shape. -/
  repeatCount : Nat
  /-- The period of the connections around the shape: edges may be glued to the same edges only if
  they are a multiple of it apart. -/
  period : Nat
  valences : Array Valence
  /-- For every vertex, the number of corners after which the walk around it comes back to an edge
  a multiple of the period away. -/
  vertexPeriods : Array Nat
  /-- The angles around every vertex. -/
  vertexAngles : Array (Array α)
  line : Bool
  grave : Bool

namespace Shape

variable {α : Type}

/-- A shape without corners. -/
def empty : Shape α where
  id := 0
  vertices := #[]
  angles := #[]
  edges := #[]
  corners := #[]
  connections := #[]
  sublines := #[]
  stretchShear := #[]
  apeirogonal := false
  repeatCount := 0
  period := 0
  valences := #[]
  vertexPeriods := #[]
  vertexAngles := #[]
  line := false
  grave := false

/-- Number of vertices. -/
def size (s : Shape α) : Nat := s.vertices.size

/-- Distance between the copies of a connection. -/
def stride (s : Shape α) : Nat := s.size / Nat.max s.repeatCount 1

/-- Vertex `i`, or the origin if there is none. -/
def vertex [Scalar α] (s : Shape α) (i : Nat) : Point α := (s.vertices[i]?).getD Point.origin

/-- The length of edge `i`, infinite if there is none. -/
def edge (s : Shape α) (i : Nat) : EdgeLength α := (s.edges[i]?).getD .infiniteBoth

/-- The gluing of edge `i`, to itself if there is none. -/
def connection (s : Shape α) (i : Nat) : Connection := (s.connections[i]?).getD ⟨s.id, i, false⟩

/-- The same shape with every edge glued to itself without stretch or shear; the two ends of an
apeirogon are glued to each other. -/
def resetConnections [Scalar α] (s : Shape α) : Shape α :=
  let n := s.size
  let partner (i : Nat) : Nat :=
    if s.apeirogonal && 2 ≤ n then
      if i + 2 == n then n - 1 else if i + 1 == n then n - 2 else i
    else i
  { s with
    connections := Array.ofFn fun i : Fin n => ⟨s.id, partner i, false⟩
    stretchShear := Array.replicate n (1, 0) }

/-- The shape with given corners, every edge glued to itself, with what is known of its
construction. -/
def ofCorners [Scalar α] (id : Nat) (space : Space) (combinatorial apeirogonal : Bool)
    (corners : Array (Corner α)) (repeatCount : Nat) :
    Except (Polygon.Open α) (Shape α × Polygon.Built α) := do
  let built ← Polygon.ofCorners space combinatorial apeirogonal corners
  let shape := { empty with
    id, corners, apeirogonal, repeatCount
    vertices := built.polygon.vertices
    angles := built.polygon.angles
    edges := built.polygon.edges }
  return (shape.resetConnections, built)

/-- The shape whose connections are declared to repeat `count` times around it: the first ones are
copied to the others. None unless `count` divides the number of vertices. -/
def setRepeat (s : Shape α) (count : Nat) : Option (Shape α) :=
  let n := s.angles.size
  if count = 0 ∨ n % count ≠ 0 then none
  else some { s with
    repeatCount := count
    connections := s.connections.mapIdx fun i c =>
      if i < n then (s.connections[i % (n / count)]?).getD c else c }

end Shape

end Mosaic
