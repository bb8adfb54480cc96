import Mosaic.Description.Error
import Mosaic.Tiling.Adjacency

/-!
# Inspector — walking gluings by hand

An inspector starts at a shape of a tiling and follows gluings edge by edge. It keeps the polygons
it has placed, so that one can see how the gluings fit together, and it can go back.

* `Inspector.ofShape`, `Inspector.ofError?`: an inspector at a shape, also for a load that asked
  for one.
* `Inspector.advance`, `Inspector.retreat`: one step on, which may fail, and one step back.
* `Inspector.follow`, `Inspector.undo?`: the inspector that such a step comes to.
* `Inspector.describe`: the gluings of the shape it has come to.
-/

namespace Mosaic

/-- A shape and the motion that places it. -/
structure Placed (α : Type) where
  motion : Motion α
  shape : Nat

/-- The polygons placed: the first one, and those reached by following gluings, the last one
first. -/
structure Inspector (α : Type) where
  tiling : Tiling α
  first : Placed α
  followed : List (Placed α)

namespace Inspector

variable {α : Type}

/-- The polygons placed, in order. -/
def trail (i : Inspector α) : List (Placed α) := i.first :: i.followed.reverse

/-- The polygon placed last. -/
def current (i : Inspector α) : Placed α := i.followed.head?.getD i.first

/-- Takes back the polygon placed last and tells whether there was one; the first polygon stays. -/
def retreat (i : Inspector α) : Bool × Inspector α :=
  match i.followed with
  | [] => (false, i)
  | _ :: rest => (true, { i with followed := rest })

/-- The inspector one step back, if there is one. -/
def undo? (i : Inspector α) : Option (Inspector α) :=
  match i.retreat with
  | (true, j) => some j
  | (false, _) => none

/-- A number of primes. -/
def primes (n : Nat) : String := "".pushn '\'' n

/-- The gluings of the shape placed last, a line for each edge: edge and target, with as many primes
as the number of the shape, and a mark if the gluing is mirrored. -/
def describe (i : Inspector α) : List String :=
  let id := i.current.shape
  (i.tiling.shape id).connections.toList.zipIdx.map fun (c, k) =>
    toString k ++ primes id ++ " -> " ++ toString c.edge ++ primes c.shape
      ++ (if c.mirror then " (m)" else "")

variable [Scalar α]

/-- An inspector at a shape. -/
def ofShape (t : Tiling α) (shape : Nat) : Except (MapError α) (Inspector α) :=
  if t.shapes.isEmpty then .error .emptyTiling
  else if t.shapes.size ≤ shape then .error (.invalidNode shape)
  else .ok ⟨t, ⟨Motion.identity, shape⟩, []⟩

/-- An inspector for a load that ended with the request for one. -/
def ofError? : LoadError α → Option (Inspector α)
  | .inspection shape tiling => (ofShape tiling shape).toOption
  | _ => none

/-- The vertices of the polygon number `k`, in the frame of the first one. -/
def placedVertices? (i : Inspector α) (k : Nat) : Option (Array (Point α)) := do
  let p ← i.trail[k]?
  return (i.tiling.shape p.shape).vertices.map p.motion.apply

/-- Places the neighbour across an edge of the polygon placed last and answers its shape. In the
plane gluings are followed with scale and shear, so that edges of unequal length still meet. -/
def advance (edge : Nat) : EStateM (MapError α) (Inspector α) Nat := fun i =>
  let here := i.current
  match i.tiling.connection? here.shape edge with
  | none => .error (.invalidEdge here.shape edge) i
  | some c =>
    match i.tiling.adjacencyVia here.shape edge none (i.tiling.space == .euclidean) with
    | .error e => .error e i
    | .ok adjacency =>
      .ok c.shape { i with followed := ⟨here.motion * adjacency, c.shape⟩ :: i.followed }

/-- The inspector one step on. -/
def follow (i : Inspector α) (edge : Nat) : Except (MapError α) (Inspector α) :=
  match advance edge i with
  | .ok _ j => .ok j
  | .error e _ => .error e

end Inspector

end Mosaic
