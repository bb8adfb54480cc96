import Mosaic.Atlas.Basic
import Mosaic.View.Document

/-!
# View — placed tiles

The exported form of tiles of an atlas: shape, distance and parity, and the vertices where they
lie. Numbers that no tile has are passed over.
-/

namespace Mosaic

open Document

variable {α : Type} [Scalar α]

/-- A point by the names of its coordinates. -/
def Point.view (p : Point α) : Document α :=
  record [("x", number p.x), ("y", number p.y), ("z", number p.z)]

/-- A tile of an atlas. -/
def Atlas.nodeView? (m : Atlas α) (id : Nat) : Option (Document α) := do
  let node ← m.nodes[id]?
  let motion ← m.motion? id
  let shape ← m.tiling.shapes[node.shape]?
  return record
    [("id", natural id), ("shape", natural node.shape), ("distance", natural node.distance),
     ("parity", flag node.parity),
     ("vertices", ofArray (fun v => (motion.apply v).view) shape.vertices)]

/-- The tiles of an atlas with given numbers. -/
def Atlas.nodesView (m : Atlas α) (ids : List Nat) : Document α :=
  list (ids.filterMap m.nodeView?)

end Mosaic
