import Mosaic.Atlas.Step

/-!
# Atlas — balls around the origin

`Atlas.expand` resolves every edge of every tile less than a given number of steps from the origin
and lists the tiles reached, ring by ring, in the order in which they are met.
-/

namespace Mosaic.Atlas

variable {α : Type} [Scalar α]

/-- A growing ball: the tiles reached in order, those of the outermost ring, and the numbers of all
of them. -/
structure Ball where
  order : Array Nat
  ring : Array Nat
  seen : Std.HashSet Nat

/-- The ball with a tile added to the ring, unless it has been reached before. -/
def Ball.add (b : Ball) (id : Nat) : Ball :=
  if b.seen.contains id then b else ⟨b.order.push id, b.ring.push id, b.seen.insert id⟩

/-- Resolves all edges of a tile and adds the neighbours to the ball. -/
def visit (b : Ball) (id : Nat) : Walk α Ball := do
  let degree := (((← get).nodes[id]?).map (·.degree)).getD 0
  (List.range degree).foldlM (fun b edge => return b.add (← step id edge)) b

/-- Adds `radius` rings to a ball, or as many as there are. -/
def addRings : (radius : Nat) → Ball → Walk α Ball
  | 0, b => return b
  | radius + 1, b =>
    if b.ring.isEmpty then return b
    else do
      addRings radius (← b.ring.foldlM visit { b with ring := #[] })

/-- The tiles within `radius` steps of the origin. -/
def expand (radius : Nat) : Walk α (Array Nat) := do
  return (← addRings radius ⟨#[0], #[0], Std.HashSet.emptyWithCapacity.insert 0⟩).order

end Mosaic.Atlas
