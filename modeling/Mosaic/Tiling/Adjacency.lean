import Mosaic.Tiling.Error

/-!
# Tiling — neighbours across an edge

* `Tiling.adjacency`: the motion from the frame of a neighbour into the frame of a shape, through
  the edge it is glued by or another edge of the same shape.
* `Tiling.gap`: the distance of two points of which either may lie at infinity.

A gluing that misplaces the ends of the shared edge is refused, unless only the combinatorics of
the tiling count.
-/

namespace Mosaic

variable {α : Type} [Scalar α]

/-- How far the ends of a shared edge may be misplaced, both together. -/
def adjacencySlack : α := 0.1

/-- Distance of two points; in the hyperbolic plane points near or beyond the boundary are compared
in the chart, and those at infinity of the chart are infinitely far. -/
def Space.gap (s : Space) (a b : Point α) : α :=
  let inside (p : Point α) : Bool := 1e3 * Scalar.tolerance < p.depth
  if s = .hyperbolic ∧ !(inside a && inside b) then
    match a.chart, b.chart with
    | some a, some b => Scalar.hypot (a.x - b.x) (a.y - b.y)
    | _, _ => Scalar.infinity
  else s.dist a b

namespace Tiling

/-- Scaling, stretch and shear across edge `e` of `s`, where the edges have lengths in the ratio
`scale`. -/
def affinePart (s : Shape α) (e : Nat) (scale : α) : Motion α :=
  let (stretch, shear) := (s.stretchShear[e]?).getD (1, 0)
  { Motion.identity with xx := scale, yy := scale * stretch, xy := stretch * shear * scale }

/-- The motion that takes the frame of the neighbour across edge `e` of shape `a` into the frame of
`a`. The neighbour is entered through edge `entry`, or through the edge the gluing names. -/
def adjacencyVia (t : Tiling α) (a e : Nat) (entry : Option Nat) (affine : Bool) :
    Except (MapError α) (Motion α) :=
  let space := t.space
  match t.shapes[a]?, t.connection? a e with
  | some s, some c =>
    let other := t.shape c.shape
    let f := entry.getD c.edge
    if other.size ≤ f then .error (.invalidEdge c.shape f)
    else
      let l := s.vertex e
      let r := s.vertex ((e + 1) % s.size)
      let middle := (s.edge e).midpoint space l r
      let home := space.pushFrom middle
      let l' := other.vertex f
      let r' := other.vertex ((f + 1) % other.size)
      let home' := space.pushFrom ((other.edge f).midpoint space l' r')
      let turn := space.pushTo middle * Motion.spinFromAxis (home.apply r)
      let scaled :=
        if affine then turn * affinePart s e (space.dist l r / space.dist l' r') else turn
      let flipped := if c.mirror then scaled * Motion.mirror else scaled
      let m := flipped * Motion.spinToAxis (home'.apply l') * home'
      let (l, r) := if c.mirror then (r, l) else (l, r)
      let mismatch := space.gap l (m.apply r') + space.gap r (m.apply l')
      if !(mismatch ≤ adjacencySlack) && !t.isCombinatorial then
        .error (.adjacencyMismatch a e mismatch)
      else .ok m
  | _, _ => .error (.invalidEdge a e)

/-- The motion that takes the frame of the neighbour across edge `e` of shape `a`, glued as the
catalogue says, into the frame of `a`. -/
def adjacency (t : Tiling α) (a e : Nat) : Except (MapError α) (Motion α) :=
  t.adjacencyVia a e none t.geometry.isAffine

end Tiling

end Mosaic
