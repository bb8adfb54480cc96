import Mosaic.Tiling.Error

/-!
# Tiling — gluings

* `Tiling.connect`: glues two edges to each other, on all copies of both around their shapes.
* `Tiling.setStretchShear`: the affine part of a gluing, with the inverse for the partner.
* `Tiling.checkEdgeLengths`: glued edges are of equal length, except in affine tilings.
-/

namespace Mosaic

variable {α : Type}

/-- The shape with edge `e`, and the edges a multiple of the stride away, glued to `target`. Copies
are counted around the shape, so a stride that does not divide the size reaches every edge a
multiple of their common divisor away. -/
def Shape.glue (s : Shape α) (e : Nat) (target : Connection) : Shape α :=
  let n := s.size
  let d := s.stride
  if n = 0 ∨ d = 0 then s
  else { s with
    connections := (List.range (n / Nat.gcd n d)).foldl
      (fun cs k => cs.setIfInBounds ((e + k * d) % n) target) s.connections }

namespace Tiling

/-- Glues edge `e` of shape `a` to edge `f` of shape `b` and back. -/
def connect (t : Tiling α) (a e b f : Nat) (mirror : Bool) : Tiling α :=
  (t.modifyShape a (·.glue e ⟨b, f, mirror⟩)).modifyShape b (·.glue f ⟨a, e, mirror⟩)

variable [Scalar α]

/-- Stretch and shear of the gluing of an edge, with the inverse gluing for its partner. -/
def setStretchShear (t : Tiling α) (a e : Nat) (stretch shear : α) : Tiling α :=
  let c := (t.shape a).connection e
  let sign : α := if c.mirror then 1 else -1
  let put (i : Nat) (p : α × α) (s : Shape α) : Shape α :=
    { s with stretchShear := s.stretchShear.setIfInBounds i p }
  (t.modifyShape a (put e (stretch, shear))).modifyShape c.shape
    (put c.edge (1 / stretch, shear * sign * stretch))

/-- The first edge of a shape whose length is not that of its partner. -/
def lengthMismatch? (t : Tiling α) (s : Shape α) : Option (Inconsistency α) :=
  (s.edges.zip s.connections).toList.zipIdx.findSome? fun ((left, c), j) =>
    let right := (t.shape c.shape).edge c.edge
    if left.flipped.agrees right then none
    else some (.edgeLengthMismatch s.id j c left right)

/-- Accepts a tiling whose glued edges have equal lengths, and any affine one. -/
def checkEdgeLengths (t : Tiling α) : Except (Inconsistency α) Unit :=
  if t.geometry.isAffine then .ok ()
  else
    match t.shapes.toList.findSome? t.lengthMismatch? with
    | some e => .error e
    | none => .ok ()

end Tiling

end Mosaic
