import Mosaic.Tiling.Basic

/-!
# Tiling — the orientation double cover

A tiling with mirrored gluings is covered twice by one without: every shape gets a mirror image,
and a gluing leads to the mirror image of its target exactly when it is mirrored. The image of a
shape is walked in the opposite direction, so its edges, vertices and angles are renumbered; the
ends of an apeirogon keep the last two numbers.

* `Shape.reflected`: the mirror image of a shape, with its gluings in the order of its edges.
* `Tiling.liftConnection`: the gluing in the double cover.
* `Tiling.doubleCover`: the tiling itself if it has no mirrored gluing, else its double cover.
-/

namespace Mosaic

variable {α : Type}

/-- The items from the third on, and then the first two. -/
def rotateByTwo {β : Type} (xs : Array β) : Array β := xs.extract 2 xs.size ++ xs.extract 0 2

/-- The mirror image of a shape under `y ↦ -y`, walked in the direction of the shape. -/
def Shape.reflected [Neg α] (s : Shape α) : Shape α :=
  let vertices := s.vertices.map fun v => { v with y := -v.y }
  let vertices := vertices.extract 0 1 ++ (vertices.extract 1 vertices.size).reverse
  let edges := s.edges.reverse.map EdgeLength.flipped
  let k := s.angles.size - 1
  let angles := (s.angles.extract 0 k).reverse ++ s.angles.extract k s.angles.size
  let connections := s.connections.reverse
  if s.apeirogonal then
    { s with
      vertices := rotateByTwo vertices
      edges := rotateByTwo edges
      angles := rotateByTwo angles
      connections := rotateByTwo connections }
  else { s with vertices, edges, angles, connections }

/-- The number that edge `e` of a shape with `n` edges has in the mirror image. -/
def reflectedEdge (n : Nat) (apeirogonal : Bool) (e : Nat) : Nat :=
  let f := n - 1 - e
  if apeirogonal then (f + n - 2) % n else f

namespace Tiling

/-- Number of mirrored gluings. -/
def mirrorCount (t : Tiling α) : Nat :=
  t.shapes.foldl (fun n s => n + s.connections.countP (·.mirror)) 0

/-- The gluing in the double cover of `t` of an edge glued by `c`, where the edge belongs to a
mirror image or not. -/
def liftConnection (t : Tiling α) (image : Bool) (c : Connection) : Connection :=
  if c.mirror != image then
    let target := t.shape c.shape
    ⟨c.shape + t.shapes.size, reflectedEdge target.angles.size target.apeirogonal c.edge, false⟩
  else { c with mirror := false }

/-- A tiling without mirrored gluings that covers `t`: `t` itself if it has none, else the double
cover, in which the image of shape `i` follows all shapes of `t` at place `i`. -/
def doubleCover [Neg α] (t : Tiling α) : Tiling α :=
  let count := t.mirrorCount
  let t := { t with mirrorRules := count }
  if count = 0 then t
  else
    let sheet (image : Bool) (first : Nat) (shapes : Array (Shape α)) : Array (Shape α) :=
      shapes.mapIdx fun i s =>
        { s with id := first + i, connections := s.connections.map (t.liftConnection image) }
    { t with
      shapes := sheet false 0 t.shapes
        ++ sheet true t.shapes.size (t.shapes.map Shape.reflected) }

end Tiling

end Mosaic
