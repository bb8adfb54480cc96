import Mosaic.Shape.Edge

/-!
# Shape — polygons from edges and angles

A polygon is given by its corners in order, each with the edge that leads to it and its inner
angle. Walking the edges and turning at the corners has to lead back to the start; an apeirogon is
one period of an infinite polygon and only has to be walked.

* `Polygon.walk`: the frame at the start of every edge, and the closing one.
* `Polygon.ofCorners`: the vertices about the centre, angles and edge lengths. An ideal corner
  takes two steps of the walk and lies where the sides beside it meet. An apeirogon gets two more
  edges, to its end at infinity and back.
* `Polygon.markIdeal`: edges beside a corner of angle zero reach infinity.
-/

namespace Mosaic

/-- One step of the boundary: the length of an edge and the angle at its end. An ideal corner is
made of this step and the next one. -/
structure Corner (α : Type) where
  edge : α
  angle : α
  ideal : Bool
  deriving Repr

/-- Vertices, angles and edges of a polygon. Vertex `i` starts edge `i`, and angle `i` lies at the
end of edge `i`. -/
structure Polygon (α : Type) where
  vertices : Array (Point α)
  angles : Array α
  edges : Array (EdgeLength α)

/-- How the walk around a polygon fails to close. -/
inductive ClosingDefect (α : Type) where
  /-- The walk ends at a distance from its start. -/
  | distance (d : α)
  /-- The walk ends at its start, turned by an angle. -/
  | angle (a : α)
  /-- The sides beside the ideal corner of this step never meet. -/
  | parallelSides (slot : Nat)
  deriving Repr

/-- The wording of a defect. -/
def ClosingDefect.message {α : Type} (number : α → String) : ClosingDefect α → String
  | distance d => "distance " ++ number d
  | angle a => "angle " ++ number a
  | parallelSides i => "sides around ideal vertex " ++ toString i ++ " are parallel"

namespace Polygon

variable {α : Type} [Scalar α]

/-- The polygon without edges. -/
def empty : Polygon α := ⟨#[], #[], #[]⟩

/-- The polygon with one more vertex, the edge that starts there and the angle at its end. -/
def push (p : Polygon α) (vertex : Point α) (angle : α) (edge : EdgeLength α) : Polygon α :=
  ⟨p.vertices.push vertex, p.angles.push angle, p.edges.push edge⟩

/-- The frame after an edge and the turn at its end. -/
def stepFrame (s : Space) (frame : Motion α) (c : Corner α) : Motion α :=
  frame * s.push c.edge * Motion.spin (c.angle + Scalar.pi)

/-- The frames at the starts of all edges, and the frame after the last corner. -/
def walk (s : Space) (corners : Array (Corner α)) : Array (Motion α) × Motion α :=
  corners.foldl (fun (frames, frame) c => (frames.push frame, stepFrame s frame c))
    (#[], Motion.identity)

/-- The defect of a walk that ends in the frame `last`. -/
def closingDefect (s : Space) (last : Motion α) : ClosingDefect α :=
  let d := s.distFromOrigin last.originImage
  if Scalar.abs d < 1e-9 then .angle (last.apply (s.axisPoint 1)).angle else .distance d

/-- The lengths of edges of which those beside a corner of angle zero reach infinity. -/
def markIdeal (angles : Array α) (edges : Array (EdgeLength α)) : Array (EdgeLength α) :=
  let m := Nat.min angles.size edges.size
  let zero (i : Nat) := (angles[i]?).any (· == 0)
  edges.mapIdx fun i e =>
    if m ≤ i then e
    else match zero i, zero ((i + m - 1) % m) with
      | true, true => .infiniteBoth
      | true, false => .infiniteLeft
      | false, true => .infiniteRight
      | false, false => e

/-- The sum of the starts of all edges, weighing each as a triple. -/
def startSum (frames : Array (Motion α)) : Point α :=
  frames.foldl (fun acc m => acc + m.originImage) Point.zero

/-- Adds to `c` points just inside the boundary, walking on from the frame `last`. -/
def nudgeInside (s : Space) (corners : Array (Corner α)) (last : Motion α) (c : Point α) :
    Point α :=
  (corners.foldl (fun (frame, c) k =>
    let inward := frame * s.push k.edge * Motion.spin ((k.angle + Scalar.pi) / 2)
    (frame * s.push k.edge * Motion.spin k.angle, c + inward.apply (s.axisPoint 0.01)))
    (last, c)).2

/-- The vertices of the steps of a walk, seen from the frame `back`, appended to `done`. Steps
are numbered from `i`; `last` is the frame after them. An ideal corner whose sides never meet is
reported by its number. -/
def place (back last : Motion α) :
    List (Corner α × Motion α) → Nat → Polygon α → Except Nat (Polygon α)
  | [], _, done => .ok done
  | [(c, m)], i, done =>
    if c.ideal then do return done.push (← meet m last i) 0 (.finite c.edge)
    else .ok (done.push (back.apply m.originImage) c.angle (.finite c.edge))
  | (c, m) :: next :: rest, i, done =>
    if c.ideal then do
      let far := match rest with
        | [] => last
        | (_, far) :: _ => far
      place back last rest (i + 2) (done.push (← meet m far i) 0 (.finite c.edge))
    else
      place back last (next :: rest) (i + 1)
        (done.push (back.apply m.originImage) c.angle (.finite c.edge))
where
  /-- Where the sides starting in two frames meet. -/
  meet (m far : Motion α) (i : Nat) : Except Nat (Point α) :=
    match chartIntersection m.originImage m.columnX far.originImage far.columnX with
    | some v => .ok (back.apply v).charted
    | none => .error i

/-- The polygon of an apeirogon with its end at infinity `v`: the last angle is halved, the other
half lies after the end, and the two edges at the end have no length of their own. -/
def closeAtInfinity (back last : Motion α) (v : Point α) (p : Polygon α) : Polygon α :=
  let half := (p.angles.back?).getD 0 / 2
  let p := { p with angles := p.angles.setIfInBounds (p.angles.size - 1) half }
  (p.push (back.apply last.originImage) 0 (.finite 0)).push (back.apply v).charted half (.finite 0)

/-- A polygon with what is known of its construction. -/
structure Built (α : Type) where
  polygon : Polygon α
  /-- The frames of the walk, the closing one last. -/
  chain : Array (Motion α)
  /-- The point the vertices are seen from. -/
  center : Option (Point α)
  /-- The end at infinity of an apeirogon, in the frame of the walk. -/
  infinity : Option (Point α)

/-- A walk that does not close: its frames and the defect. -/
structure Open (α : Type) where
  chain : Array (Motion α)
  defect : ClosingDefect α

/-- Points on a circle in place of vertices, for a tiling of which only the combinatorics count. -/
def placeholder (s : Space) (corners : Array (Corner α)) : Polygon α where
  vertices := corners.mapIdx fun k _ =>
    let a : α := -2 * Scalar.pi * Scalar.ofNat k / Scalar.ofNat corners.size
    (Motion.spin a * s.push 0.5).originImage
  angles := corners.map (·.angle)
  edges := corners.map (.finite ·.edge)

/-- The polygon with given corners. -/
def ofCorners (s : Space) (combinatorial apeirogonal : Bool) (corners : Array (Corner α)) :
    Except (Open α) (Built α) :=
  let (frames, last) := walk s corners
  let chain := frames.push last
  if combinatorial then .ok ⟨placeholder s corners, chain, none, none⟩
  else if !last.approxEq Motion.identity && !apeirogonal then
    .error ⟨chain, closingDefect s last⟩
  else
    let sum := startSum frames
    let sum := if sum.sqNorm < 1e-2 then nudgeInside s corners last sum else sum
    let infinity := if apeirogonal then some last.fixedPoint else none
    let center := s.normalize <| match infinity with
      | some v => s.towardsInfinity (s.mid Point.origin last.originImage) v
      | none => sum
    let back := s.pushFrom center
    match place back last (corners.zip frames).toList 0 empty with
    | .error slot => .error ⟨chain, .parallelSides slot⟩
    | .ok p =>
      let p := match infinity with
        | some v => closeAtInfinity back last v p
        | none => p
      .ok ⟨{ p with edges := markIdeal p.angles p.edges }, chain, some center, infinity⟩

end Polygon

end Mosaic
