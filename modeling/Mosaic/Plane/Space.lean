import Mosaic.Plane.Motion

/-!
# Plane — the three geometries

The plane, the hyperbolic plane and the sphere share one set of operations on homogeneous
coordinates; they differ in the sign that couples the third row of a push.

* `Space.push`, `Space.pushTo`, `Space.pushFrom`: pushes along the axis, to a point and back.
* `Space.normalize`, `Space.dist`, `Space.mid`: the model point of a triple, distance, midpoint.
* `Space.isProper`, `Space.samePoint`: points of the hyperbolic plane against those on or beyond
  its boundary, and coincidence of points of either kind.
* `Space.towardsInfinity`, `Space.footFromOrigin`: stand-ins for midpoints of infinite edges.
-/

namespace Mosaic

/-- One of the three geometries of constant curvature. -/
inductive Space where
  | euclidean
  | hyperbolic
  | spherical
  deriving DecidableEq, Repr

namespace Space

variable {α : Type} [Scalar α]

/-- Sign of the coupling of the third row: positive for the hyperbolic plane, negative for the
sphere, zero for the plane. -/
def coupling : Space → α
  | euclidean => 0
  | hyperbolic => 1
  | spherical => -1

/-- The motion by `d` along the axis of abscissas. -/
def push (s : Space) (d : α) : Motion α :=
  match s with
  | euclidean => ⟨1, 0, d, 0, 1, 0, 0, 0, 1⟩
  | hyperbolic =>
    let ch := Scalar.cosh d
    let sh := Scalar.sinh d
    ⟨ch, 0, sh, 0, 1, 0, sh, 0, ch⟩
  | spherical =>
    let c := Scalar.cos d
    let s := Scalar.sin d
    ⟨c, 0, s, 0, 1, 0, -s, 0, c⟩

/-- The point at distance `d` from the origin on the axis of abscissas. -/
def axisPoint (s : Space) (d : α) : Point α := (s.push d).originImage

/-- The multiple of a triple that lies on the model, where there is one. -/
def normalize (s : Space) (p : Point α) : Point α :=
  match s with
  | euclidean => p.charted
  | hyperbolic =>
    let q := p.depth
    if 0 < q then p.scale ((if p.z < 0 then -1 else 1) / Scalar.sqrt q) else p
  | spherical =>
    let n := Scalar.sqrt p.sqNorm
    if 0 < n then p.scale (1 / n) else p

/-- The push along the line from the origin to `h` that takes the origin to `h`. -/
def pushTo (s : Space) (h : Point α) : Motion α :=
  let h := s.normalize h
  let g : α := s.coupling
  let k := match s with
    | euclidean => 0
    | _ => g / (1 + h.z)
  ⟨1 + k * h.x * h.x, k * h.x * h.y, h.x,
   k * h.x * h.y, 1 + k * h.y * h.y, h.y,
   g * h.x, g * h.y, match s with
    | euclidean => 1
    | _ => h.z⟩

/-- The push that takes `h` to the origin. -/
def pushFrom (s : Space) (h : Point α) : Motion α :=
  let h := s.normalize h
  s.pushTo ⟨-h.x, -h.y, h.z⟩

/-- Distance of two points. -/
def dist (s : Space) (a b : Point α) : α :=
  let d := s.normalize a - s.normalize b
  match s with
  | euclidean => Scalar.hypot d.x d.y
  | hyperbolic =>
    2 * Scalar.arsinh (Scalar.sqrt (Scalar.abs (d.x * d.x + d.y * d.y - d.z * d.z)) / 2)
  | spherical => 2 * Scalar.asin (Scalar.min (Scalar.sqrt d.sqNorm / 2) 1)

/-- Distance of a point from the origin. -/
def distFromOrigin (s : Space) (p : Point α) : α := s.dist Point.origin p

/-- Whether a triple stands for a point of the geometry: in the hyperbolic plane, one inside the
boundary and not on or beyond it. -/
def isProper (s : Space) (p : Point α) : Bool :=
  match s with
  | hyperbolic => Scalar.tolerance < p.depth
  | _ => true

/-- Coincidence: proper points are compared on the model, others in the chart. -/
def samePoint (s : Space) (a b : Point α) : Bool :=
  if s.isProper a && s.isProper b then (s.normalize a).approxEq (s.normalize b)
  else
    match a.chart, b.chart with
    | some a, some b => a.approxEq b
    | _, _ => false

/-- The midpoint of two points. -/
def mid (s : Space) (a b : Point α) : Point α :=
  match s with
  | euclidean => s.normalize (s.normalize a + s.normalize b)
  | _ => s.normalize (a + b)

/-- The point at distance one from `p` in the direction of `far`. -/
def towardsInfinity (s : Space) (p far : Point α) : Point α :=
  let toward := Motion.spinFromAxis ((s.pushFrom p).apply far)
  (s.pushTo p).apply (toward.apply (s.axisPoint 1))

/-- The point nearest to the origin on the line through `a` and `b`, as seen in the chart. Where
they coincide, or lie at infinity of the chart, it is `a`. -/
def footFromOrigin (s : Space) (a b : Point α) : Point α :=
  if (a - b).sqNorm < Scalar.tolerance * Scalar.tolerance || !a.isFinite then a
  else
    match a.chart, b.chart with
    | some p, some q =>
      let dx := p.x - q.x
      let dy := p.y - q.y
      let wp := 0 + p.x * dx + p.y * dy
      let wq := 0 - q.x * dx - q.y * dy
      let h := (p.scale wq + q.scale wp).scale (1 / (wp + wq))
      s.normalize ⟨h.x, h.y, 1⟩
    | _, _ => a

end Space

end Mosaic
