import Mosaic.Scalar.Tolerance

/-!
# Plane — points

A point of the plane, the sphere or the hyperbolic plane is a triple of homogeneous coordinates:
plane points lie on `z = 1`, points of the sphere on the unit sphere, and points of the hyperbolic
plane on the sheet `z² - x² - y² = 1`. All three share the projective chart `z = 1`.

* `Point.chart`: the same point with `z = 1`, unless it lies at infinity.
* `chartIntersection`: where two lines, each given by a point and a direction, meet in the chart.
-/

namespace Mosaic

/-- Homogeneous coordinates of a point. -/
structure Point (α : Type) where
  x : α
  y : α
  z : α
  deriving Repr

namespace Point

variable {α : Type} [Scalar α]

/-- The origin of all three models. -/
def origin : Point α := ⟨0, 0, 1⟩

/-- The triple of zeros, which is no point but the unit of addition. -/
def zero : Point α := ⟨0, 0, 0⟩

instance : Add (Point α) := ⟨fun p q => ⟨p.x + q.x, p.y + q.y, p.z + q.z⟩⟩

instance : Sub (Point α) := ⟨fun p q => ⟨p.x - q.x, p.y - q.y, p.z - q.z⟩⟩

/-- The triple with every coordinate multiplied by `k`. -/
def scale (p : Point α) (k : α) : Point α := ⟨p.x * k, p.y * k, p.z * k⟩

/-- Sum of the squares of the coordinates. -/
def sqNorm (p : Point α) : α := p.x * p.x + p.y * p.y + p.z * p.z

/-- `z² - x² - y²`, positive inside the hyperbolic plane and zero on its boundary. -/
def depth (p : Point α) : α := p.z * p.z - p.x * p.x - p.y * p.y

/-- Direction in which a point is seen from the origin. -/
def angle (p : Point α) : α := Scalar.atan2 p.y p.x

/-- Whether all coordinates are numbers of finite size. -/
def isFinite (p : Point α) : Bool :=
  Scalar.isFinite p.x && Scalar.isFinite p.y && Scalar.isFinite p.z

/-- Coordinates equal within the tolerance. -/
def approxEq (p q : Point α) : Bool :=
  Scalar.approxEq p.x q.x && Scalar.approxEq p.y q.y && Scalar.approxEq p.z q.z

/-- The point with `z = 1`; none when it lies at infinity of the chart. -/
def chart (p : Point α) : Option (Point α) :=
  if Scalar.vanishes p.z then none else some (p.scale (1 / p.z))

/-- The point in the chart where it has one there. -/
def charted (p : Point α) : Point α := p.chart.getD p

end Point

/-- The point of the chart where the line through `a` along `u` meets the line through `b` along
`v`. The directions are projected to the chart along with their points; none when they are
parallel there or a point lies at infinity. -/
def chartIntersection {α : Type} [Scalar α] (a u b v : Point α) : Option (Point α) := do
  let a ← a.chart
  let b ← b.chart
  let u := u - a.scale u.z
  let v := v - b.scale v.z
  let dx := b.x - a.x
  let dy := b.y - a.y
  let den := u.x * v.y - u.y * v.x
  if Scalar.vanishes den then none
  else
    let r := (v.y * dx - dy * v.x) / den
    let p := a + u.scale r
    return ⟨p.x, p.y, 1⟩

end Mosaic
