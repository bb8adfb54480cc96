import Mosaic.Plane.Point

/-!
# Plane — motions

A motion of one of the three geometries is a linear map of homogeneous coordinates, kept as the
nine entries of its matrix. Affine maps of the plane are of the same kind.

* `Motion.apply`, and the product `m * n`, which applies `n` first.
* `Motion.inverse`: by cofactors; none when the determinant vanishes or is not finite.
* `Motion.spin`, `Motion.mirror`: rotation about the origin, and the reflection `x ↦ -x`.
-/

namespace Mosaic

/-- A linear map of homogeneous coordinates; `xy` is the entry of the row that yields `x` and the
column that takes `y`. -/
structure Motion (α : Type) where
  xx : α
  xy : α
  xz : α
  yx : α
  yy : α
  yz : α
  zx : α
  zy : α
  zz : α
  deriving Repr

namespace Motion

variable {α : Type} [Scalar α]

/-- The motion that moves nothing. -/
def identity : Motion α := ⟨1, 0, 0, 0, 1, 0, 0, 0, 1⟩

/-- The image of a point. -/
def apply (m : Motion α) (p : Point α) : Point α :=
  ⟨m.xx * p.x + m.xy * p.y + m.xz * p.z,
   m.yx * p.x + m.yy * p.y + m.yz * p.z,
   m.zx * p.x + m.zy * p.y + m.zz * p.z⟩

/-- Image of the direction of the abscissa. -/
def columnX (m : Motion α) : Point α := ⟨m.xx, m.yx, m.zx⟩

/-- Image of the direction of the ordinate. -/
def columnY (m : Motion α) : Point α := ⟨m.xy, m.yy, m.zy⟩

/-- Image of the origin. -/
def originImage (m : Motion α) : Point α := ⟨m.xz, m.yz, m.zz⟩

/-- The motion with given columns. -/
def ofColumns (x y z : Point α) : Motion α := ⟨x.x, y.x, z.x, x.y, y.y, z.y, x.z, y.z, z.z⟩

/-- The motion that applies `n` and then `m`. -/
def compose (m n : Motion α) : Motion α :=
  ofColumns (m.apply n.columnX) (m.apply n.columnY) (m.apply n.originImage)

instance : Mul (Motion α) := ⟨compose⟩

/-- Rotation about the origin by the angle `a`. -/
def spin (a : α) : Motion α :=
  let s := Scalar.sin a
  let c := Scalar.cos a
  ⟨c, -s, 0, s, c, 0, 0, 0, 1⟩

/-- The reflection `x ↦ -x`. -/
def mirror : Motion α := ⟨-1, 0, 0, 0, 1, 0, 0, 0, 1⟩

/-- The motion of the plane that displaces every point by `(x, y)`. -/
def displacement (x y : α) : Motion α := ⟨1, 0, x, 0, 1, y, 0, 0, 1⟩

/-- Rotation that brings the direction of `p` onto the positive axis of abscissas. -/
def spinToAxis (p : Point α) : Motion α := spin (-p.angle)

/-- Rotation that brings the positive axis of abscissas onto the direction of `p`. -/
def spinFromAxis (p : Point α) : Motion α := spin p.angle

/-- Entries equal within the tolerance. -/
def approxEq (m n : Motion α) : Bool :=
  Scalar.approxEq m.xx n.xx && Scalar.approxEq m.xy n.xy && Scalar.approxEq m.xz n.xz
    && Scalar.approxEq m.yx n.yx && Scalar.approxEq m.yy n.yy && Scalar.approxEq m.yz n.yz
    && Scalar.approxEq m.zx n.zx && Scalar.approxEq m.zy n.zy && Scalar.approxEq m.zz n.zz

/-- Whether all entries are numbers of finite size. -/
def isFinite (m : Motion α) : Bool :=
  m.columnX.isFinite && m.columnY.isFinite && m.originImage.isFinite

/-- Determinant, expanded along the first row. -/
def det (m : Motion α) : α :=
  m.xx * (m.yy * m.zz - m.yz * m.zy)
    - m.xy * (m.yx * m.zz - m.yz * m.zx)
    + m.xz * (m.yx * m.zy - m.yy * m.zx)

/-- The motion back; none when the determinant vanishes or is not finite. -/
def inverse (m : Motion α) : Option (Motion α) :=
  let d := m.det
  if Scalar.vanishes d || !Scalar.isFinite d then none
  else some
    ⟨(m.yy * m.zz - m.yz * m.zy) / d, (m.zy * m.xz - m.zz * m.xy) / d,
      (m.xy * m.yz - m.xz * m.yy) / d,
     (m.yz * m.zx - m.yx * m.zz) / d, (m.zz * m.xx - m.zx * m.xz) / d,
      (m.xz * m.yx - m.xx * m.yz) / d,
     (m.yx * m.zy - m.yy * m.zx) / d, (m.zx * m.xy - m.zy * m.xx) / d,
      (m.xx * m.yy - m.xy * m.yx) / d⟩

/-- The point `(x, y, 1)` that a motion of the plane fixes, from the first two rows of
`(m - 1) p = 0`. -/
def fixedPoint (m : Motion α) : Point α :=
  let a := m.xx - 1
  let d := m.yy - 1
  let det := m.xy * m.yx - d * a
  ⟨(m.xz * d - m.yz * m.xy) / det, (m.yz * a - m.xz * m.yx) / det, 1⟩

end Motion

/-- The angle reduced to the half-open turn from `-π`, excluded, to `π`. -/
def wrapAngle {α : Type} [Scalar α] (a : α) : α :=
  let a := Scalar.rem a Scalar.tau
  let a := if a ≤ -Scalar.pi then a + Scalar.tau else a
  if Scalar.pi < a then a - Scalar.tau else a

end Mosaic
