import Mosaic.Plane.Space

/-!
# Plane — motions that drifted

Long products of motions lose the exact form of an isometry to rounding. `Space.orthonormalize`
gives the nearby isometry: in the plane the linear part is made a rotation or reflection, on the
sphere and in the hyperbolic plane the columns are made orthonormal for the form of the model,
beginning with the image of the origin.
-/

namespace Mosaic

variable {α : Type} [Scalar α]

/-- The bilinear form of a curved model: the third coordinate counts negative for the hyperbolic
plane. -/
def Space.form (s : Space) (p q : Point α) : α :=
  p.x * q.x + p.y * q.y + (match s with | .hyperbolic => -1 | _ => 1) * p.z * q.z

/-- `c` without its component along `e`. -/
def Space.reject (s : Space) (c e : Point α) : Point α := c - e.scale (s.form c e / s.form e e)

/-- The multiple of `c` of unit length, where its length is positive. -/
def Space.unit (s : Space) (c : Point α) : Point α :=
  let len := Scalar.sqrt (Scalar.abs (s.form c c))
  if 0 < len then c.scale (1 / len) else c

/-- The rotation, or rotation and reflection, nearest to the linear part of a motion of the plane,
with the same displacement. -/
def Motion.straighten (m : Motion α) : Motion α :=
  let n := Scalar.hypot m.xx m.yx
  let ux := m.xx / n
  let uy := m.yx / n
  let p := m.xy * ux + m.yy * uy
  let vx := m.xy - p * ux
  let vy := m.yy - p * uy
  let k := Scalar.hypot vx vy
  let divide := decide (Scalar.ulp < Scalar.abs m.zz)
  ⟨ux, vx / k, if divide then m.xz / m.zz else m.xz,
   uy, vy / k, if divide then m.yz / m.zz else m.yz,
   0, 0, 1⟩

/-- The isometry next to a motion that drifted. -/
def Space.orthonormalize (s : Space) (m : Motion α) : Motion α :=
  match s with
  | .euclidean => m.straighten
  | _ =>
    let z := s.unit m.originImage
    let x := s.unit (s.reject m.columnX z)
    let y := s.unit (s.reject (s.reject m.columnY z) x)
    Motion.ofColumns x y z

end Mosaic
