import Mosaic.Plane.Space

/-!
# Plane — regular ideal polygons

The regular polygon with corners on the circle of radius `u` of the chart is described by the
polygon of the midpoints of its sides: `Space.regularIdeal` gives the side of that polygon and the
angle between a side and the line to the corner.
-/

namespace Mosaic

/-- Side of the polygon of midpoints, and corner angle, for the regular polygon with `n` sides on
the circle of radius `u` of the chart. -/
def Space.regularIdeal {α : Type} [Scalar α] (s : Space) (n u : α) : α × α :=
  let turn := Scalar.tau / n
  let before := ⟨Scalar.cos turn * u, -Scalar.sin turn * u, 1⟩
  let corner := ⟨u, 0, 1⟩
  let after := ⟨Scalar.cos turn * u, Scalar.sin turn * u, 1⟩
  let m₁ := s.mid before corner
  let m₂ := s.mid corner after
  let back := s.pushFrom m₁
  let β := back.originImage.angle
  let γ := (back.apply m₂).angle
  (s.dist m₁ m₂, Scalar.pi / 2 - (γ - β))

end Mosaic
