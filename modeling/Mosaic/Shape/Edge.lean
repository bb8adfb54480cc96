import Mosaic.Plane.Space

/-!
# Shape — edges

An edge has a length, or it reaches the boundary at infinity at one end or both. Seen against the
direction in which its polygon is walked, left and right trade places.

* `EdgeLength.flipped`: the edge read backwards.
* `EdgeLength.agrees`: the same length within the tolerance, or the same kind of infinite edge.
* `EdgeLength.midpoint`: the middle of an edge; an edge that reaches infinity has a point near its
  finite end instead, or its point nearest to the origin.
-/

namespace Mosaic

/-- The length of an edge, or which of its ends lie at infinity. -/
inductive EdgeLength (α : Type) where
  | finite (length : α)
  | infiniteLeft
  | infiniteRight
  | infiniteBoth
  deriving Repr

namespace EdgeLength

variable {α : Type}

/-- The same edge read in the opposite direction. -/
def flipped : EdgeLength α → EdgeLength α
  | infiniteLeft => infiniteRight
  | infiniteRight => infiniteLeft
  | e => e

variable [Scalar α]

/-- Lengths equal within the tolerance, or infinite in the same way. -/
def agrees : EdgeLength α → EdgeLength α → Bool
  | finite a, finite b => Scalar.approxEq a b
  | infiniteLeft, infiniteLeft => true
  | infiniteRight, infiniteRight => true
  | infiniteBoth, infiniteBoth => true
  | _, _ => false

/-- A point that stands for the middle of an edge from `l` to `r`. -/
def midpoint (s : Space) (l r : Point α) : EdgeLength α → Point α
  | infiniteBoth => s.footFromOrigin l r
  | infiniteRight => s.towardsInfinity r l
  | infiniteLeft => s.towardsInfinity l r
  | finite _ => s.mid l r

/-- The wording of an edge length in messages. -/
def message (number : α → String) : EdgeLength α → String
  | finite d => "Finite(" ++ number d ++ ")"
  | infiniteLeft => "InfiniteLeft"
  | infiniteRight => "InfiniteRight"
  | infiniteBoth => "InfiniteBoth"

end EdgeLength

end Mosaic
