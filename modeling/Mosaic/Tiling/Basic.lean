import Mosaic.Shape.Basic

/-!
# Tiling — catalogues of shapes

A tiling is a catalogue of shapes with glued edges, in one of four kinds of geometry, together
with the sliders and parameters of its description.

* `Tiling.connection?`: the gluing of an edge of the catalogue.
* `Tiling.asymmetricEdges`: the edges whose partner is not glued back to them.
-/

namespace Mosaic

/-- The geometry of a tiling. The affine one is the plane with gluings that scale and shear. -/
inductive Geometry where
  | euclidean
  | affine
  | hyperbolic
  | spherical
  deriving DecidableEq, Repr

namespace Geometry

/-- The space in which the shapes live. -/
def space : Geometry → Space
  | euclidean => .euclidean
  | affine => .euclidean
  | hyperbolic => .hyperbolic
  | spherical => .spherical

/-- Whether gluings may scale and shear. -/
def isAffine (g : Geometry) : Bool := g == affine

/-- Whether tilings are finite. -/
def isClosed (g : Geometry) : Bool := g == spherical

/-- The geometry of a given curvature. -/
def ofCurvature {α : Type} [Scalar α] (k : α) : Geometry :=
  if 0 < k then spherical else if k < 0 then hyperbolic else euclidean

/-- The name of a geometry in exported documents. -/
def name : Geometry → String
  | euclidean => "euclidean"
  | affine => "affine"
  | hyperbolic => "hyperbolic"
  | spherical => "spherical"

/-- The name of a geometry in comments. -/
def title : Geometry → String
  | euclidean => "Euclidean"
  | affine => "Affine"
  | hyperbolic => "Hyperbolic"
  | spherical => "Spherical"

end Geometry

/-- A parameter of a description, with its declared value, its value now, and its range. -/
structure Slider (β : Type) where
  name : String
  zero : β
  current : β
  min : β
  max : β
  deriving Repr

/-- A catalogue of shapes with the parameters of its description. -/
structure Tiling (α : Type) where
  /-- Raised by every load, so that holders of derived data notice it. -/
  order : Nat
  name : String
  comment : String
  geometry : Geometry
  shapes : Array (Shape α)
  sliders : Array (Slider α)
  intSliders : Array (Slider Int)
  options : Array String
  isStar : Bool
  isCombinatorial : Bool
  haveLine : Bool
  haveGrave : Bool
  haveTree : Bool
  haveValence : Bool
  yendorBacksteps : Int
  cscale : α
  range : Int
  floorScale : α
  boundaryRatio : α
  /-- How many nodes the search for an existing tile may examine in affine maps. -/
  affineLimit : Nat
  /-- Number of mirrored gluings that were eliminated. -/
  mirrorRules : Nat
  minValence : Option Valence
  maxValence : Option Valence
  treeStates : Array String
  firstTreeState : Option Int

namespace Tiling

variable {α : Type}

/-- The name of a tiling that has not been given one. -/
def unnamed : String := "unnamed"

/-- The search limit of affine maps unless a description sets one. -/
def defaultAffineLimit : Nat := 200

/-- A tiling without shapes. -/
def empty [Scalar α] : Tiling α where
  order := 0
  name := unnamed
  comment := ""
  geometry := .hyperbolic
  shapes := #[]
  sliders := #[]
  intSliders := #[]
  options := #[]
  isStar := false
  isCombinatorial := false
  haveLine := false
  haveGrave := false
  haveTree := false
  haveValence := false
  yendorBacksteps := 0
  cscale := 1
  range := 0
  floorScale := 0.5
  boundaryRatio := 1
  affineLimit := defaultAffineLimit
  mirrorRules := 0
  minValence := none
  maxValence := none
  treeStates := #[]
  firstTreeState := none

/-- The space of the tiling. -/
def space (t : Tiling α) : Space := t.geometry.space

/-- Shape `i` of the catalogue, or a shape without corners if there is none. -/
def shape (t : Tiling α) (i : Nat) : Shape α := (t.shapes[i]?).getD Shape.empty

/-- The gluing of an edge of the catalogue. -/
def connection? (t : Tiling α) (shape edge : Nat) : Option Connection := do
  (← t.shapes[shape]?).connections[edge]?

/-- Replaces a shape of the catalogue by its image under `f`. -/
@[inline] def modifyShape (t : Tiling α) (i : Nat) (f : Shape α → Shape α) : Tiling α :=
  { t with shapes := t.shapes.modify i f }

/-- Whether edge `k` of shape `s` is glued to an edge that is glued back to a copy of it. -/
def isSymmetricAt (t : Tiling α) (s : Shape α) (k : Nat) (c : Connection) : Bool :=
  (t.connection? c.shape c.edge).any fun back =>
    back.shape == s.id && back.mirror == c.mirror && congruent back.edge k s.stride

/-- The edges, as pairs of shape and edge, that are not glued back to by their partner. -/
def asymmetricEdges (t : Tiling α) : List (Nat × Nat) :=
  t.shapes.toList.flatMap fun s =>
    s.connections.toList.zipIdx.filterMap fun (c, k) =>
      if t.isSymmetricAt s k c then none else some (s.id, k)

end Tiling

end Mosaic
