import Mosaic.Tiling.Basic

/-!
# Settings — choices of the user

The choices that loading and conversion depend on. `Settings.default` holds where nothing was
chosen.
-/

namespace Mosaic

/-- Choices for loading and conversion. -/
structure Settings where
  /-- Search limit of affine maps; a description may override it. -/
  affineLimit : Nat
  /-- Replace tilings with mirrored gluings by their double cover. -/
  doubleCover : Bool
  /-- Identify classes of converted cells that cannot be told apart. -/
  minimise : Bool
  /-- Number the shapes of a conversion backwards. -/
  reverseOrder : Bool
  /-- How many cells of classes already analysed a conversion may examine again. -/
  retestBudget : Nat
  deriving DecidableEq, Repr

/-- The choices where nothing was chosen. -/
def Settings.default : Settings := ⟨Tiling.defaultAffineLimit, true, false, false, 1000⟩

end Mosaic
