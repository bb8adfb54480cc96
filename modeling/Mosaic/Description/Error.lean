import Mosaic.Reading.Fault
import Mosaic.Tiling.Error

/-!
# Description — why a description is not accepted

* `OpenPolygon`: a tile whose edges and angles do not close, with the walk around it and the
  variables it was described with.
* `LoadError`: everything that ends a load without a tiling, and the request to look at one.
-/

namespace Mosaic

/-- A tile that does not close. -/
structure OpenPolygon (α : Type) where
  shape : Nat
  /-- The frame at the start of every edge, then the closing one. -/
  chain : Array (Motion α)
  /-- The defect in the units of the description. -/
  defect : ClosingDefect α
  /-- The variables, in the order of their names. -/
  parameters : List (String × α)

/-- The wording of a tile that does not close. -/
def OpenPolygon.message {α : Type} (number : α → String) (e : OpenPolygon α) : String :=
  "polygon number " ++ toString e.shape ++ " did not close correctly ("
    ++ e.defect.message number ++ ")"

/-- What ends a load without a tiling. -/
inductive LoadError (α : Type) where
  | malformed (e : ParseError)
  | openPolygon (e : OpenPolygon α)
  | inconsistent (e : Inconsistency α)
  /-- The description asks to inspect a shape of the unfinished tiling. -/
  | inspection (shape : Nat) (tiling : Tiling α)
  | rulesRejected (reason : String)

/-- The wording of the end of a load. -/
def LoadError.message {α : Type} (number : α → String) : LoadError α → String
  | malformed e => e.message
  | openPolygon e => e.message number
  | inconsistent e => e.message number
  | inspection shape _ => "connection debugger requested for shape " ++ toString shape
  | rulesRejected reason => "tree states rejected: " ++ reason

end Mosaic
