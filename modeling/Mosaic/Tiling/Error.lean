import Mosaic.Tiling.Basic

/-!
# Tiling — errors

* `Inconsistency`: why the gluings of a catalogue do not describe a tiling.
* `MapError`: why a tiling cannot be walked or converted.

Numbers in messages are written by a function that the caller provides.
-/

namespace Mosaic

/-- A contradiction in the gluings or angles of a catalogue. -/
inductive Inconsistency (α : Type) where
  | edgeLengthMismatch (shape edge : Nat) (target : Connection) (left right : EdgeLength α)
  | asymmetric (shape edge : Nat)
  | periodMismatch (shape edge : Nat)
  | improperTotal (shape vertex : Nat) (total : α)
  | wrongShape (shape vertex : Nat)
  /-- An angle so large that whole turns do not change it. -/
  | endlessAngle (shape vertex : Nat)
  deriving Repr

/-- The wording of a contradiction. -/
def Inconsistency.message {α : Type} (number : α → String) : Inconsistency α → String
  | edgeLengthMismatch s e c l r =>
    "connecting (" ++ toString s ++ "," ++ toString e ++ ") to (" ++ toString c.shape ++ ","
      ++ toString c.edge ++ ") of different lengths only possible in a2 (" ++ l.message number
      ++ " vs " ++ r.message number ++ ")"
  | asymmetric s e =>
    "connection of shape " ++ toString s ++ " edge " ++ toString e ++ " does not lead back to it"
  | periodMismatch s e =>
    "periodic copies of shape " ++ toString s ++ " edge " ++ toString e
      ++ " lead to different shapes"
  | improperTotal s v total =>
    "improper angle total " ++ number total ++ " at shape " ++ toString s ++ " vertex "
      ++ toString v
  | wrongShape s v =>
    "vertex walk from shape " ++ toString s ++ " vertex " ++ toString v
      ++ " ended at a different shape"
  | endlessAngle s v =>
    "angle at shape " ++ toString s ++ " vertex " ++ toString v ++ " cannot be reduced to a turn"

/-- Why a step of a map or a conversion fails. -/
inductive MapError (α : Type) where
  | emptyTiling
  | invalidNode (node : Nat)
  | invalidEdge (shape edge : Nat)
  | adjacencyMismatch (shape edge : Nat) (mismatch : α)
  | degreeMismatch (left right : Nat)
  | tooManyNodes (limit : Nat)
  | unresolvedClass (cls : Nat)
  | nonOrientable (node edge : Nat)
  /-- A complex has more classes of cells than it promises. -/
  | tooManyClasses (bound : Nat)
  deriving Repr

/-- The wording of a failure. -/
def MapError.message {α : Type} (number : α → String) : MapError α → String
  | emptyTiling => "tiling has no shapes"
  | invalidNode n => "no node " ++ toString n
  | invalidEdge s e => "no edge " ++ toString e ++ " in shape " ++ toString s
  | adjacencyMismatch s e d =>
    "gluing of shape " ++ toString s ++ " edge " ++ toString e
      ++ " misplaces the shared endpoints by " ++ number d
  | degreeMismatch a b =>
    "degree mismatch while identifying cells (" ++ toString a ++ " vs " ++ toString b ++ ")"
  | tooManyNodes n => "map size limit of " ++ toString n ++ " nodes reached"
  | unresolvedClass c => "shape class " ++ toString c ++ " was never analysed"
  | nonOrientable n e =>
    "cannot convert across the mirrored gluing at node " ++ toString n ++ " edge " ++ toString e
  | tooManyClasses n => "more than " ++ toString n ++ " shape classes"

end Mosaic
