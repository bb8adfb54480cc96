import Mosaic.Description.Directive
import Mosaic.Settings
import Mosaic.Tiling.DoubleCover
import Mosaic.Tiling.Valence

/-!
# Description — loading

A description is a sequence of directives and of comment lines beginning with `#`. Comments that
begin with `##` name the tiling and describe it.

* `Tiling.read`: the tiling that a text describes, before any check of its gluings.
* `Tiling.finish`: the checks, the double cover and the analysis of valences.
* `Tiling.load`: both, with the judgement of a collaborator on tree states.
-/

namespace Mosaic

/-- The longest description, in bytes. -/
def maxSourceLength : Nat := 4 * 1024 * 1024

variable {α : Type}

namespace Drafting

/-- A comment line. The first one with two marks names the tiling, later ones describe it. -/
def comment : Drafting α Unit := do
  let _ ← Reader.takeChar
  let doubled := (← Reader.peek) == some 35
  if doubled then
    let _ ← Reader.takeChar
  Reader.skipWhile (· == 32)
  let s ← Reader.restOfLine
  if doubled then
    modifyTiling fun t =>
      if t.name == Tiling.unnamed then { t with name := s }
      else { t with comment := t.comment ++ s ++ "\n" }

variable [Scalar α]

/-- The units as variables of their own. -/
def bindUnits : Drafting α Unit :=
  modifyDraft fun d =>
    { d with
      bindings := (d.bindings.insert "distunit" d.distanceUnit).insert "angleunit" d.angleUnit }

/-- All comments and directives up to the end of the text. -/
def description (prior : Option (Tiling α)) : Drafting α Unit :=
  iterate (fun () => do
    bindUnits
    if ← Reader.atEnd then return .inr ()
    if (← Reader.peek) == some 35 then
      comment
      return .inl ()
    let place ← Reader.offset
    let name ← Reader.identifier
    if name.isEmpty then Reader.failAt place .expectedCommand
    if ← Reader.eat "." then flag name place
    else if ← Reader.eat "(" then directive prior name place
    else Reader.failAt place (.notACommand name)
    return .inl ()) ()

end Drafting

namespace Tiling

variable [Scalar α]

/-- The tiling that a text describes. Sliders have the values that `prior` gives them. -/
def read (source : String) (settings : Settings) (prior : Option (Tiling α)) :
    Except (LoadError α) (Tiling α) :=
  if maxSourceLength < source.utf8ByteSize then
    .error (.malformed ⟨.sourceTooLong maxSourceLength, Position.none⟩)
  else
    let tiling := { (empty : Tiling α) with
      affineLimit := settings.affineLimit
      order := (prior.map (·.order)).getD 0 + 1 }
    let desk := ⟨0, { tiling, bindings := ∅, angleUnit := 1, distanceUnit := 1 }⟩
    match Drafting.description prior source.toByteArray desk with
    | .ok _ desk => .ok desk.draft.tiling
    | .error e _ => .error e

/-- The tiling with its gluings checked, without mirrored gluings if the settings ask for that, and
with its valences unless its description declares tree states. -/
def finish (settings : Settings) (t : Tiling α) : Except (LoadError α) (Tiling α) :=
  match t.checkEdgeLengths with
  | .error e => .error (.inconsistent e)
  | .ok () =>
    let t := if settings.doubleCover then t.doubleCover else t
    if t.haveTree then .ok t
    else
      match analyseValence.run t with
      | .ok _ t => .ok t
      | .error e _ => .error (.inconsistent e)

/-- The tiling that a text describes, checked and analysed; `rules` judges it if it has tree
states. -/
def load (source : String) (settings : Settings) (prior : Option (Tiling α))
    (rules : Tiling α → Except String Unit) : Except (LoadError α) (Tiling α) := do
  let t ← (← read source settings prior).finish settings
  if t.haveTree then
    match rules t with
    | .ok () => return t
    | .error reason => throw (.rulesRejected reason)
  else return t

end Tiling

end Mosaic
