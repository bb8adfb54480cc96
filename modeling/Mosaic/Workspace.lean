import Mosaic.Conversion.Convert
import Mosaic.Description.Load

/-!
# Workspace — the tiling in use and its preview

A workspace holds two tilings: the active one, from which atlases are built, and a preview that
follows the sliders without a restart. Both belong to the source that was loaded last.

* `Editing`: operations on a workspace; one that fails leaves it as it was, but for the status of
  the sliders.
* `Workspace.load`, `Workspace.slidersChanged`: a new source, and the last one with other sliders.
* `Workspace.setSlider?`, `Workspace.commitPreview`: the value of a slider, and the preview put to
  use.
* `Workspace.convertFrom`: the classes of an atlas in place of the active tiling.
-/

namespace Mosaic

/-- The tilings in use, the source they belong to, and the outcome of the last change of sliders;
no error means that it succeeded. -/
structure Workspace (α : Type) where
  active : Tiling α
  preview : Tiling α
  usingPreview : Bool
  /-- The source of the last load; none before any load and after a conversion. -/
  source : Option String
  settings : Settings
  sliderError : Option (LoadError α)

/-- An operation on a workspace. -/
abbrev Editing (α : Type) := EStateM (LoadError α) (Workspace α)

namespace Workspace

variable {α : Type}

/-- The wording of the outcome of the last change of sliders. -/
def sliderStatus (number : α → String) (w : Workspace α) : String :=
  match w.sliderError with
  | none => "OK"
  | some e => e.message number

/-- The tiling that is shown. -/
def current (w : Workspace α) : Tiling α := if w.usingPreview then w.preview else w.active

/-- A generation greater than that of both tilings. -/
def nextOrder (w : Workspace α) : Nat := Nat.max w.active.order w.preview.order + 1

/-- Puts a tiling in place of both. -/
def install (w : Workspace α) (t : Tiling α) : Workspace α :=
  let t := { t with order := w.nextOrder }
  { w with active := t, preview := t, usingPreview := false }

/-- Makes the preview the active tiling. -/
def commitPreview (w : Workspace α) : Workspace α :=
  if w.usingPreview then { w with active := w.preview, usingPreview := false } else w

/-- The sliders with the first one of a given name set. -/
def setFirst? {β : Type} (name : String) (value : β) (sliders : Array (Slider β)) :
    Option (Array (Slider β)) :=
  (sliders.findIdx? (·.name == name)).map fun i =>
    sliders.modify i ({ · with current := value })

variable [Scalar α]

/-- A workspace without a source. -/
def empty (settings : Settings) : Workspace α :=
  ⟨Tiling.empty, Tiling.empty, false, none, settings, none⟩

/-- Sets the slider of a given name in the active tiling; one for integers is set to the nearest
integer. It has an effect when the sliders are reported to have changed. -/
def setSlider? (w : Workspace α) (name : String) (value : α) : Option (Workspace α) :=
  match setFirst? name value w.active.sliders with
  | some sliders => some { w with active := { w.active with sliders } }
  | none =>
    (setFirst? name (Scalar.round value) w.active.intSliders).map fun intSliders =>
      { w with active := { w.active with intSliders } }

/-- Loads a description into both places; `rules` judges its tree states. -/
def load (source : String) (rules : Tiling α → Except String Unit) : Editing α Unit := fun w =>
  match Tiling.load source w.settings none rules with
  | .error e => .error e w
  | .ok t => .ok () { w.install t with source := some source, sliderError := none }

/-- Loads the last source with the present values of the sliders: into the preview, or into both
places for a restart. -/
def slidersChanged (restart : Bool) : Editing α Unit := fun w =>
  match w.source with
  | none =>
    let e := .malformed ⟨.noSource, Position.none⟩
    .error e { w with sliderError := some e }
  | some source =>
    match Tiling.load source w.settings (some w.active) fun _ => .ok () with
    | .error e => .error e { w with sliderError := some e }
    | .ok t =>
      if restart then .ok () { w.install t with sliderError := none }
      else
        let t := { t with order := w.nextOrder }
        .ok () { w with preview := t, usingPreview := true, sliderError := none }

/-- A new atlas of the tiling that is shown. -/
def newAtlas (w : Workspace α) : Except (MapError α) (Atlas α) := Atlas.ofTiling w.current

/-- Puts the conversion of an atlas in place of both tilings. The atlas may grow on the way. -/
def convertFrom (w : Workspace α) : EStateM (ConversionError α) (Atlas α) (Workspace α) := do
  let t ← Atlas.convert w.settings
  return { w.install t with source := none }

end Workspace

end Mosaic
