import Mosaic.Proofs.Descent
import Mosaic.Workspace

/-!
# Workspace — actions and runs

An action is one use of a workspace; it succeeds or is refused (`Workspace.Action.perform`).  A run
is a list of actions, and goes on after one that is refused (`Workspace.after`).

* `Performed`: what an action that succeeds does, case by case.
* `perform_error`: a refused action changes nothing but the outcome of the last change of sliders,
  and that only if it was one.

Two tilings that differ in nothing but the present values of their sliders are told by
`Tiling.declared`, which gives every slider the value it was declared with.
-/

namespace Mosaic

variable {α : Type}

/-- The slider at the value it was declared with. -/
def Slider.declared {β : Type} (s : Slider β) : Slider β := { s with current := s.zero }

/-- The tiling with all sliders at the values they were declared with. -/
def Tiling.declared (t : Tiling α) : Tiling α :=
  { t with sliders := t.sliders.map (·.declared), intSliders := t.intSliders.map (·.declared) }

theorem Tiling.order_eq_of_declared {t u : Tiling α} (h : t.declared = u.declared) :
    t.order = u.order := by
  have horder := congrArg Tiling.order h
  exact horder

namespace Workspace

/-- A use of a workspace. -/
inductive Action (α : Type) where
  /-- Loads a description; the function judges its tree states. -/
  | load (source : String) (rules : Tiling α → Except String Unit)
  | setSlider (name : String) (value : α)
  | slidersChanged (restart : Bool)
  | commitPreview
  | convertFrom (atlas : Atlas α)
  | configure (settings : Settings)

/-- Why an action is refused. -/
inductive Refusal (α : Type) where
  | load (e : LoadError α)
  | noSlider (name : String)
  | conversion (e : ConversionError α)

variable [Scalar α]

/-- The rules that accept all tree states. -/
def acceptAll (_ : Tiling α) : Except String Unit := .ok ()

/-- The outcome of an action. -/
def Action.perform : Action α → EStateM (Refusal α) (Workspace α) Unit
  | .load source rules, w =>
    match Workspace.load source rules w with
    | .ok () w => .ok () w
    | .error e w => .error (.load e) w
  | .setSlider name value, w =>
    match w.setSlider? name value with
    | some w => .ok () w
    | none => .error (.noSlider name) w
  | .slidersChanged restart, w =>
    match Workspace.slidersChanged restart w with
    | .ok () w => .ok () w
    | .error e w => .error (.load e) w
  | .commitPreview, w => .ok () w.commitPreview
  | .convertFrom atlas, w =>
    match w.convertFrom atlas with
    | .ok w _ => .ok () w
    | .error e _ => .error (.conversion e) w
  | .configure settings, w => .ok () { w with settings }

/-- The workspace after a run. -/
def after (w : Workspace α) (as : List (Action α)) : Workspace α :=
  as.foldl (fun w a => left (a.perform w)) w

theorem after_append (w : Workspace α) (as bs : List (Action α)) :
    w.after (as ++ bs) = (w.after as).after bs := List.foldl_append

theorem after_concat (w : Workspace α) (as : List (Action α)) (a : Action α) :
    w.after (as ++ [a]) = left (a.perform (w.after as)) := after_append w as [a]

/-- What holds before a run and is kept by every action holds after the run. -/
theorem after_induction {P : Workspace α → Prop} {w : Workspace α} (hw : P w)
    (hstep : ∀ w (a : Action α), P w → P (left (a.perform w))) (as : List (Action α)) :
    P (w.after as) := by
  induction as generalizing w with
  | nil => exact hw
  | cons a as ih => exact ih (hstep w a hw)

/-! ### What an action does -/

/-- What an action that succeeds does to the workspace `w`. -/
inductive Performed (w : Workspace α) : Action α → Workspace α → Prop where
  | loaded {source : String} {rules : Tiling α → Except String Unit} {t : Tiling α}
      (h : Tiling.load source w.settings none rules = .ok t) :
      Performed w (.load source rules)
        { w.install t with source := some source, sliderError := none }
  | adjusted {name : String} {value : α} {t : Tiling α} (h : t.declared = w.active.declared) :
      Performed w (.setSlider name value) { w with active := t }
  | restarted {source : String} {t : Tiling α} (hsource : w.source = some source)
      (h : Tiling.load source w.settings (some w.active) acceptAll = .ok t) :
      Performed w (.slidersChanged true) { w.install t with sliderError := none }
  | previewed {source : String} {t : Tiling α} (hsource : w.source = some source)
      (h : Tiling.load source w.settings (some w.active) acceptAll = .ok t) :
      Performed w (.slidersChanged false)
        { w with preview := { t with order := w.nextOrder }, usingPreview := true, sliderError := none }
  | committed (h : w.usingPreview = true) :
      Performed w .commitPreview { w with active := w.preview, usingPreview := false }
  | idle (h : w.usingPreview = false) : Performed w .commitPreview w
  | converted {atlas : Atlas α} (t : Tiling α) :
      Performed w (.convertFrom atlas) { w.install t with source := none }
  | configured (settings : Settings) : Performed w (.configure settings) { w with settings }

omit [Scalar α] in
/-- Setting a slider sets its present value only. -/
theorem setFirst?_declared {β : Type} {name : String} {value : β}
    {sliders sliders' : Array (Slider β)}
    (h : setFirst? name value sliders = some sliders') :
    sliders'.map (·.declared) = sliders.map (·.declared) := by
  rw [setFirst?, Option.map_eq_some_iff] at h
  obtain ⟨i, -, rfl⟩ := h
  apply Array.ext_getElem?
  intro j
  rw [Array.getElem?_map, Array.getElem?_map, Array.getElem?_modify]
  split
  · rw [Option.map_map]
    rfl
  · rfl

variable {w w' : Workspace α}

theorem setSlider?_eq_some {name : String} {value : α} (h : w.setSlider? name value = some w') :
    ∃ t : Tiling α, t.declared = w.active.declared ∧ w' = { w with active := t } := by
  rw [setSlider?] at h
  split at h
  · rename_i sliders hset
    obtain rfl := Option.some.inj h
    exact ⟨_, by rw [Tiling.declared, setFirst?_declared hset]; rfl, rfl⟩
  · obtain ⟨intSliders, hset, rfl⟩ := Option.map_eq_some_iff.mp h
    exact ⟨_, by rw [Tiling.declared, setFirst?_declared hset]; rfl, rfl⟩

/-- A change of sliders is noted as a failure, or it has loaded the source again. -/
theorem slidersChanged_eq (restart : Bool) (w : Workspace α) :
    (∃ e, slidersChanged restart w = .error e { w with sliderError := some e }) ∨
    ∃ source t, w.source = some source ∧
      Tiling.load source w.settings (some w.active) acceptAll = .ok t ∧
      slidersChanged restart w = .ok () (if restart then { w.install t with sliderError := none }
        else { w with
          preview := { t with order := w.nextOrder }, usingPreview := true, sliderError := none }) := by
  unfold slidersChanged
  split
  · exact .inl ⟨_, rfl⟩
  · rename_i source hsource
    split
    · exact .inl ⟨_, rfl⟩
    · rename_i t hload
      refine .inr ⟨source, t, hsource, hload, ?_⟩
      cases restart <;> rfl

/-- What an action comes to: it is performed or refused, and a refused change of sliders is
noted. -/
inductive Outcome (w : Workspace α) (a : Action α) :
    EStateM.Result (Refusal α) (Workspace α) Unit → Prop where
  | performed {w' : Workspace α} (h : Performed w a w') : Outcome w a (.ok () w')
  | refused (ha : ∀ restart, a ≠ .slidersChanged restart) (e : Refusal α) : Outcome w a (.error e w)
  | noted {restart : Bool} (ha : a = .slidersChanged restart) (e : LoadError α) :
      Outcome w a (.error (.load e) { w with sliderError := some e })

theorem perform_outcome (w : Workspace α) (a : Action α) : Outcome w a (a.perform w) := by
  cases a with
  | load source rules =>
      simp only [Action.perform, Workspace.load]
      cases hload : Tiling.load source w.settings none rules with
      | error e => exact .refused (by nofun) _
      | ok t => exact .performed (.loaded hload)
  | setSlider name value =>
      simp only [Action.perform]
      cases hset : w.setSlider? name value with
      | none => exact .refused (by nofun) _
      | some w₁ =>
          obtain ⟨t, ht, rfl⟩ := setSlider?_eq_some hset
          exact .performed (.adjusted ht)
  | slidersChanged restart =>
      simp only [Action.perform]
      rcases slidersChanged_eq restart w with ⟨e, h⟩ | ⟨source, t, hsource, hload, h⟩
      · rw [h]
        exact .noted rfl e
      · rw [h]
        cases restart with
        | true => exact .performed (.restarted hsource hload)
        | false => exact .performed (.previewed hsource hload)
  | commitPreview =>
      rw [Action.perform, commitPreview]
      cases husing : w.usingPreview with
      | true => exact .performed (.committed husing)
      | false => exact .performed (.idle husing)
  | convertFrom atlas =>
      simp only [Action.perform]
      cases hconvert : w.convertFrom atlas with
      | error e m => exact .refused (by nofun) _
      | ok w₁ m =>
          obtain ⟨t, m', -, h⟩ := bind_ok.mp hconvert
          obtain ⟨rfl, -⟩ := pure_ok.mp h
          exact .performed (.converted t)
  | configure settings => exact .performed (.configured settings)

variable {a : Action α}

theorem perform_ok (h : a.perform w = .ok () w') : Performed w a w' := by
  have houtcome := perform_outcome w a
  rw [h] at houtcome
  cases houtcome with
  | performed h => exact h

/-- **A refused action leaves the workspace as it was**, but for the outcome of a change of
sliders. -/
theorem perform_error {e : Refusal α} (h : a.perform w = .error e w') :
    ((∀ restart, a ≠ .slidersChanged restart) ∧ w' = w) ∨
    ∃ restart e', a = .slidersChanged restart ∧ e = .load e' ∧
      w' = { w with sliderError := some e' } := by
  have houtcome := perform_outcome w a
  rw [h] at houtcome
  cases houtcome with
  | refused ha => exact .inl ⟨ha, rfl⟩
  | noted ha e' => exact .inr ⟨_, e', ha, rfl, rfl⟩

end Workspace

end Mosaic
