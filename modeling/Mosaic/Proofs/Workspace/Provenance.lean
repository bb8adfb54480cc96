import Mosaic.Proofs.Workspace.Generation

/-!
# Workspace — provenance

A workspace that has a source holds in both places what loading that source gives, under some
settings and some values of the sliders (`Backed`).  A load puts it there and notes the source; a
preview is loaded from the source noted; a commit copies the preview; and a conversion, whose tiling
is not loaded from any text, takes the source away.
-/

namespace Mosaic.Workspace

variable {α : Type} [Scalar α]

/-- `u` is what a load of the source gives, but for its generation and the present values of its
sliders. -/
def LoadedFrom (source : String) (u : Tiling α) : Prop :=
  ∃ settings prior t, Tiling.load source settings prior acceptAll = .ok t ∧
    { t with order := u.order }.declared = u.declared

/-- The tilings in both places are loaded from the source, if there is one. -/
def Backed (w : Workspace α) : Prop :=
  ∀ source, w.source = some source → ∀ u ∈ w.places, LoadedFrom source u

/-- What passes some rules passes those that accept everything, and is the same. -/
theorem load_acceptAll {source : String} {settings : Settings} {prior : Option (Tiling α)}
    {rules : Tiling α → Except String Unit} {t : Tiling α}
    (h : Tiling.load source settings prior rules = .ok t) :
    Tiling.load source settings prior acceptAll = .ok t := by
  unfold Tiling.load at h ⊢
  obtain ⟨drafted, hread, h⟩ := except_bind_ok h
  obtain ⟨finished, hfinish, h⟩ := except_bind_ok h
  have ht : finished = t := by
    split at h
    · split at h
      · exact Except.ok.inj h
      · cases h
    · exact Except.ok.inj h
  rw [hread, ← ht]
  change (Tiling.finish settings drafted >>= _) = _
  rw [hfinish]
  exact ite_self _

theorem LoadedFrom.of_load {source : String} {settings : Settings} {prior : Option (Tiling α)}
    {rules : Tiling α → Except String Unit} {t : Tiling α}
    (h : Tiling.load source settings prior rules = .ok t) (order : Nat) :
    LoadedFrom source { t with order } :=
  ⟨settings, prior, t, load_acceptAll h, rfl⟩

theorem LoadedFrom.of_declared {source : String} {t u : Tiling α} (h : t.declared = u.declared)
    (ht : LoadedFrom source t) : LoadedFrom source u := by
  obtain ⟨settings, prior, loaded, hload, hsame⟩ := ht
  exact ⟨settings, prior, loaded, hload, Tiling.order_eq_of_declared h ▸ hsame.trans h⟩

variable {w w' : Workspace α}

/-- Both places of a workspace are filled from one load. -/
theorem Backed.installed {source : String} {settings : Settings} {prior : Option (Tiling α)}
    {rules : Tiling α → Except String Unit} {t : Tiling α}
    (h : Tiling.load source settings prior rules = .ok t) (hsource : w'.source = some source)
    (hplaces : w'.places = (w.install t).places) : w'.Backed := by
  intro source' hsource' u hu
  obtain rfl := Option.some.inj (hsource.symm.trans hsource')
  rw [hplaces] at hu
  rcases mem_places.mp hu with rfl | rfl <;> exact .of_load h _

/-- An action that succeeds keeps the link between the source and the places. -/
theorem Performed.backed {a : Action α} (h : Performed w a w') (hw : w.Backed) : w'.Backed := by
  cases h with
  | loaded h => exact .installed h rfl rfl
  | restarted hsource h => exact .installed h hsource rfl
  | adjusted h =>
      intro source hsource u hu
      rcases mem_places.mp hu with rfl | rfl
      · exact .of_declared h.symm (hw source hsource w.active (mem_places.mpr (.inl rfl)))
      · exact hw source hsource w.preview (mem_places.mpr (.inr rfl))
  | previewed hsource h =>
      intro source hsource' u hu
      obtain rfl := Option.some.inj (hsource.symm.trans hsource')
      rcases mem_places.mp hu with rfl | rfl
      · exact hw _ hsource w.active (mem_places.mpr (.inl rfl))
      · exact .of_load h _
  | committed =>
      intro source hsource u hu
      have hpreview := hw source hsource w.preview (mem_places.mpr (.inr rfl))
      rcases mem_places.mp hu with rfl | rfl <;> exact hpreview
  | idle => exact hw
  | converted =>
      intro source hsource
      cases hsource
  | configured => exact hw

theorem perform_backed (a : Action α) (hw : w.Backed) : (left (a.perform w)).Backed := by
  have houtcome := perform_outcome w a
  generalize a.perform w = x at houtcome ⊢
  cases houtcome with
  | performed h => exact h.backed hw
  | refused => exact hw
  | noted => exact hw

/-- **Both tilings belong to the source, and a refused action does not disturb them.**  At any
moment of a run, an action that is refused leaves the workspace as it was; only if it was a change
of sliders, its failure is noted beside all the rest.  And if there is a source, both tilings are
what a load of it gives, but for their generation and the present values of their sliders. -/
theorem source_truthful (settings : Settings) (as : List (Action α)) :
    let w := (empty settings).after as
    (∀ (a : Action α) (e : Refusal α) (w' : Workspace α), a.perform w = .error e w' →
      ((∀ restart, a ≠ .slidersChanged restart) ∧ w' = w) ∨
      ∃ restart e', a = .slidersChanged restart ∧ e = .load e' ∧
        w' = { w with sliderError := some e' }) ∧
    ∀ source, w.source = some source → ∀ u ∈ w.places, LoadedFrom source u := by
  refine ⟨fun a e w' => perform_error, ?_⟩
  have hempty : (empty settings : Workspace α).Backed := by
    intro source hsource
    cases hsource
  exact after_induction hempty (fun w a => perform_backed a) as

set_option maxRecDepth 10000 in
/-- A preview beside a load is loaded from the source of that load, and a load that fails leaves
both as they were. -/
theorem source_truthful_preview :
    let w := (empty .default).after (loading ++ [.slidersChanged false])
    w.usingPreview = true ∧ LoadedFrom "e2.tile(1,355/226,*4)" w.preview ∧
      ∃ e, (Action.load "x." acceptAll).perform w = .error e w := by
  have hrun : (((empty .default).after (loading ++ [.slidersChanged false])).usingPreview &&
      (((empty .default).after (loading ++ [.slidersChanged false])).source ==
        some "e2.tile(1,355/226,*4)" &&
      (refusal ((Action.load "x." acceptAll).perform
        ((empty .default).after (loading ++ [.slidersChanged false])))).isSome)) = true := by cbv
  simp only [Bool.and_eq_true, beq_iff_eq] at hrun
  obtain ⟨husing, hsource, hrefusal⟩ := hrun
  intro w
  obtain ⟨hfailure, hloaded⟩ := source_truthful .default (loading ++ [.slidersChanged false])
  refine ⟨husing, hloaded _ hsource w.preview (mem_places.mpr (.inr rfl)), ?_⟩
  obtain ⟨e, he⟩ := Option.isSome_iff_exists.mp hrefusal
  have herror := eq_error_of_refusal he
  rcases hfailure _ _ _ herror with ⟨-, hleft⟩ | ⟨restart, -, hload, -⟩
  · exact ⟨e, herror.trans (congrArg _ hleft)⟩
  · cases hload

end Mosaic.Workspace
