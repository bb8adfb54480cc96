import Mathlib
import Mosaic.Proofs.Scalar.Whole
import Mosaic.Proofs.Workspace.Run

/-!
# Workspace — generations

The generation of a tiling is counted up whenever a tiling is stored, from the greater one of both
places.  The active tiling is never ahead of the preview, and it is the same one if they are of the
same generation (`Ordered`).  A later workspace holds tilings of the earlier one, or tilings of
later generations (`Follows`).  So the generation tells which tiling it is, up to the present values
of its sliders (`generation_truthful`).
-/

namespace Mosaic.Workspace

variable {α : Type}

/-- The tilings in both places. -/
def places (w : Workspace α) : List (Tiling α) := [w.active, w.preview]

/-- The places that an action fills when it is performed, as it leaves them. -/
def Action.filled (w : Workspace α) : Action α → List (Tiling α)
  | load _ _ | slidersChanged true | convertFrom _ => [w.active, w.preview]
  | slidersChanged false => [w.preview]
  | setSlider _ _ | commitPreview | configure _ => []

/-- The active tiling is of an earlier generation than the preview, or they are the same. -/
def Ordered (w : Workspace α) : Prop :=
  w.active.order < w.preview.order ∨ w.active.declared = w.preview.declared

/-- What an action makes of the two places, but for the values of sliders: it keeps the preview, and
the active tiling is one of both; or the preview is of a new generation, and the active tiling is
kept or is the same. -/
inductive Moves (w w' : Workspace α) : Prop where
  | kept (preview : w'.preview.declared = w.preview.declared)
      (active : w'.active.declared = w.active.declared ∨ w'.active.declared = w.preview.declared)
  | renewed (preview : w'.preview.order = w.nextOrder)
      (active : w'.active.declared = w.active.declared ∨ w'.active.declared = w'.preview.declared)

/-- The tilings of `w'` are those of `w`, or they are of generations that come after those of
`w`. -/
structure Follows (w w' : Workspace α) : Prop where
  order : w.preview.order ≤ w'.preview.order
  places : ∀ u ∈ w'.places, (∃ t ∈ w.places, t.declared = u.declared) ∨ w.preview.order < u.order

variable {w w' w'' : Workspace α}

theorem mem_places {t : Tiling α} : t ∈ w.places ↔ t = w.active ∨ t = w.preview := by
  simp [places]

/-- The next generation is after those of both tilings. -/
theorem order_lt_nextOrder (w : Workspace α) :
    w.active.order < w.nextOrder ∧ w.preview.order < w.nextOrder :=
  ⟨Nat.lt_succ_of_le (Nat.le_max_left _ _), Nat.lt_succ_of_le (Nat.le_max_right _ _)⟩

theorem Ordered.le (h : w.Ordered) : w.active.order ≤ w.preview.order := by
  rcases h with h | h
  · exact Nat.le_of_lt h
  · exact Nat.le_of_eq (Tiling.order_eq_of_declared h)

/-- No tiling is ahead of the preview. -/
theorem Ordered.le_preview (h : w.Ordered) {t : Tiling α} (ht : t ∈ w.places) :
    t.order ≤ w.preview.order := by
  rcases mem_places.mp ht with rfl | rfl
  · exact h.le
  · exact Nat.le_refl _

/-- Within one workspace the generation tells the tiling. -/
theorem Ordered.declared_eq (h : w.Ordered) {t u : Tiling α} (ht : t ∈ w.places)
    (hu : u ∈ w.places) (horder : t.order = u.order) : t.declared = u.declared := by
  have hsame : w.active.order = w.preview.order → w.active.declared = w.preview.declared :=
    fun horder => h.resolve_left (Nat.not_lt.mpr (Nat.le_of_eq horder.symm))
  rcases mem_places.mp ht with rfl | rfl <;> rcases mem_places.mp hu with rfl | rfl
  · rfl
  · exact hsame horder
  · exact (hsame horder.symm).symm
  · rfl

/-! ### One action -/

namespace Moves

theorem refl (w : Workspace α) : w.Moves w := .kept rfl (.inl rfl)

/-- A move keeps the active tiling from getting ahead. -/
theorem ordered (h : w.Moves w') (hw : w.Ordered) : w'.Ordered := by
  cases h with
  | kept hpreview hactive =>
      rcases hactive with hactive | hactive
      · rw [Ordered, Tiling.order_eq_of_declared hactive, Tiling.order_eq_of_declared hpreview,
          hactive, hpreview]
        exact hw
      · exact .inr (hactive.trans hpreview.symm)
  | renewed hpreview hactive =>
      rcases hactive with hactive | hactive
      · rw [Ordered, Tiling.order_eq_of_declared hactive, hpreview]
        exact .inl w.order_lt_nextOrder.1
      · exact .inr hactive

/-- A generation is one more than the greatest before. -/
theorem order_le (h : w.Moves w') (hw : w.Ordered) : w'.preview.order ≤ w.preview.order + 1 := by
  cases h with
  | kept hpreview =>
      rw [Tiling.order_eq_of_declared hpreview]
      exact Nat.le_succ _
  | renewed hpreview =>
      rw [hpreview]
      exact Nat.succ_le_succ (Nat.max_le.mpr ⟨hw.le, Nat.le_refl _⟩)

/-- After a move the tilings are those of before, or of a later generation. -/
theorem follows (h : w.Moves w') : w.Follows w' := by
  have hactive : w.active ∈ w.places := mem_places.mpr (.inl rfl)
  have hpreview : w.preview ∈ w.places := mem_places.mpr (.inr rfl)
  cases h with
  | kept hp ha =>
      refine ⟨Nat.le_of_eq (Tiling.order_eq_of_declared hp).symm, fun u hu => .inl ?_⟩
      rcases mem_places.mp hu with rfl | rfl
      · rcases ha with ha | ha
        · exact ⟨_, hactive, ha.symm⟩
        · exact ⟨_, hpreview, ha.symm⟩
      · exact ⟨_, hpreview, hp.symm⟩
  | renewed hp ha =>
      have hlt : w.preview.order < w'.preview.order := hp ▸ w.order_lt_nextOrder.2
      refine ⟨Nat.le_of_lt hlt, fun u hu => ?_⟩
      rcases mem_places.mp hu with rfl | rfl
      · rcases ha with ha | ha
        · exact .inl ⟨_, hactive, ha.symm⟩
        · exact .inr (Tiling.order_eq_of_declared ha ▸ hlt)
      · exact .inr hlt

end Moves

namespace Follows

theorem refl (w : Workspace α) : w.Follows w := ⟨Nat.le_refl _, fun u hu => .inl ⟨u, hu, rfl⟩⟩

/-- What follows one after the other. -/
theorem trans (h : w.Follows w') (h' : w'.Follows w'') : w.Follows w'' := by
  refine ⟨Nat.le_trans h.order h'.order, fun u hu => ?_⟩
  rcases h'.places u hu with ⟨t', ht', heq⟩ | hlt
  · rcases h.places t' ht' with ⟨t, ht, heq'⟩ | hlt
    · exact .inl ⟨t, ht, heq'.trans heq⟩
    · exact .inr (Tiling.order_eq_of_declared heq ▸ hlt)
  · exact .inr (Nat.lt_of_le_of_lt h.order hlt)

/-- Of two tilings of one generation, the earlier and the later one are the same. -/
theorem declared_eq (h : w.Follows w') (hw : w.Ordered) {t u : Tiling α} (ht : t ∈ w.places)
    (hu : u ∈ w'.places) (horder : t.order = u.order) : t.declared = u.declared := by
  rcases h.places u hu with ⟨t', ht', heq⟩ | hlt
  · rw [← heq]
    exact hw.declared_eq ht ht' (horder.trans (Tiling.order_eq_of_declared heq).symm)
  · have hle := hw.le_preview ht
    omega

end Follows

variable [Scalar α]

/-- An action that is performed is a move. -/
theorem Performed.moves {a : Action α} (h : Performed w a w') : w.Moves w' := by
  cases h with
  | loaded | restarted | converted => exact .renewed rfl (.inr rfl)
  | adjusted h => exact .kept rfl (.inl h)
  | previewed => exact .renewed rfl (.inl rfl)
  | committed => exact .kept rfl (.inr rfl)
  | idle => exact .refl w
  | configured => exact .kept rfl (.inl rfl)

/-- Whatever an action comes to, it is a move. -/
theorem perform_moves (w : Workspace α) (a : Action α) : w.Moves (left (a.perform w)) := by
  have houtcome := perform_outcome w a
  generalize a.perform w = x at houtcome ⊢
  cases houtcome with
  | performed h => exact h.moves
  | refused => exact .refl w
  | noted => exact .kept rfl (.inl rfl)

/-- An action fills places with the next generation. -/
theorem Performed.order_filled {a : Action α} (h : Performed w a w') {t : Tiling α}
    (ht : t ∈ a.filled w') : t.order = w.nextOrder := by
  cases h with
  | loaded | restarted | converted =>
      rcases List.mem_pair.mp ht with rfl | rfl <;> rfl
  | previewed =>
      rcases List.mem_singleton.mp ht with rfl
      rfl
  | adjusted | committed | idle | configured => cases ht

/-! ### A run -/

theorem after_ordered (settings : Settings) (as : List (Action α)) :
    ((empty settings).after as).Ordered :=
  after_induction (.inr rfl) (fun w a h => (perform_moves w a).ordered h) as

/-- A run is a sequence of moves. -/
theorem after_follows (w : Workspace α) (as : List (Action α)) : w.Follows (w.after as) :=
  after_induction (.refl w) (fun w' a h => h.trans (perform_moves w' a).follows) as

/-- A run of `n` actions cannot count further than to `n`. -/
theorem order_after_le (settings : Settings) (as : List (Action α)) :
    ((empty settings).after as).preview.order ≤ as.length := by
  induction as using List.reverseRecOn with
  | nil => exact Nat.le_refl 0
  | append_singleton as a ih =>
      rw [after_concat, List.length_append]
      have hnext := (perform_moves _ a).order_le (after_ordered settings as)
      exact Nat.le_trans hnext (Nat.succ_le_succ ih)

/-- **The generation of a tiling tells which tiling it is.**  Let `w` be the workspace at any moment
of a run, and `w'` at that moment or a later one.  The active tiling is not ahead of the preview,
and generations are not greater than the number of actions; what an action stores at the later
moment is of a generation after all those of the earlier one; and tilings of one generation in any
places at the two moments are equal but for the present values of their sliders. -/
theorem generation_truthful (settings : Settings) (as bs : List (Action α)) :
    let w := (empty settings).after as
    let w' := (empty settings).after (as ++ bs)
    (w.active.order ≤ w.preview.order ∧ w.preview.order ≤ as.length) ∧
    (∀ (a : Action α) (w'' : Workspace α), a.perform w' = .ok () w'' →
      ∀ u ∈ a.filled w'', ∀ t ∈ w.places, t.order < u.order) ∧
    ∀ t ∈ w.places, ∀ u ∈ w'.places, t.order = u.order → t.declared = u.declared := by
  intro w w'
  have hw : w.Ordered := after_ordered settings as
  have hfollows : w.Follows w' := by
    rw [show w' = w.after bs from after_append (empty settings) as bs]
    exact after_follows w bs
  refine ⟨⟨hw.le, order_after_le settings as⟩, fun a w'' ha u hu t ht => ?_, fun t ht u hu => ?_⟩
  · calc
      t.order ≤ w.preview.order := hw.le_preview ht
      _ ≤ w'.preview.order := hfollows.order
      _ < w'.nextOrder := w'.order_lt_nextOrder.2
      _ = u.order := ((perform_ok ha).order_filled hu).symm
  · exact hfollows.declared_eq hw ht hu

/-- A run that loads a square. -/
def loading : List (Action Whole) := [.load "e2.tile(1,355/226,*4)" acceptAll]

set_option maxRecDepth 10000 in
/-- A load is of generation one, and still is when a preview has been loaded beside it; a further
preview comes after it. -/
theorem generation_truthful_preview :
    let w := (empty .default).after loading
    let w' := (empty .default).after (loading ++ [.slidersChanged false])
    w.preview.order = 1 ∧ w'.active.order = 1 ∧ w.preview.declared = w'.active.declared ∧
      1 < (left ((Action.slidersChanged false).perform w')).preview.order := by
  have hrun : (((empty .default).after loading).preview.order == 1 &&
      (((empty .default).after (loading ++ [.slidersChanged false])).active.order == 1 &&
      (answer ((Action.slidersChanged false).perform
        ((empty .default).after (loading ++ [.slidersChanged false])))).isSome)) = true := by cbv
  simp only [Bool.and_eq_true, beq_iff_eq] at hrun
  obtain ⟨hpreview, hactive, hanswer⟩ := hrun
  intro w w'
  obtain ⟨-, hnew, hsame⟩ := generation_truthful .default loading [.slidersChanged false]
  have hmem : w.preview ∈ w.places := mem_places.mpr (.inr rfl)
  refine ⟨hpreview, hactive, ?_, ?_⟩
  · exact hsame w.preview hmem w'.active (mem_places.mpr (.inl rfl)) (hpreview.trans hactive.symm)
  · have hlt := hnew _ _ (eq_ok_unit_of_isSome hanswer) _ (List.mem_singleton_self _) w.preview hmem
    rwa [show w.preview.order = 1 from hpreview] at hlt

end Mosaic.Workspace
