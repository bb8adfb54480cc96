import Mosaic.Proofs.Tiling.Faults

/-!
# Proofs — Tiling — folds

An analysis of valences meets an angle that cannot be reduced to a single turn only where a shape
has one.  Refining periods finds nothing but gluings that do not agree (`Compares`), and walks read
the angles of the shapes (`Tiling.Folds.walkVertex`).
-/

namespace Mosaic

variable {α β γ : Type}

/-! ### Refining -/

/-- The computation finds nothing but gluings that do not agree. -/
def Compares (x : Refinement α β) : Prop :=
  ∀ ps e qs, x ps = .error e qs → (∃ i k, e = .asymmetric i k) ∨ ∃ i k, e = .periodMismatch i k

/-- Comparisons one after the other. -/
theorem Compares.bind {x : Refinement α β} {f : β → Refinement α γ} (hx : Compares x)
    (hf : ∀ b, Compares (f b)) : Compares (x >>= f) := by
  intro ps e qs h
  change EStateM.bind x f ps = _ at h
  rw [EStateM.bind] at h
  cases hres : x ps with
  | error e' rs =>
      rw [hres] at h
      cases h
      exact hx _ _ _ hres
  | ok b rs =>
      rw [hres] at h
      exact hf _ _ _ _ h

theorem Compares.forM {f : Nat → Refinement α Unit} (hf : ∀ k, Compares (f k)) (l : List Nat) :
    Compares (l.forM f) := by
  induction l with
  | nil =>
      intro _ _ _ h
      cases h
  | cons k l ih => exact (hf k).bind fun _ => ih

namespace Tiling

/-- The comparison of a gluing with the one a period before. -/
theorem comparePeriodic_compares (t : Tiling α) (i k : Nat) :
    Compares (t.comparePeriodic i k) := by
  intro ps e qs h
  rw [comparePeriodic_eq] at h
  split at h
  · cases h
    exact .inr ⟨_, _, rfl⟩
  · cases h

/-- The comparison of a gluing with the one that leads back. -/
theorem compareBack_compares (t : Tiling α) (i k : Nat) : Compares (t.compareBack i k) := by
  intro ps e qs h
  rw [compareBack_eq] at h
  split at h
  · cases h
    exact .inl ⟨_, _, rfl⟩
  · cases h

theorem refineShape_compares (t : Tiling α) (i : Nat) : Compares (t.refineShape i) := by
  refine Compares.bind (fun _ _ _ h => by cases h) fun first => ?_
  exact (Compares.forM (t.comparePeriodic_compares i) _).bind fun _ =>
    Compares.forM (t.compareBack_compares i) _

/-- A pass of refinement finds nothing but gluings that do not agree. -/
theorem refinePass_compares (t : Tiling α) : Compares t.refinePass :=
  (Compares.forM t.refineShape_compares _).bind fun _ _ _ _ h => by cases h

/-- **Refining** finds nothing but gluings that do not agree. -/
theorem refinePeriods_compares (t : Tiling α) : Compares t.refinePeriods := by
  suffices h : ∀ fuel last, Compares (t.refineFrom fuel last) from h _ _
  intro fuel
  induction fuel with
  | zero =>
      intro _ _ _ _ h
      cases h
  | succ fuel ih =>
      intro last
      rw [refineFrom]
      refine t.refinePass_compares.bind fun total => ?_
      split
      · intro _ _ _ h
        cases h
      · exact ih _

/-! ### Walks -/

variable [Scalar α] {t : Tiling α}

/-- Every angle that a walk may meet can be reduced to a single turn. -/
def Folds (t : Tiling α) : Prop :=
  ∀ i k : Nat, (foldAngle (((t.shape i).angles[k]?).getD 0)).isSome = true

/-- It is enough to know this of the angles that there are, and of zero. -/
theorem folds_of_mem (hzero : (foldAngle (0 : α)).isSome = true)
    (h : ∀ s ∈ t.shapes, ∀ a ∈ s.angles, (foldAngle a).isSome = true) : t.Folds := by
  intro i k
  cases ha : (t.shape i).angles[k]? with
  | none => exact hzero
  | some a =>
      have hlt : i < t.shapes.size := by
        by_contra hge
        rw [shape, Array.getElem?_eq_none (Nat.le_of_not_lt hge)] at ha
        cases ha
      exact h _ (shape_mem hlt) a (Array.mem_of_getElem? ha)

namespace Folds

variable {periods : Array Nat} {i k : Nat}

/-- Where angles can be folded, a walk goes on. -/
theorem continueWalk (h : t.Folds) (fuel : Nat) (w : VertexWalk α) :
    ∃ v, t.continueWalk periods i k fuel w = .ok v := by
  induction fuel generalizing w with
  | zero => exact ⟨w, rfl⟩
  | succ fuel ih =>
      rw [Tiling.continueWalk]
      dsimp only
      generalize (if w.place.shape == i && congruent w.place.edge k
        ((periods[w.place.shape]?).getD 0) then 0 else w.since) = since
      split
      · exact ⟨_, rfl⟩
      · obtain ⟨a, ha⟩ := Option.isSome_iff_exists.mp (h w.place.shape w.place.edge)
        simp only [ha]
        split
        · exact ⟨_, rfl⟩
        · exact ih _

/-- Where angles can be folded, no walk is stopped by an angle. -/
theorem walkVertex (h : t.Folds) (j l : Nat) :
    t.walkVertex periods i k ≠ .error (.endlessAngle j l) := by
  obtain ⟨w, hw⟩ := h.continueWalk (maxWalk + 1) ⟨⟨i, k, false⟩, 0, #[], 0⟩
  rw [Tiling.walkVertex, hw]
  simp only [bind, Except.bind, throw, throwThe, MonadExceptOf.throw, pure, Except.pure]
  intro herror
  split at herror
  · cases herror
  · split at herror <;> cases herror

/-- **An analysis** does not find an angle that cannot be reduced where there is none. -/
theorem analyseValence (h : t.Folds) (j l : Nat) (t' : Tiling α) :
    analyseValence.run t ≠ .error (.endlessAngle j l) t' := by
  have hrefine (ps qs : Array Nat) : t.refinePeriods ps ≠ .error (.endlessAngle j l) qs :=
    fun hqs => by
      rcases t.refinePeriods_compares _ _ _ hqs with ⟨_, _, he⟩ | ⟨_, _, he⟩ <;> cases he
  intro herror
  rcases settleValence_error .refl (analyseValence_run_error herror) with ⟨qs, hqs⟩ | hfault
  · exact hrefine _ _ hqs
  · cases hfault with
    | walk _ _ _ _ hwalk => exact h.walkVertex j l hwalk
    | refinement _ _ hqs => exact hrefine _ _ hqs

end Folds

end Tiling

end Mosaic
