import Mathlib.Logic.Relation
import Mosaic.Proofs.Tiling.Annotation

/-!
# Tiling — how an analysis of valences fails

When the periods that an analysis begins with are respected by the gluings, refining leaves them as
they are.  Any contradiction found then is due to a walk around a vertex: one that the analysis comes
to fails, or it asks for another round, and the refinement of this round fails (`Tiling.WalkFault`).
An analysis finds exactly these contradictions (`analyseValence_error_iff_walkFault`).
-/

namespace Mosaic.Tiling

variable {α : Type} [Scalar α] {t : Tiling α} {ps qs rs : Array Nat} {e : Inconsistency α}

/-- A round that begins with the periods `ps` asks for one that begins with `rs`.  It comes to a
vertex from which the walk leads to a distance that the period of its shape does not divide, and
narrows this period. -/
inductive Renews (t : Tiling α) (ps : Array Nat) : Array Nat → Prop where
  | intro {qs : Array Nat} {i k : Nat} {w : VertexWalk α} (hrefine : t.refinePeriods ps = .ok () qs)
      (hround : (t.geometry.isAffine || t.isStar) = false) (hto : t.ComesTo qs i k)
      (hwalk : t.walkVertex qs i k = .ok w)
      (hfar : congruent w.place.edge k (periodOf qs i) = false) :
      Renews t ps (qs.modify i (reduceGcd · (w.place.edge - k)))

/-- An analysis comes to a round that begins with these periods. -/
def Begins (t : Tiling α) : Array Nat → Prop := Relation.ReflTransGen t.Renews t.strides

/-- A contradiction that is due to a walk.  It is found by the walk itself, around the vertex that a
round of the analysis comes to, or by refining the periods that a walk has narrowed. -/
inductive WalkFault (t : Tiling α) : Inconsistency α → Prop where
  | walk {ps qs : Array Nat} {i k : Nat} {e : Inconsistency α} (hbegins : t.Begins ps)
      (hrefine : t.refinePeriods ps = .ok () qs)
      (hround : (t.geometry.isAffine || t.isStar) = false) (hto : t.ComesTo qs i k)
      (h : t.walkVertex qs i k = .error e) : WalkFault t e
  | refinement {ps rs qs : Array Nat} {e : Inconsistency α} (hbegins : t.Begins ps)
      (hrenews : t.Renews ps rs) (h : t.refinePeriods rs = .error e qs) : WalkFault t e

/-! ### What is found is due to a walk -/

/-- A contradiction that rounds find is found by the refinement of the first of them, or it is due
to a walk. -/
theorem settleValence_error {fuel : Nat} {s u : Tiling α} (hbegins : t.Begins ps)
    (h : t.settleValence fuel ps s = .error e u) :
    (∃ qs, t.refinePeriods ps = .error e qs) ∨ t.WalkFault e := by
  induction fuel generalizing ps s with
  | zero => cases h
  | succ fuel ih =>
      rw [settleValence_succ] at h
      cases hrefine : t.refinePeriods ps with
      | error e' qs =>
          rw [hrefine] at h
          cases h
          exact .inl ⟨qs, rfl⟩
      | ok _ qs =>
          simp only [hrefine] at h
          split at h
          · cases h
          rename_i hround
          rw [Bool.not_eq_true] at hround
          refine .inr ?_
          cases hwalks : t.walkShapes qs (List.range t.shapes.size)
              { s.withPeriods qs with haveValence := true } with
          | error e' u =>
              simp only [hwalks] at h
              cases h
              obtain ⟨i, k, hto, hwalk⟩ := walkShapes_refused hwalks
              exact .walk hbegins hrefine hround hto hwalk
          | ok x u =>
              simp only [hwalks] at h
              cases x with
              | none => cases h
              | some x =>
                  obtain ⟨i, d⟩ := x
                  obtain ⟨k, w, hto, hwalk, hfar, rfl⟩ := walkShapes_narrowed hwalks
                  have hrenews : t.Renews ps _ := .intro hrefine hround hto hwalk hfar
                  -- What the next refinement finds is due to the walk that has narrowed the period.
                  exact (ih (hbegins.tail hrenews) h).elim
                    (fun ⟨_, hqs⟩ => .refinement hbegins hrenews hqs) id

/-- An analysis fails as its rounds do. -/
theorem analyseValence_run_error {u : Tiling α} (h : analyseValence.run t = .error e u) :
    t.settleValence t.refineBound t.strides (t.withPeriods t.strides) = .error e u := by
  rw [EStateM.run, analyseValence_eq] at h
  cases hsettle : t.settleValence t.refineBound t.strides (t.withPeriods t.strides) with
  | ok _ u =>
      rw [hsettle] at h
      cases h
  | error e' u =>
      rw [hsettle] at h
      exact h

/-! ### What is due to a walk is found -/

/-- Rounds from `ps` on that come to an end have asked for `rs` if the first one does. -/
theorem Restarting.renewed {s : Tiling α} {n : Nat}
    {x : EStateM.Result (Inconsistency α) (Tiling α) Unit} (h : t.Restarting ps s n x)
    (hrenews : t.Renews ps rs) : ∃ s' n', t.Restarting rs s' n' x := by
  obtain ⟨hrefine, hround, hto, hwalk, hfar⟩ := hrenews
  have hastray := not_comesBack_of_far hwalk hfar
  cases h with
  | refused h => cases hrefine.symm.trans h
  | flat _ hflat => cases hround.symm.trans hflat
  | failed h _ hwalks =>
      cases hrefine.symm.trans h
      obtain ⟨j, l, hto', herror⟩ := walkShapes_refused hwalks
      obtain ⟨rfl, rfl⟩ := hto.unique hto' hastray (not_comesBack_of_error herror)
      cases hwalk.symm.trans herror
  | settled h _ hwalks =>
      cases hrefine.symm.trans h
      exact absurd (walkShapes_complete hwalks hto) hastray
  | again h _ hwalks hagain =>
      cases hrefine.symm.trans h
      obtain ⟨l, w', hto', hwalk', hfar', rfl⟩ := walkShapes_narrowed hwalks
      obtain ⟨rfl, rfl⟩ := hto.unique hto' hastray (not_comesBack_of_far hwalk' hfar')
      cases hwalk.symm.trans hwalk'
      exact ⟨_, _, hagain⟩

/-- Rounds that come to an end have come to every round that they ask for. -/
theorem Restarting.begun {s : Tiling α} {n : Nat}
    {x : EStateM.Result (Inconsistency α) (Tiling α) Unit} (h : t.Restarting t.strides s n x)
    (hbegins : t.Begins ps) : ∃ s' n', t.Restarting ps s' n' x := by
  induction hbegins with
  | refl => exact ⟨s, n, h⟩
  | tail _ hrenews ih =>
      obtain ⟨s', n', h'⟩ := ih
      exact h'.renewed hrenews

/-- Rounds end with the contradiction that the refinement of the first one finds. -/
theorem Restarting.refused_eq {s : Tiling α} {n : Nat}
    {x : EStateM.Result (Inconsistency α) (Tiling α) Unit} (h : t.Restarting ps s n x)
    (hrefine : t.refinePeriods ps = .error e qs) : ∃ u, x = .error e u := by
  cases h with
  | refused h =>
      cases hrefine.symm.trans h
      exact ⟨_, rfl⟩
  | flat h _ => cases hrefine.symm.trans h
  | failed h _ _ => cases hrefine.symm.trans h
  | settled h _ _ => cases hrefine.symm.trans h
  | again h _ _ _ => cases hrefine.symm.trans h

/-- Rounds end with the contradiction that a walk of the first one finds. -/
theorem Restarting.failed_eq {s : Tiling α} {n i k : Nat}
    {x : EStateM.Result (Inconsistency α) (Tiling α) Unit} (h : t.Restarting ps s n x)
    (hrefine : t.refinePeriods ps = .ok () qs) (hround : (t.geometry.isAffine || t.isStar) = false)
    (hto : t.ComesTo qs i k) (herror : t.walkVertex qs i k = .error e) : ∃ u, x = .error e u := by
  have hastray := not_comesBack_of_error herror
  cases h with
  | refused h => cases hrefine.symm.trans h
  | flat _ hflat => cases hround.symm.trans hflat
  | failed h _ hwalks =>
      cases hrefine.symm.trans h
      obtain ⟨j, l, hto', herror'⟩ := walkShapes_refused hwalks
      obtain ⟨rfl, rfl⟩ := hto.unique hto' hastray (not_comesBack_of_error herror')
      cases herror.symm.trans herror'
      exact ⟨_, rfl⟩
  | settled h _ hwalks =>
      cases hrefine.symm.trans h
      exact absurd (walkShapes_complete hwalks hto) hastray
  | again h _ hwalks _ =>
      cases hrefine.symm.trans h
      obtain ⟨l, w, hto', hwalk, hfar, rfl⟩ := walkShapes_narrowed hwalks
      obtain ⟨rfl, rfl⟩ := hto.unique hto' hastray (not_comesBack_of_far hwalk hfar)
      cases herror.symm.trans hwalk

theorem Restarting.of_walkFault {s : Tiling α} {n : Nat}
    {x : EStateM.Result (Inconsistency α) (Tiling α) Unit} (h : t.Restarting t.strides s n x)
    (hfault : t.WalkFault e) : ∃ u, x = .error e u := by
  cases hfault with
  | walk hbegins hrefine hround hto herror =>
      obtain ⟨s', n', h'⟩ := h.begun hbegins
      exact h'.failed_eq hrefine hround hto herror
  | refinement hbegins hrenews hrefine =>
      obtain ⟨s', n', h'⟩ := h.begun (hbegins.tail hrenews)
      exact h'.refused_eq hrefine

/-! ### The contradictions of an analysis -/

/-- **The contradictions that an analysis finds** are those that its first refinement finds, and
those that are due to a walk. -/
theorem analyseValence_error_iff (hpos : ∀ i < t.shapes.size, 0 < (t.shape i).stride) :
    (∃ u, analyseValence t = .error e u) ↔
      (∃ qs, t.refinePeriods t.strides = .error e qs) ∨ t.WalkFault e := by
  have hstrides := strides_narrower hpos
  obtain ⟨n, -, hrounds⟩ := settleValence_restarting (s := t.withPeriods t.strides) hstrides
    (Nat.lt_of_succ_lt (totalOf_strides_le t))
  constructor
  · rintro ⟨u, h⟩
    exact settleValence_error .refl (analyseValence_run_error h)
  · intro h
    obtain ⟨u, hu⟩ : ∃ u, t.settleValence t.refineBound t.strides (t.withPeriods t.strides) =
        .error e u := by
      rcases h with ⟨qs, hrefine⟩ | hfault
      · exact hrounds.refused_eq hrefine
      · exact hrounds.of_walkFault hfault
    rw [analyseValence_eq, hu]
    exact ⟨u, rfl⟩

/-- **An analysis that begins with periods that the gluings respect** finds the contradictions that
are due to a walk, and no others. -/
theorem analyseValence_error_iff_walkFault (h : t.Admissible fun i => (t.shape i).stride) :
    (∃ u, analyseValence t = .error e u) ↔ t.WalkFault e := by
  rw [analyseValence_error_iff h.pos]
  refine or_iff_right ?_
  rintro ⟨qs, hqs⟩
  have hrefine : t.refinePeriods t.strides = .ok () t.strides := refinePeriods_of_admissible h
  cases hrefine.symm.trans hqs

end Mosaic.Tiling
