import Mosaic.Proofs.Descent
import Mosaic.Proofs.Tiling.Period
import Mosaic.Tiling.Valence

/-!
# Tiling — what an analysis of valences does

An analysis goes on in rounds.  In a round the vertices are walked around in their order, up to the
first one from which the walk does not come back (`Tiling.ComesTo`, `walkShapes_walked`).  An
analysis writes periods, walks and extremes into the tiling and nothing else, whether it fails or
not (`analyseValence_keeps`).
-/

namespace Mosaic.Tiling

variable {α : Type} [Scalar α] {t : Tiling α}

/-! ### Walks -/

/-- A walk is stopped by an angle only. -/
theorem continueWalk_error {periods : Array Nat} {i k fuel : Nat} {w : VertexWalk α}
    {e : Inconsistency α} (h : t.continueWalk periods i k fuel w = .error e) :
    e = .endlessAngle i k := by
  induction fuel generalizing w with
  | zero => cases h
  | succ fuel ih =>
      rw [continueWalk] at h
      dsimp only at h
      generalize (if w.place.shape == i && congruent w.place.edge k
        ((periods[w.place.shape]?).getD 0) then 0 else w.since) = since at h
      split at h
      · cases h
      · split at h
        · cases h
          rfl
        · split at h
          · cases h
          · exact ih h

/-- What a walk around a vertex may find. -/
theorem walkVertex_error {periods : Array Nat} {i k : Nat} {e : Inconsistency α}
    (h : t.walkVertex periods i k = .error e) :
    e = .endlessAngle i k ∨ (∃ total, e = .improperTotal i k total) ∨ e = .wrongShape i k := by
  rw [walkVertex] at h
  cases hw : t.continueWalk periods i k (maxWalk + 1) ⟨⟨i, k, false⟩, 0, #[], 0⟩ with
  | error e' =>
      rw [hw] at h
      cases h
      exact Or.inl (continueWalk_error hw)
  | ok w =>
      rw [hw] at h
      simp only [bind, Except.bind, throw, throwThe, MonadExceptOf.throw, pure, Except.pure] at h
      split at h
      · cases h
        exact Or.inr (Or.inl ⟨_, rfl⟩)
      · split at h
        · cases h
          exact Or.inr (Or.inr rfl)
        · cases h

theorem not_dvd_of_congruent {i j p : Nat} (h : congruent i j p = false) :
    ¬ (p : Int) ∣ i - j := by
  intro hdvd
  have hmax : ((Nat.max p 1 : Nat) : Int) ∣ i - j := by
    rcases Nat.eq_zero_or_pos p with rfl | hp
    · exact one_dvd _
    · rwa [show Nat.max p 1 = p from Nat.max_eq_left hp]
  rw [congruent, beq_eq_false_iff_ne] at h
  exact h (Int.emod_eq_zero_of_dvd hmax)

/-! ### The walks of a round -/

/-- The walk around vertex `k` of shape `i` ends at a copy of the vertex. -/
def ComesBack (t : Tiling α) (ps : Array Nat) (i k : Nat) : Prop :=
  ∃ w, t.walkVertex ps i k = .ok w ∧ congruent w.place.edge k (periodOf ps i) = true

/-- Walking around the vertices in their order comes to vertex `k` of shape `i`, because all walks
before come back. -/
structure ComesTo (t : Tiling α) (ps : Array Nat) (i k : Nat) : Prop where
  shape_lt : i < t.shapes.size
  vertex_lt : k < (t.shape i).size
  earlier : ∀ j l, l < (t.shape j).size → j < i ∨ j = i ∧ l < k → t.ComesBack ps j l

section

variable {ps : Array Nat} {i j k l : Nat} {e : Inconsistency α} {w : VertexWalk α}

/-- A walk that fails does not come back. -/
theorem not_comesBack_of_error (h : t.walkVertex ps i k = .error e) : ¬ t.ComesBack ps i k := by
  rintro ⟨w, hw, -⟩
  cases h.symm.trans hw

/-- A walk that ends elsewhere does not come back. -/
theorem not_comesBack_of_far (h : t.walkVertex ps i k = .ok w)
    (hfar : congruent w.place.edge k (periodOf ps i) = false) : ¬ t.ComesBack ps i k := by
  rintro ⟨w', hw', hnear⟩
  cases h.symm.trans hw'
  cases hfar.symm.trans hnear

/-- There is one vertex at most that walking comes to and no walk comes back from. -/
theorem ComesTo.unique (h : t.ComesTo ps i k) (h' : t.ComesTo ps j l) (hk : ¬ t.ComesBack ps i k)
    (hl : ¬ t.ComesBack ps j l) : i = j ∧ k = l := by
  have hfirst : ¬ (i < j ∨ i = j ∧ k < l) := fun hlt => hk (h'.earlier i k h.vertex_lt hlt)
  have hsecond : ¬ (j < i ∨ j = i ∧ l < k) := fun hlt => hl (h.earlier j l h'.vertex_lt hlt)
  omega

/-- What the walks around the first `n` vertices of shape `i` come to. -/
inductive ShapeWalked (t : Tiling α) (ps : Array Nat) (i n : Nat) :
    Except (Inconsistency α) (ShapeWalks α) → Prop where
  | refused {k : Nat} {e : Inconsistency α} (hk : k < n) (hearlier : ∀ l < k, t.ComesBack ps i l)
      (h : t.walkVertex ps i k = .error e) : ShapeWalked t ps i n (.error e)
  | narrowed {k : Nat} {w : VertexWalk α} (hk : k < n) (hearlier : ∀ l < k, t.ComesBack ps i l)
      (h : t.walkVertex ps i k = .ok w)
      (hfar : congruent w.place.edge k (periodOf ps i) = false) :
      ShapeWalked t ps i n (.ok (.narrowed ((w.place.edge : Int) - k)))
  | complete {walks : Array (VertexWalk α)} (h : ∀ l < n, t.ComesBack ps i l) :
      ShapeWalked t ps i n (.ok (.complete walks))

/-- Walks from vertex `k` on, when those before come back. -/
theorem walkShapeFrom_walked (n : Nat) {done : Array (VertexWalk α)}
    (h : ∀ l < k, t.ComesBack ps i l) :
    t.ShapeWalked ps i (k + n) (t.walkShapeFrom ps i (List.range' k n) done) := by
  induction n generalizing k done with
  | zero => exact .complete h
  | succ n ih =>
      rw [List.range'_succ, walkShapeFrom]
      cases hw : t.walkVertex ps i k with
      | error e => exact .refused (by omega) h hw
      | ok w =>
          simp only [bind, Except.bind]
          split
          · rename_i hnear
            rw [show k + (n + 1) = k + 1 + n by omega]
            refine ih fun l hl => ?_
            rcases Nat.lt_succ_iff_lt_or_eq.mp hl with hl | rfl
            · exact h l hl
            · exact ⟨w, hw, hnear⟩
          · rename_i hfar
            exact .narrowed (by omega) h hw (Bool.eq_false_iff.mpr hfar)

/-- What the walks of a round come to: they come to a vertex at which the walk fails or ends at a
distance that the period of its shape does not divide, or all of them come back. -/
inductive Walked (t : Tiling α) (ps : Array Nat) :
    EStateM.Result (Inconsistency α) (Tiling α) (Option (Nat × Int)) → Prop where
  | refused {i k : Nat} {e : Inconsistency α} {u : Tiling α} (hto : t.ComesTo ps i k)
      (h : t.walkVertex ps i k = .error e) : Walked t ps (.error e u)
  | narrowed {i k : Nat} {w : VertexWalk α} {u : Tiling α} (hto : t.ComesTo ps i k)
      (h : t.walkVertex ps i k = .ok w)
      (hfar : congruent w.place.edge k (periodOf ps i) = false) :
      Walked t ps (.ok (some (i, (w.place.edge : Int) - k)) u)
  | complete {u : Tiling α} (h : ∀ i < t.shapes.size, ∀ k < (t.shape i).size, t.ComesBack ps i k) :
      Walked t ps (.ok none u)

theorem walkShapes_walked (t : Tiling α) (ps : Array Nat) (s : Tiling α) :
    t.Walked ps (t.walkShapes ps (List.range t.shapes.size) s) := by
  suffices h : ∀ n i s, i + n = t.shapes.size →
      (∀ j < i, ∀ l < (t.shape j).size, t.ComesBack ps j l) →
      t.Walked ps (t.walkShapes ps (List.range' i n) s) by
    rw [List.range_eq_range']
    exact h _ 0 s (Nat.zero_add _) fun j hj => absurd hj (Nat.not_lt_zero j)
  intro n
  induction n with
  | zero =>
      intro i s hi h
      rw [Nat.add_zero] at hi
      exact .complete (hi ▸ h)
  | succ n ih =>
      intro i s hi h
      have hto {k : Nat} (hk : k < (t.shape i).size) (hearlier : ∀ l < k, t.ComesBack ps i l) :
          t.ComesTo ps i k := by
        refine ⟨by omega, hk, fun j l hl hbefore => ?_⟩
        rcases hbefore with hj | ⟨rfl, hlk⟩
        · exact h j hj l hl
        · exact hearlier l hlk
      have hshape : t.ShapeWalked ps i (0 + (t.shape i).size)
          (t.walkShapeFrom ps i (List.range' 0 (t.shape i).size) #[]) :=
        walkShapeFrom_walked _ fun l hl => absurd hl (Nat.not_lt_zero l)
      rw [Nat.zero_add, ← List.range_eq_range'] at hshape
      rw [List.range'_succ, walkShapes]
      cases hwalk : t.walkShapeFrom ps i (List.range (t.shape i).size) #[] with
      | error e =>
          rw [hwalk] at hshape
          cases hshape with
          | refused hk hearlier herror => exact .refused (hto hk hearlier) herror
      | ok x =>
          rw [hwalk] at hshape
          cases hshape with
          | narrowed hk hearlier hw hfar => exact .narrowed (hto hk hearlier) hw hfar
          | complete hall =>
              refine ih (i + 1) _ (by omega) fun j hj l hl => ?_
              rcases Nat.lt_succ_iff_lt_or_eq.mp hj with hj | rfl
              · exact h j hj l hl
              · exact hall l hl

/-- The error of the walks is that of one of them, at a corner that they have come to. -/
theorem walkShapes_refused {s u : Tiling α}
    (h : t.walkShapes ps (List.range t.shapes.size) s = .error e u) :
    ∃ i k, t.ComesTo ps i k ∧ t.walkVertex ps i k = .error e := by
  have hwalked := t.walkShapes_walked ps s
  rw [h] at hwalked
  cases hwalked with
  | refused hto herror => exact ⟨_, _, hto, herror⟩

/-- The walks are interrupted by one that ends at another edge of its shape. -/
theorem walkShapes_narrowed {s u : Tiling α} {d : Int}
    (h : t.walkShapes ps (List.range t.shapes.size) s = .ok (some (i, d)) u) :
    ∃ k w, t.ComesTo ps i k ∧ t.walkVertex ps i k = .ok w ∧
      congruent w.place.edge k (periodOf ps i) = false ∧ d = w.place.edge - k := by
  have hwalked := t.walkShapes_walked ps s
  rw [h] at hwalked
  cases hwalked with
  | narrowed hto hw hfar => exact ⟨_, _, hto, hw, hfar, rfl⟩

/-- If no walk fails or interrupts the others, all of them come back. -/
theorem walkShapes_complete {s u : Tiling α}
    (h : t.walkShapes ps (List.range t.shapes.size) s = .ok none u) (hto : t.ComesTo ps i k) :
    t.ComesBack ps i k := by
  have hwalked := t.walkShapes_walked ps s
  rw [h] at hwalked
  cases hwalked with
  | complete hall => exact hall i hto.shape_lt k hto.vertex_lt

end

/-! ### Rounds -/

/-- One round of an analysis. -/
theorem settleValence_succ (t : Tiling α) (fuel : Nat) (ps : Array Nat) (s : Tiling α) :
    t.settleValence (fuel + 1) ps s = match t.refinePeriods ps with
      | .error e qs => .error e (s.withPeriods qs)
      | .ok () qs =>
        if t.geometry.isAffine || t.isStar then .ok () (s.withPeriods qs)
        else match t.walkShapes qs (List.range t.shapes.size)
            { s.withPeriods qs with haveValence := true } with
          | .error e u => .error e u
          | .ok none u => .ok () u
          | .ok (some (i, d)) u => t.settleValence fuel (qs.modify i (reduceGcd · d))
              (u.withPeriods (qs.modify i (reduceGcd · d))) := by
  rw [settleValence, EStateM.run]
  cases t.refinePeriods ps with
  | error e qs => rfl
  | ok _ qs =>
      dsimp only
      split
      · rfl
      · change EStateM.bind (t.walkShapes qs _) _ { s.withPeriods qs with haveValence := true } = _
        rw [EStateM.bind]
        cases t.walkShapes qs (List.range t.shapes.size)
            { s.withPeriods qs with haveValence := true } with
        | error e u => rfl
        | ok x u => cases x <;> rfl

/-- What an analysis leaves when its rounds have ended. -/
def closing (t : Tiling α) : EStateM.Result (Inconsistency α) (Tiling α) Unit →
    EStateM.Result (Inconsistency α) (Tiling α) Unit
  | .error e u => .error e u
  | .ok () u => .ok () (if t.geometry.isAffine || t.isStar then u else u.withExtremes)

/-- An analysis settles the cycle lengths, starting with those that are declared, and takes the
extremes. -/
theorem analyseValence_eq (t : Tiling α) : analyseValence t =
    t.closing (t.settleValence t.refineBound t.strides (t.withPeriods t.strides)) := by
  change EStateM.bind (t.settleValence t.refineBound t.strides) _ (t.withPeriods t.strides) = _
  rw [EStateM.bind]
  cases t.settleValence t.refineBound t.strides (t.withPeriods t.strides) with
  | error e u => rfl
  | ok _ u =>
      dsimp only [closing]
      split <;> rfl

/-- An analysis succeeds as its rounds do. -/
theorem analyseValence_ok {a : Unit} {u : Tiling α} (h : analyseValence t = .ok a u) :
    ∃ v, t.settleValence t.refineBound t.strides (t.withPeriods t.strides) = .ok () v ∧
      u = if t.geometry.isAffine || t.isStar then v else v.withExtremes := by
  rw [analyseValence_eq] at h
  cases hsettle : t.settleValence t.refineBound t.strides (t.withPeriods t.strides) with
  | error e v =>
      rw [hsettle] at h
      cases h
  | ok _ v =>
      rw [hsettle] at h
      cases h
      exact ⟨v, rfl, rfl⟩

/-! ### What is kept -/

section Keeps

variable {P : Tiling α → Prop}
  (hwalks : ∀ s i walks, P s → P (s.modifyShape i (·.withWalks walks)))
  (hperiods : ∀ s ps, P s → P (s.withPeriods ps))
  (hmarked : ∀ s, P s → P { s with haveValence := true })
  (hextremes : ∀ s, P s → P s.withExtremes)

include hwalks

/-- Walks keep what writing their results into a shape keeps. -/
theorem walkShapes_keeps (periods : Array Nat) (is : List Nat) {s : Tiling α} (hs : P s) :
    P (left (t.walkShapes periods is s)) := by
  induction is generalizing s with
  | nil => exact hs
  | cons i is ih =>
      rw [walkShapes]
      cases t.walkShapeFrom periods i (List.range (t.shape i).size) #[] with
      | error e => exact hs
      | ok x =>
          cases x with
          | narrowed d => exact hs
          | complete walks => exact ih (hwalks s i walks hs)

include hperiods hmarked

/-- The passes keep what cycle lengths and walks keep. -/
theorem settleValence_keeps (fuel : Nat) (periods : Array Nat) {s : Tiling α} (hs : P s) :
    P (left (t.settleValence fuel periods s)) := by
  induction fuel generalizing periods s with
  | zero => exact hs
  | succ fuel ih =>
      rw [settleValence_succ]
      cases t.refinePeriods periods with
      | error e qs => exact hperiods s qs hs
      | ok _ qs =>
          dsimp only
          split
          · exact hperiods s qs hs
          have hwalked := walkShapes_keeps (t := t) hwalks qs (List.range t.shapes.size)
            (hmarked _ (hperiods s qs hs))
          cases hwalk : t.walkShapes qs (List.range t.shapes.size)
              { s.withPeriods qs with haveValence := true } with
          | error e u =>
              rw [hwalk] at hwalked
              exact hwalked
          | ok x u =>
              rw [hwalk] at hwalked
              cases x with
              | none => exact hwalked
              | some x => exact ih _ (hperiods u _ hwalked)

include hextremes

/-- What the parts of an analysis keep is kept by it, whether it fails or not. -/
theorem analyseValence_keeps (ht : P t) : P (left (analyseValence t)) := by
  have hsettled := settleValence_keeps (t := t) hwalks hperiods hmarked t.refineBound t.strides
    (hperiods t t.strides ht)
  rw [analyseValence_eq]
  cases hsettle : t.settleValence t.refineBound t.strides (t.withPeriods t.strides) with
  | error e u =>
      rw [hsettle] at hsettled
      exact hsettled
  | ok _ u =>
      rw [hsettle] at hsettled
      change P (if t.geometry.isAffine || t.isStar then u else u.withExtremes)
      split
      · exact hsettled
      · exact hextremes u hsettled

end Keeps

end Mosaic.Tiling
