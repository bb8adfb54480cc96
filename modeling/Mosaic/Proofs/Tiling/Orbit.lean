import Mathlib.Dynamics.PeriodicPts.Defs
import Mosaic.Proofs.Tiling.Turning

/-!
# Tiling — orbits around vertices

Periods that the gluings respect tell corners from each other only up to copies, and the corner
after a copy is a copy of the corner after (`Tiling.Admissible.copies_nextCorner`).  So the walks
around a vertex are those of a function on classes of copies, and the numbers of corners after which
a walk has come back are the multiples of one of them (`Tiling.Admissible.returns_iff_dvd`).

A walk counts corners from its last return on.  What it has counted when it returns at the end of a
full turn is that number (`Tiling.Paced.returns_iff`), and it is the same for all copies of a vertex
(`Tiling.analyseValence_returns`).
-/

namespace Mosaic

open Function

variable {α : Type}

/-- The copies of a corner: its shape, and its edge up to the period of the shape. -/
def copyClass (m : Nat → Nat) (x : Connection) : Nat × Nat := (x.shape, x.edge % m x.shape)

theorem copyClass_eq_iff {m : Nat → Nat} {x y : Connection} :
    copyClass m x = copyClass m y ↔ Copies m x y := by
  rw [copyClass, copyClass, Prod.mk.injEq]
  refine and_congr_right fun hshape => ?_
  rw [← hshape, Int.natCast_modEq_iff]
  rfl

namespace Tiling

/-- A walk from corner `x` on is at a copy of `x` after `n` corners. -/
def Returns (t : Tiling α) (m : Nat → Nat) (x : Connection) (n : Nat) : Prop :=
  Copies m (t.nextCorner^[n] x) x

/-- The copies of the corner after the corners of a class. -/
def nextClass (t : Tiling α) (m : Nat → Nat) (a : Nat × Nat) : Nat × Nat :=
  copyClass m (t.nextCorner ⟨a.1, a.2, false⟩)

variable {t : Tiling α} {m : Nat → Nat} {x y : Connection} {n : Nat}

theorem stride_dvd_size (hrep : t.Repetitive) {i : Nat} (hi : i < t.shapes.size) :
    (t.shape i).stride ∣ (t.shape i).size := by
  obtain ⟨hpos, hdvd⟩ := hrep _ (shape_mem hi)
  have hcount : Nat.max (t.shape i).repeatCount 1 = (t.shape i).repeatCount :=
    Nat.max_eq_left (Nat.pos_of_dvd_of_pos hdvd hpos)
  rw [Shape.stride, hcount]
  exact Nat.div_dvd_of_dvd hdvd

section

variable (ht : t.Partnered) (hangles : ∀ s ∈ t.shapes, s.angles.size = s.size)

include ht hangles

theorem HasCorner.nextCorner (hx : t.HasCorner x) : t.HasCorner (t.nextCorner x) := by
  have hlt : (x.edge + 1) % (t.shape x.shape).angles.size < (t.shape x.shape).size := by
    rw [hangles _ (shape_mem hx.1)]
    exact Nat.mod_lt _ (Nat.zero_lt_of_lt hx.2)
  exact (ht _ hx.1 _ hlt).2

theorem HasCorner.iterate (hx : t.HasCorner x) (n : Nat) :
    t.HasCorner (t.nextCorner^[n] x) := by
  induction n with
  | zero => exact hx
  | succ n ih =>
      rw [iterate_succ_apply']
      exact ih.nextCorner ht hangles

variable (hrep : t.Repetitive) (hm : t.Admissible m)

include hrep hm

omit ht in
/-- The corner after a copy is a copy of the corner after. -/
theorem Admissible.copies_nextCorner (hx : t.HasCorner x) (h : Copies m x y) :
    Copies m (t.nextCorner x) (t.nextCorner y) := by
  obtain ⟨hshape, hedge⟩ := h
  have hpos := Nat.zero_lt_of_lt hx.2
  have hdvd := (hm.dvd _ hx.1).trans (stride_dvd_size hrep hx.1)
  have hwrap (e : Nat) : ((e % (t.shape x.shape).size : Nat) : Int) ≡ e [ZMOD m x.shape] :=
    Int.natCast_modEq_iff.mpr ((Nat.mod_modEq e _).of_dvd hdvd)
  rw [Tiling.nextCorner, Tiling.nextCorner, ← hshape, hangles _ (shape_mem hx.1)]
  refine (hm.respects _ hx.1).copies (Nat.mod_lt _ hpos) (Nat.mod_lt _ hpos) ?_
  calc (((x.edge + 1) % (t.shape x.shape).size : Nat) : Int)
      ≡ (x.edge + 1 : Nat) [ZMOD m x.shape] := hwrap _
    _ ≡ (y.edge + 1 : Nat) [ZMOD m x.shape] := by
        rw [Nat.cast_succ, Nat.cast_succ]
        exact hedge.add_right 1
    _ ≡ ((y.edge + 1) % (t.shape x.shape).size : Nat) [ZMOD m x.shape] := (hwrap _).symm

/-- Walks from copies of a corner lead to copies. -/
theorem Admissible.copies_iterate (hx : t.HasCorner x) (h : Copies m x y) (n : Nat) :
    Copies m (t.nextCorner^[n] x) (t.nextCorner^[n] y) := by
  induction n with
  | zero => exact h
  | succ n ih =>
      rw [iterate_succ_apply', iterate_succ_apply']
      exact hm.copies_nextCorner hangles hrep (hx.iterate ht hangles n) ih

theorem Admissible.returns_congr (hx : t.HasCorner x) (h : Copies m x y) :
    t.Returns m x n ↔ t.Returns m y n := by
  have hequiv := copies_equivalence m
  have hsame := hm.copies_iterate ht hangles hrep hx h n
  exact ⟨fun hreturn => hequiv.trans (hequiv.symm hsame) (hequiv.trans hreturn h),
    fun hreturn => hequiv.trans hsame (hequiv.trans hreturn (hequiv.symm h))⟩

omit ht in
/-- The first corner of a class stands for the others. -/
theorem Admissible.copyClass_nextCorner (hx : t.HasCorner x) :
    copyClass m (t.nextCorner x) = t.nextClass m (copyClass m x) := by
  refine copyClass_eq_iff.mpr (hm.copies_nextCorner hangles hrep hx ⟨rfl, ?_⟩)
  exact Int.natCast_modEq_iff.mpr (Nat.mod_modEq _ _).symm

theorem Admissible.copyClass_iterate (hx : t.HasCorner x) (n : Nat) :
    copyClass m (t.nextCorner^[n] x) = (t.nextClass m)^[n] (copyClass m x) := by
  induction n with
  | zero => rfl
  | succ n ih =>
      rw [iterate_succ_apply', iterate_succ_apply', ← ih]
      exact hm.copyClass_nextCorner hangles hrep (hx.iterate ht hangles n)

/-- A walk has returned when the class of its start is a periodic point. -/
theorem Admissible.returns_iff_isPeriodicPt (hx : t.HasCorner x) :
    t.Returns m x n ↔ IsPeriodicPt (t.nextClass m) n (copyClass m x) := by
  rw [Returns, ← copyClass_eq_iff, hm.copyClass_iterate ht hangles hrep hx]
  rfl

/-- **A walk returns after the multiples of a number of corners.** -/
theorem Admissible.returns_iff_dvd (hx : t.HasCorner x) :
    t.Returns m x n ↔ minimalPeriod (t.nextClass m) (copyClass m x) ∣ n :=
  (hm.returns_iff_isPeriodicPt ht hangles hrep hx).trans isPeriodicPt_iff_minimalPeriod_dvd

end

/-! ### Walks -/

variable [Scalar α]

/-- A walk from corner `x` on has come where as many corners lead as it has met, and it counts them
from its last return on. -/
structure Paced (t : Tiling α) (m : Nat → Nat) (x : Connection) (w : VertexWalk α) : Prop where
  place : w.place = t.nextCorner^[w.angles.size] x
  counting : w.angles.size ≠ 0 → w.since ≠ 0
  counted : ∃ last, last + w.since = w.angles.size ∧ t.Returns m x last ∧
    ∀ n, last < n → n < w.angles.size → ¬ t.Returns m x n

variable {ps : Array Nat} {i k fuel : Nat} {w v : VertexWalk α}

theorem Paced.start (t : Tiling α) (m : Nat → Nat) (x : Connection) :
    t.Paced m x ⟨x, 0, #[], 0⟩ where
  place := rfl
  counting h := absurd rfl h
  counted := ⟨0, rfl, (copies_equivalence m).refl x, fun _ _ h => absurd h (Nat.not_lt_zero _)⟩

/-- One more corner is counted, and counting starts anew at a copy of the start. -/
theorem Paced.step (hp : 0 < periodOf ps i) (hw : t.Paced (periodOf ps) ⟨i, k, false⟩ w) (a : α) :
    t.Paced (periodOf ps) ⟨i, k, false⟩ (t.stepWalk ps i k w a) := by
  have hsize := t.stepWalk_size ps i k w a
  have hat : atStart ps i k w.place = true ↔
      t.Returns (periodOf ps) ⟨i, k, false⟩ w.angles.size := by
    rw [atStart_iff hp, Returns, ← hw.place, Copies]
    exact and_congr_right fun hshape => by rw [hshape]
  obtain ⟨last, hlast, hreturn, hnone⟩ := hw.counted
  refine ⟨?_, fun _ => t.stepWalk_since ps i k w a, ?_⟩
  · rw [hsize, iterate_succ_apply', ← hw.place]
    rfl
  · by_cases hstart : atStart ps i k w.place = true
    · refine ⟨w.angles.size, by simp [stepWalk, hstart], hat.mp hstart, fun n hn hlt => ?_⟩
      rw [hsize] at hlt
      exact absurd hn (Nat.not_lt.mpr (Nat.le_of_lt_succ hlt))
    · refine ⟨last, by simp [stepWalk, hstart, ← hlast, Nat.add_assoc], hreturn, fun n hn hlt => ?_⟩
      rw [hsize] at hlt
      rcases Nat.lt_succ_iff_lt_or_eq.mp hlt with hlt | rfl
      · exact hnone n hn hlt
      · exact fun hreturn' => hstart (hat.mpr hreturn')

/-- What one more corner preserves holds at the end of a walk, unless that has covered no angle. -/
theorem continueWalk_end {P : VertexWalk α → Prop}
    (hcounting : ∀ w, P w → w.angles.size ≠ 0 → w.since ≠ 0)
    (hstep : ∀ w a, P w → P (t.stepWalk ps i k w a)) (hw : P w)
    (hfuel : fuel = 0 → w.angles.size ≠ 0) (h : t.continueWalk ps i k fuel w = .ok v) :
    (v.total == 0) = true ∨ P v ∧ v.angles.size ≠ 0 := by
  induction fuel generalizing w with
  | zero =>
      cases h
      exact Or.inr ⟨hw, hfuel rfl⟩
  | succ fuel ih =>
      rw [continueWalk_step ps i k fuel (hcounting w hw)] at h
      split at h
      case isTrue hstop =>
        cases h
        exact Or.inl hstop.2.2
      case isFalse =>
        cases hfold : foldAngle (t.angleAt w.place) with
        | none =>
            rw [hfold] at h
            cases h
        | some a =>
            have hmet : (t.stepWalk ps i k w a).angles.size ≠ 0 := by simp
            simp only [hfold] at h
            split at h
            · cases h
              exact Or.inr ⟨hstep w a hw, hmet⟩
            · exact ih (hstep w a hw) (fun _ => hmet) h

/-- A walk that covers an angle has come where as many corners lead as it has met, and has counted
them from its last return on. -/
theorem walkVertex_paced (hp : 0 < periodOf ps i) (h : t.walkVertex ps i k = .ok v)
    (hv : (v.total == 0) = false) :
    t.Paced (periodOf ps) ⟨i, k, false⟩ v ∧ v.angles.size ≠ 0 := by
  have hend := continueWalk_end (fun _ hw => Paced.counting hw) (fun _ a hw => Paced.step hp hw a)
    (Paced.start t (periodOf ps) ⟨i, k, false⟩) (by simp) (walkVertex_ok.mp h).1
  exact hend.resolve_left (by simp [hv])

section

variable (ht : t.Partnered) (hangles : ∀ s ∈ t.shapes, s.angles.size = s.size)
  (hrep : t.Repetitive)

include ht hangles hrep

omit [Scalar α] in
/-- **What a walk has counted when it returns is the number of corners that it first returns
after.** -/
theorem Paced.returns_iff (hm : t.Admissible m) (hx : t.HasCorner x) (hw : t.Paced m x w)
    (hmet : w.angles.size ≠ 0) (hreturn : t.Returns m x w.angles.size) :
    t.Returns m x n ↔ w.since ∣ n := by
  have hiff (n : Nat) := hm.returns_iff_dvd (n := n) ht hangles hrep hx
  generalize minimalPeriod (t.nextClass m) (copyClass m x) = p at hiff
  obtain ⟨last, hlast, hreturn', hnone⟩ := hw.counted
  rw [hiff] at hreturn hreturn'
  have hdvd : p ∣ w.since := (Nat.dvd_add_right hreturn').mp (hlast ▸ hreturn)
  have hpos : 0 < w.since := Nat.pos_of_ne_zero (hw.counting hmet)
  -- A walk that returned earlier would have returned between its last return and its end.
  have hle : w.since ≤ p := by
    by_contra hlt
    refine hnone (last + p) ?_ ?_ ((hiff _).mpr ((Nat.dvd_add_right hreturn').mpr dvd_rfl))
    · exact Nat.lt_add_of_pos_right (Nat.pos_of_dvd_of_pos hdvd hpos)
    · rw [← hlast]
      exact Nat.add_lt_add_left (Nat.not_le.mp hlt) last
  rw [hiff, Nat.le_antisymm (Nat.le_of_dvd hpos hdvd) hle]

/-- What a walk around a vertex finds when it covers an angle: it returns, and first after as many
corners as it has counted. -/
theorem walkVertex_returns (hm : t.Admissible (periodOf ps)) (hi : i < t.shapes.size)
    (hk : k < (t.shape i).size) (h : t.walkVertex ps i k = .ok v)
    (hend : congruent v.place.edge k (periodOf ps i) = true) (hv : (v.total == 0) = false) :
    0 < v.since ∧ t.Returns (periodOf ps) ⟨i, k, false⟩ v.angles.size ∧
      ∀ n, t.Returns (periodOf ps) ⟨i, k, false⟩ n ↔ v.since ∣ n := by
  have hp := hm.pos i hi
  obtain ⟨hpaced, hmet⟩ := walkVertex_paced hp h hv
  have hshape := (walkVertex_ok.mp h).2.2.2
  have hreturn : t.Returns (periodOf ps) ⟨i, k, false⟩ v.angles.size := by
    rw [Returns, ← hpaced.place]
    refine ⟨hshape, ?_⟩
    rw [hshape]
    exact (Int.modEq_iff_dvd.mpr (dvd_of_congruent hp hend)).symm
  exact ⟨Nat.pos_of_ne_zero (hpaced.counting hmet), hreturn,
    fun n => hpaced.returns_iff ht hangles hrep hm ⟨hi, hk⟩ hmet hreturn⟩

end

theorem VertexWalk.valence_eq_finite {q : Nat} (h : w.valence = .finite q) :
    (w.total == 0) = false ∧ w.angles.size = q := by
  rw [VertexWalk.valence] at h
  split at h
  · cases h
  · rename_i htotal
    cases h
    exact ⟨Bool.eq_false_iff.mpr htotal, rfl⟩

/-- The periods that an analysis has written. -/
theorem Settled.period_eq {u : Tiling α} {qs : Array Nat} (h : t.Settled u ps qs)
    (hu : t.Annotates u) (hqs : qs.size = t.shapes.size) :
    (fun i => (u.shape i).period) = periodOf qs := by
  funext i
  rcases Nat.lt_or_ge i t.shapes.size with hi | hi
  · exact h.period i hi
  · rw [periodOf_of_le (hqs ▸ hi), shape, Array.getElem?_eq_none (hu.size_eq ▸ hi)]
    rfl

/-- **Vertex walks respect the periods.**  The periods that an analysis leaves are admissible, and
there are a valence, a period and angles for every vertex.  If `q` corners meet at a vertex, then
its angles are `q`, the walk around it is at a copy of it after `q` corners, and its period is
the number of corners after which it is so for the first time; copies of a vertex have the same
period. -/
theorem analyseValence_returns {u : Tiling α} (ht : t.Partnered)
    (hangles : ∀ s ∈ t.shapes, s.angles.size = s.size) (hrep : t.Repetitive)
    (hround : (t.geometry.isAffine || t.isStar) = false) (h : analyseValence t = .ok () u) :
    (t.Admissible fun i => (u.shape i).period) ∧ ∀ i < t.shapes.size,
      ((u.shape i).valences.size = (t.shape i).size ∧
        (u.shape i).vertexPeriods.size = (t.shape i).size ∧
        (u.shape i).vertexAngles.size = (t.shape i).size) ∧
      ∀ k < (t.shape i).size, ∀ q, (u.shape i).valences[k]? = some (.finite q) →
        ∃ p angles, (u.shape i).vertexPeriods[k]? = some p ∧
          (u.shape i).vertexAngles[k]? = some angles ∧ angles.size = q ∧ 0 < p ∧ p ∣ q ∧
          t.Returns (fun i => (u.shape i).period) ⟨i, k, false⟩ q ∧
          (∀ n, t.Returns (fun i => (u.shape i).period) ⟨i, k, false⟩ n ↔ p ∣ n) ∧
          ∀ k' < (t.shape i).size, k' ≡ k [MOD (u.shape i).period] → ∀ q',
            (u.shape i).valences[k']? = some (.finite q') →
              (u.shape i).vertexPeriods[k']? = some p := by
  have hpos : ∀ i < t.shapes.size, 0 < (t.shape i).stride := fun i hi => hrep.stride_pos hi
  obtain ⟨ps, qs, hsettled⟩ := analyseValence_settled hpos h
  have hanalysed := hsettled.analysed ht hpos
  have hperiods := hsettled.period_eq (analyseValence_annotates h)
    (hanalysed.narrower.size.trans Array.size_map)
  have hm := hanalysed.admissible
  rw [hperiods]
  refine ⟨hm, fun i hi => ?_⟩
  obtain ⟨hsizes, hwalks⟩ := (hsettled.recorded hround i hi).walks
  refine ⟨hsizes, fun k hk q hq => ?_⟩
  obtain ⟨w, hw, hend, hvalence, hperiod, hlist⟩ := hwalks k hk
  obtain ⟨htotal, rfl⟩ := VertexWalk.valence_eq_finite (Option.some.inj (hvalence.symm.trans hq))
  obtain ⟨hsince, hreturn, hiff⟩ :=
    walkVertex_returns ht hangles hrep hm hi hk hw hend htotal
  refine ⟨w.since, w.angles, hperiod, hlist, rfl, hsince, (hiff _).mp hreturn, hreturn, hiff,
    fun k' hk' hmod q' hq' => ?_⟩
  obtain ⟨w', hw', hend', hvalence', hperiod', -⟩ := hwalks k' hk'
  obtain ⟨htotal', rfl⟩ := VertexWalk.valence_eq_finite (Option.some.inj (hvalence'.symm.trans hq'))
  obtain ⟨-, -, hiff'⟩ := walkVertex_returns ht hangles hrep hm hi hk' hw' hend' htotal'
  -- The walks around both vertices return after the same numbers of corners.
  have hcopies : Copies (periodOf qs) ⟨i, k', false⟩ ⟨i, k, false⟩ := by
    refine ⟨rfl, Int.natCast_modEq_iff.mpr ?_⟩
    rwa [hsettled.period i hi] at hmod
  have hsame (n : Nat) : w'.since ∣ n ↔ w.since ∣ n := by
    rw [← hiff' n, ← hiff n]
    exact hm.returns_congr ht hangles hrep ⟨hi, hk'⟩ hcopies
  rw [hperiod', Nat.dvd_antisymm ((hsame _).mpr dvd_rfl) ((hsame _).mp dvd_rfl)]

/-- A rectangle, each edge glued to itself.  Half a turn takes it to itself. -/
def rectangle : Tiling Whole :=
  (kaleidoscope #[1, 1, 1, 1]).modifyShape 0 fun s =>
    { s with edges := #[.finite 1, .finite 2, .finite 1, .finite 2], repeatCount := 2 }

/-- Four rectangles meet at a corner, and the walk around it is at a copy of it after every other
one. -/
theorem rectangle_returns : ∃ u, analyseValence rectangle = .ok () u ∧
    (u.shape 0).period = 2 ∧ (u.shape 0).valences[1]? = some (.finite 4) ∧
    (u.shape 0).vertexPeriods[1]? = some 2 ∧ (u.shape 0).vertexPeriods[3]? = some 2 ∧
    ∀ n, rectangle.Returns (fun i => (u.shape i).period) ⟨0, 1, false⟩ n ↔ 2 ∣ n := by
  have hu := eq_ok_unit_of_isSome (x := analyseValence rectangle) (by cbv)
  have hvalences : ((left (analyseValence rectangle)).shape 0).valences =
    Array.replicate 4 (.finite 4) := by cbv
  have hperiod : ((left (analyseValence rectangle)).shape 0).period = 2 := by cbv
  have hperiods : ((left (analyseValence rectangle)).shape 0).vertexPeriods =
    Array.replicate 4 2 := by cbv
  have hrep : rectangle.Repetitive := by
    unfold Repetitive
    decide
  have ht : rectangle.WellFormed := by decide
  obtain ⟨-, hwalks⟩ := analyseValence_returns ht.partnered (by decide) hrep rfl hu
  obtain ⟨p, angles, hp, -, -, -, -, -, hiff, hsame⟩ :=
    (hwalks 0 (by decide)).2 1 (by decide) 4 (by simp [hvalences])
  obtain rfl : 2 = p := by simpa [hperiods] using hp
  refine ⟨_, hu, hperiod, by simp [hvalences], hp, ?_, hiff⟩
  exact hsame 3 (by decide) (by rw [hperiod]; rfl) 4 (by simp [hvalences])

end Tiling

end Mosaic
