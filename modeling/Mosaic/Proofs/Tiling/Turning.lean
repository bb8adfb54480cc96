import Mathlib
import Mosaic.Proofs.Scalar.Whole
import Mosaic.Proofs.Tiling.Quotient
import Mosaic.Proofs.Tiling.Symmetry

/-!
# Tiling — valences in the double cover

On the second sheet of the double cover shapes are walked in the opposite direction.  So a walk
around a vertex of the cover, followed in the tiling itself, turns the other way round behind every
mirrored gluing that it crosses (`Tiling.turningCourse`).  A walk in the tiling does not look at the
mirror flag and always turns the same way round (`Tiling.plainCourse`).

Both kinds of walks count corners in the same manner, once a way around the vertex is given
(`Course`).  The analysis of a tiling finds the valences of its shapes that the analysis of its
cover finds exactly when both ways around every vertex meet the same number of corners
(`valences_doubleCover_iff`).  They do if no mirrored gluing is crossed
(`valences_doubleCover_of_plain`), but not around the vertices of two squares in a row with a mirror
for every edge (`domino_valences`).
-/

namespace Mosaic

variable {α : Type}

/-- A way around a vertex: the angle of a corner, the corner after it, and whether a corner is a
copy of the first one. -/
structure Course (α : Type) where
  angle : Connection → α
  next : Connection → Connection
  atStart : Connection → Bool

namespace Course

variable [Scalar α]

/-- Goes on along a course from corner `c`, for `fuel` more corners, when `count` corners have
covered the angle `total`.  The angle and the number of corners when a full turn is covered, or at a
copy of the first corner if no angle is covered there. -/
def walk (r : Course α) : (fuel : Nat) → Connection → (total : α) → (count : Nat) → Option (α × Nat)
  | 0, _, total, count => some (total, count)
  | fuel + 1, c, total, count =>
    if count ≠ 0 ∧ r.atStart c ∧ total == 0 then some (total, count)
    else
      match foldAngle (r.angle c) with
      | none => none
      | some a =>
        if Scalar.tau - 1e-6 ≤ total + a then some (total + a, count + 1)
        else r.walk fuel (r.next c) (total + a) (count + 1)

/-- The valence of the vertex that the course goes around from corner `c` on. -/
def valence (r : Course α) (c : Connection) : Option Valence :=
  (r.walk (maxWalk + 1) c 0 0).map fun x => if x.1 == 0 then .unbounded else .finite x.2

variable {r r' : Course α} {fuel count : Nat} {c : Connection} {total : α} {x : α × Nat}

theorem le_of_walk (h : r.walk fuel c total count = some x) : count ≤ x.2 := by
  induction fuel generalizing c total count with
  | zero =>
      cases h
      exact Nat.le_refl _
  | succ fuel ih =>
      rw [walk] at h
      split at h
      · cases h
        exact Nat.le_refl _
      · split at h
        · cases h
        · split at h
          · cases h
            exact Nat.le_succ _
          · exact Nat.le_of_succ_le (ih h)

/-- Courses that agree up to the end of a walk lead it to the same end. -/
theorem walk_congr (h : r.walk fuel c total count = some x)
    (hsame : ∀ j, count + j ≤ x.2 → r'.angle (r.next^[j] c) = r.angle (r.next^[j] c) ∧
      r'.atStart (r.next^[j] c) = r.atStart (r.next^[j] c) ∧
      r'.next (r.next^[j] c) = r.next (r.next^[j] c)) :
    r'.walk fuel c total count = some x := by
  induction fuel generalizing c total count with
  | zero => exact h
  | succ fuel ih =>
      obtain ⟨hangle, hstart, hnext⟩ := hsame 0 (le_of_walk h)
      simp only [Function.iterate_zero_apply] at hangle hstart hnext
      rw [walk] at h ⊢
      rw [hangle, hstart, hnext]
      split
      · rwa [if_pos ‹_›] at h
      rw [if_neg ‹_›] at h
      cases hfold : foldAngle (r.angle c) with
      | none =>
          rw [hfold] at h
          cases h
      | some a =>
          simp only [hfold] at h ⊢
          split
          · rwa [if_pos ‹_›] at h
          rw [if_neg ‹_›] at h
          exact ih h fun j hj => hsame (j + 1) (by omega)

/-- The course leads where the walks around vertex `k` of shape `i` of `d` lead, if corners that `R`
relates are at the same place. -/
structure Leads (r : Course α) (d : Tiling α) (ps : Array Nat) (i k : Nat)
    (R : Connection → Connection → Prop) : Prop where
  angle : ∀ {x y}, R x y → r.angle x = d.angleAt y
  atStart : ∀ {x y}, R x y → r.atStart x = Tiling.atStart ps i k y
  next : ∀ {x y}, R x y → R (r.next x) (d.nextCorner y)

namespace Leads

variable {d : Tiling α} {ps : Array Nat} {i k : Nat} {R : Connection → Connection → Prop}
  (h : r.Leads d ps i k R)

include h

/-- A walk covers the same angle and meets as many corners as the course. -/
theorem walk {w v : VertexWalk α} (hc : R c w.place) (hw : w.angles.size ≠ 0 → w.since ≠ 0)
    (hok : d.continueWalk ps i k fuel w = .ok v) :
    r.walk fuel c w.total w.angles.size = some (v.total, v.angles.size) := by
  induction fuel generalizing c w with
  | zero =>
      cases hok
      rfl
  | succ fuel ih =>
      rw [d.continueWalk_step ps i k fuel hw, ← h.atStart hc, ← h.angle hc] at hok
      rw [Course.walk]
      split
      · rw [if_pos ‹_›] at hok
        cases hok
        rfl
      rw [if_neg ‹_›] at hok
      cases hfold : foldAngle (r.angle c) with
      | none =>
          rw [hfold] at hok
          cases hok
      | some a =>
          simp only [hfold] at hok ⊢
          split
          · rw [if_pos ‹_›] at hok
            cases hok
            rw [d.stepWalk_size, d.stepWalk_total]
          · rw [if_neg ‹_›] at hok
            rw [← d.stepWalk_size ps i k w a, ← d.stepWalk_total ps i k w a]
            exact ih (h.next hc) (fun _ => d.stepWalk_since ps i k w a) hok

theorem valence {v : VertexWalk α} (hc : R c ⟨i, k, false⟩) (hok : d.walkVertex ps i k = .ok v) :
    r.valence c = some v.valence := by
  have hwalk := h.walk (w := ⟨_, _, _, _⟩) hc (by simp) (Tiling.walkVertex_ok.mp hok).1
  rw [Course.valence]
  exact congrArg (Option.map _) hwalk

end Leads

end Course

namespace Tiling

/-- There is a corner at the end of this edge. -/
def HasCorner (t : Tiling α) (c : Connection) : Prop :=
  c.shape < t.shapes.size ∧ c.edge < (t.shape c.shape).size

/-- The corner of the double cover that a corner on a sheet is; a mirrored one is on the second. -/
def lifted (t : Tiling α) (c : Connection) : Connection :=
  ⟨t.copy c.mirror c.shape, t.copyEdge c.mirror c.shape c.edge, false⟩

/-- The edge that a walk crosses behind corner `c`: the next one, or the one before on the second
sheet. -/
def crossed (t : Tiling α) (c : Connection) : Nat :=
  let n := (t.shape c.shape).angles.size
  if c.mirror then (c.edge + n - 1) % n else (c.edge + 1) % n

section

variable [Scalar α]

/-- The way around vertex `k` of shape `i` that does not heed the mirror flag. -/
def plainCourse (t : Tiling α) (period i k : Nat) : Course α where
  angle := t.angleAt
  next := t.nextCorner
  atStart c := c.shape == i && congruent c.edge k period

/-- The way around vertex `k` of shape `i` that turns the other way round on the second sheet, where
the corner of an edge is at its other end. -/
def turningCourse (t : Tiling α) (period i k : Nat) : Course α where
  angle c := t.angleAt (if c.mirror then { c with edge := t.crossed c } else c)
  next c :=
    let d := (t.shape c.shape).connection (t.crossed c)
    { d with mirror := c.mirror ^^ d.mirror }
  atStart c := !c.mirror && c.shape == i && congruent c.edge k period

end

variable {t d : Tiling α}

/-! ### Corners of the cover -/

section

variable (ht : t.WellFormed) (hangles : ∀ s ∈ t.shapes, s.angles.size = s.size)

include hangles

theorem crossed_eq {c : Connection} (hc : t.HasCorner c) : t.crossed c =
    if c.mirror then (c.edge + (t.shape c.shape).size - 1) % (t.shape c.shape).size
    else (c.edge + 1) % (t.shape c.shape).size := by
  rw [crossed, hangles _ (shape_mem hc.1)]

theorem crossed_lt {c : Connection} (hc : t.HasCorner c) :
    t.crossed c < (t.shape c.shape).size := by
  have hpos : 0 < (t.shape c.shape).size := Nat.zero_lt_of_lt hc.2
  rw [crossed_eq hangles hc]
  split <;> exact Nat.mod_lt _ hpos

/-- Behind a corner of the cover there is the copy of the edge that is crossed. -/
theorem copyEdge_crossed (hends : ∀ s ∈ t.shapes, s.apeirogonal → 2 ≤ s.size) {c : Connection}
    (hc : t.HasCorner c) : t.copyEdge c.mirror c.shape (t.crossed c) =
      (t.copyEdge c.mirror c.shape c.edge + 1) % (t.shape c.shape).size := by
  rw [crossed_eq hangles hc]
  cases c.mirror with
  | false => rfl
  | true => exact reflectedEdge_pred (hends _ (shape_mem hc.1)) hc.2

namespace IsDoubleCover

variable [Scalar α] (hd : t.IsDoubleCover d)

include hd

theorem angles_size {a : Nat} (ha : a < t.shapes.size) (image : Bool) :
    (d.shape (t.copy image a)).angles.size = (t.shape a).size := by
  cases image with
  | false =>
      obtain ⟨r, hr, -, -, hrangles, -⟩ := hd.original a _ (getElem?_shape ha)
      rw [shape_eq hr, hrangles, hangles _ (shape_mem ha)]
  | true =>
      obtain ⟨r, hr, himage⟩ := hd.image a _ (getElem?_shape ha)
      rw [shape_eq hr, himage.angles_size]

variable (hends : ∀ s ∈ t.shapes, s.apeirogonal → 2 ≤ s.size)

include hends

/-- The angle at a corner of the cover. -/
theorem angleAt_lifted {c : Connection} (hc : t.HasCorner c) (period i k : Nat) :
    (t.turningCourse period i k).angle c = d.angleAt (t.lifted c) := by
  have hcrossed := copyEdge_crossed hangles hends hc
  have hlt := crossed_lt hangles hc
  rw [lifted, angleAt]
  cases hmirror : c.mirror with
  | false =>
      obtain ⟨r, hr, -, -, hrangles, -⟩ := hd.original c.shape _ (getElem?_shape hc.1)
      rw [shape_eq hr, hrangles]
      simp [turningCourse, hmirror, angleAt, copyEdge]
  | true =>
      obtain ⟨r, hr, himage⟩ := hd.image c.shape _ (getElem?_shape hc.1)
      -- The corner of the edge crossed lies at the start of its image, which is behind.
      have hangle := himage.angle _ hlt
      rw [hmirror, copyEdge, copyEdge, if_pos rfl, if_pos rfl] at hcrossed
      rw [hcrossed, pred_succ_mod (reflectedEdge_lt hc.2)] at hangle
      rw [shape_eq hr, copyEdge, if_pos rfl, hangle]
      simp [turningCourse, hmirror, angleAt]

include ht

/-- The corner after a corner of the cover. -/
theorem nextCorner_lifted {c : Connection} (hc : t.HasCorner c) (period i k : Nat) :
    t.HasCorner ((t.turningCourse period i k).next c) ∧
      t.lifted ((t.turningCourse period i k).next c) = d.nextCorner (t.lifted c) := by
  have hlt := crossed_lt hangles hc
  have hglued := hd.glued _ _ _ (ht.connection_eq hc.1 hlt) c.mirror
  rw [copyEdge_crossed hangles hends hc] at hglued
  refine ⟨⟨ht.target_shape_lt hc.1 hlt, ht.target_edge_lt hc.1 hlt⟩, ?_⟩
  change _ = (d.shape (t.copy c.mirror c.shape)).connection
    ((t.copyEdge c.mirror c.shape c.edge + 1) % (d.shape (t.copy c.mirror c.shape)).angles.size)
  rw [hd.angles_size hangles hc.1, Shape.connection, (connection?_eq_some_iff.mp hglued).2]
  rfl

/-- In the cover, walks around vertices of the first sheet lead where the turning ways lead. -/
theorem leads {ps : Array Nat} {i : Nat} (hi : i < t.shapes.size) (k : Nat) :
    (t.turningCourse (periodOf ps i) i k).Leads d ps i k
      fun c c' => t.HasCorner c ∧ t.lifted c = c' := by
  refine ⟨?_, ?_, ?_⟩
  · rintro c _ ⟨hc, rfl⟩
    exact hd.angleAt_lifted hangles hends hc _ _ _
  · rintro c _ ⟨-, rfl⟩
    simp only [turningCourse, lifted, Tiling.atStart]
    cases c.mirror with
    | false =>
        simp only [copy, copyEdge, Bool.false_eq_true, if_false, Bool.not_false, Bool.true_and]
        by_cases hshape : c.shape = i
        · rw [hshape]
        · rw [beq_false_of_ne hshape]
          rfl
    | true =>
        have hsheet : t.copy true c.shape ≠ i := Nat.ne_of_gt (Nat.lt_add_left c.shape hi)
        simp [hsheet]
  · rintro c _ ⟨hc, rfl⟩
    exact hd.nextCorner_lifted ht hangles hends hc _ _ _

end IsDoubleCover

end

/-! ### What the analyses find -/

variable [Scalar α] {u v : Tiling α} {ps : Array Nat} {i k : Nat}

theorem plainCourse_leads (t : Tiling α) (ps : Array Nat) (i k : Nat) :
    (t.plainCourse (periodOf ps i) i k).Leads t ps i k Eq := by
  refine ⟨?_, ?_, ?_⟩ <;> rintro c _ rfl
  · rfl
  · simp only [plainCourse, Tiling.atStart]
    by_cases hshape : c.shape = i
    · rw [hshape]
    · rw [beq_false_of_ne hshape]
      rfl
  · rfl

/-- On the first sheet the two ways agree. -/
theorem turningCourse_eq_plainCourse {c : Connection} (hc : c.mirror = false) (period i k : Nat) :
    (t.turningCourse period i k).angle c = (t.plainCourse period i k).angle c ∧
    (t.turningCourse period i k).atStart c = (t.plainCourse period i k).atStart c ∧
    (t.turningCourse period i k).next c = (t.plainCourse period i k).next c := by
  simp [turningCourse, plainCourse, crossed, nextCorner, hc]

/-- Without mirrored gluings a turning way does not leave the first sheet. -/
theorem turningCourse_leads (ht : t.WellFormed) (hangles : ∀ s ∈ t.shapes, s.angles.size = s.size)
    (hm : t.mirrorCount = 0) (ps : Array Nat) (i k : Nat) :
    (t.turningCourse (periodOf ps i) i k).Leads { t with mirrorRules := 0 } ps i k
      fun c c' => t.HasCorner c ∧ c.mirror = false ∧ c = c' := by
  refine ⟨?_, ?_, ?_⟩ <;> rintro c _ ⟨hc, hmirror, rfl⟩ <;>
    obtain ⟨hangle, hstart, hnext⟩ := t.turningCourse_eq_plainCourse hmirror (periodOf ps i) i k
  · exact hangle
  · exact hstart.trans ((t.plainCourse_leads ps i k).atStart rfl)
  · have hlt := crossed_lt hangles hc
    have hcrossed : t.nextCorner c = (t.shape c.shape).connection (t.crossed c) := by
      rw [nextCorner, crossed, hmirror]
      rfl
    rw [hnext]
    change t.HasCorner (t.nextCorner c) ∧ (t.nextCorner c).mirror = false ∧ _ = t.nextCorner c
    rw [hcrossed]
    exact ⟨⟨ht.target_shape_lt hc.1 hlt, ht.target_edge_lt hc.1 hlt⟩,
      mirror_eq_false hm (ht.connection_eq hc.1 hlt), hcrossed⟩

/-- The valences that an analysis finds are those of courses that lead where the walks lead. -/
theorem Recorded.valences_of_leads {s : Shape α} (h : t.Recorded ps i s) {r : Nat → Course α}
    {R : Connection → Connection → Prop} (hr : ∀ k, (r k).Leads t ps i k R)
    (hstart : ∀ k < (t.shape i).size, R ⟨i, k, false⟩ ⟨i, k, false⟩) :
    s.valences.size = (t.shape i).size ∧
      ∀ k < (t.shape i).size, s.valences[k]? = (r k).valence ⟨i, k, false⟩ := by
  obtain ⟨hsize, hwalks⟩ := h.valences
  refine ⟨hsize, fun k hk => ?_⟩
  obtain ⟨w, hw, hvalence, -⟩ := hwalks k hk
  rw [hvalence, (hr k).valence (hstart k hk) hw]

theorem stride_doubleCover_pos (hpos : ∀ i < t.shapes.size, 0 < (t.shape i).stride) :
    ∀ i < t.doubleCover.shapes.size, 0 < (t.doubleCover.shape i).stride := by
  intro i hi
  by_cases hm : t.mirrorCount = 0
  · rw [doubleCover_of_plain hm] at hi ⊢
    exact hpos i hi
  · obtain ⟨image, a, s, hs, -, hr⟩ := exists_copy hm (getElem?_shape hi)
    have hstride := hpos a (Array.getElem?_eq_some_iff.mp hs).1
    rw [shape_eq hs] at hstride
    rw [hr]
    cases image with
    | false => exact hstride
    | true => exact s.stride_reflected ▸ hstride

section

variable (hpos : ∀ i < t.shapes.size, 0 < (t.shape i).stride)
  (hround : (t.geometry.isAffine || t.isStar) = false) (hi : i < t.shapes.size)

include hpos hround hi

/-- **The valences of a tiling** are counted without heed to the mirror flag. -/
theorem valences_eq_plain (hu : analyseValence t = .ok () u) :
    (u.shape i).valences.size = (t.shape i).size ∧ ∀ k < (t.shape i).size,
      (u.shape i).valences[k]? = (t.plainCourse (u.shape i).period i k).valence ⟨i, k, false⟩ := by
  obtain ⟨ps, qs, hsettled⟩ := analyseValence_settled hpos hu
  rw [hsettled.period i hi]
  exact (hsettled.recorded hround i hi).valences_of_leads (t.plainCourse_leads qs i) fun _ _ => rfl

/-- **The valences of the double cover** are counted in the tiling itself by turning the other way
round behind every mirrored gluing. -/
theorem valences_doubleCover_eq_turning (ht : t.WellFormed)
    (hangles : ∀ s ∈ t.shapes, s.angles.size = s.size)
    (hends : ∀ s ∈ t.shapes, s.apeirogonal → 2 ≤ s.size)
    (hv : analyseValence t.doubleCover = .ok () v) :
    (v.shape i).valences.size = (t.shape i).size ∧ ∀ k < (t.shape i).size,
      (v.shape i).valences[k]? = (t.turningCourse (v.shape i).period i k).valence ⟨i, k, false⟩ := by
  obtain ⟨ps, qs, hsettled⟩ := analyseValence_settled (stride_doubleCover_pos hpos) hv
  by_cases hm : t.mirrorCount = 0
  · rw [doubleCover_of_plain hm] at hsettled
    rw [hsettled.period i hi]
    exact (hsettled.recorded hround i hi).valences_of_leads
      (turningCourse_leads ht hangles hm qs i) fun _ hk => ⟨⟨hi, hk⟩, rfl, rfl⟩
  · have hd := doubleCover_isDoubleCover ht hangles hends (exists_mirrored hm)
    have hflat : (t.doubleCover.geometry.isAffine || t.doubleCover.isStar) = false := by
      rwa [geometry_doubleCover, isStar_doubleCover]
    have hi' : i < t.doubleCover.shapes.size := by
      rw [hd.size]
      omega
    have hsize : (t.doubleCover.shape i).size = (t.shape i).size := by
      obtain ⟨r, hr, hvertices, -⟩ := hd.original i _ (getElem?_shape hi)
      rw [show t.doubleCover.shape i = r from shape_eq hr, Shape.size, hvertices, Shape.size]
    rw [hsettled.period i hi', ← hsize]
    exact (hsettled.recorded hflat i hi').valences_of_leads (hd.leads ht hangles hends hi)
      fun k hk => ⟨⟨hi, hsize ▸ hk⟩, rfl⟩

variable (ht : t.WellFormed) (hangles : ∀ s ∈ t.shapes, s.angles.size = s.size)
  (hends : ∀ s ∈ t.shapes, s.apeirogonal → 2 ≤ s.size) (hu : analyseValence t = .ok () u)
  (hv : analyseValence t.doubleCover = .ok () v)

include ht hangles hends hu hv

/-- Courses around the vertices of a shape that find the same valences make the analyses find the
same. -/
theorem valences_eq_of_courses (h : ∀ k < (t.shape i).size,
    (t.plainCourse (u.shape i).period i k).valence ⟨i, k, false⟩ =
      (t.turningCourse (v.shape i).period i k).valence ⟨i, k, false⟩) :
    (u.shape i).valences = (v.shape i).valences := by
  obtain ⟨hsize, hplain⟩ := valences_eq_plain hpos hround hi hu
  obtain ⟨hsize', hturning⟩ :=
    valences_doubleCover_eq_turning hpos hround hi ht hangles hends hv
  refine Array.ext_getElem? fun k => ?_
  rcases Nat.lt_or_ge k (t.shape i).size with hk | hk
  · rw [hplain k hk, hturning k hk, h k hk]
  · rw [Array.getElem?_eq_none (hsize ▸ hk), Array.getElem?_eq_none (hsize' ▸ hk)]

/-- **When valences survive the double cover.**  An analysis of a tiling finds the valences of its
cover exactly if, around every vertex, it makes no difference whether a walk turns the other way
round behind mirrored gluings. -/
theorem valences_doubleCover_iff : (u.shape i).valences = (v.shape i).valences ↔
    ∀ k < (t.shape i).size, (t.plainCourse (u.shape i).period i k).valence ⟨i, k, false⟩ =
      (t.turningCourse (v.shape i).period i k).valence ⟨i, k, false⟩ := by
  refine ⟨fun h k hk => ?_, valences_eq_of_courses hpos hround hi ht hangles hends hu hv⟩
  obtain ⟨-, hplain⟩ := valences_eq_plain hpos hround hi hu
  obtain ⟨-, hturning⟩ := valences_doubleCover_eq_turning hpos hround hi ht hangles hends hv
  rw [← hplain k hk, ← hturning k hk, h]

/-- Valences survive if the periods do and the walks around the vertices cross no mirrored
gluing. -/
theorem valences_doubleCover_of_plain (hperiod : (u.shape i).period = (v.shape i).period)
    (hcrossed : ∀ k < (t.shape i).size, ∀ angles, (u.shape i).vertexAngles[k]? = some angles →
      ∀ j < angles.size, (t.nextCorner^[j + 1] ⟨i, k, false⟩).mirror = false) :
    (u.shape i).valences = (v.shape i).valences := by
  refine valences_eq_of_courses hpos hround hi ht hangles hends hu hv fun k hk => ?_
  obtain ⟨ps, qs, hsettled⟩ := analyseValence_settled hpos hu
  obtain ⟨w, hw, -, hmet⟩ := (hsettled.recorded hround i hi).valences.2 k hk
  rw [← hperiod, hsettled.period i hi]
  have hwalk := (t.plainCourse_leads qs i k).walk (w := ⟨⟨i, k, false⟩, 0, #[], 0⟩) rfl (by simp)
    (walkVertex_ok.mp hw).1
  have hsheet : ∀ j ≤ w.angles.size, (t.nextCorner^[j] ⟨i, k, false⟩).mirror = false := by
    intro j hj
    cases j with
    | zero => rfl
    | succ j => exact hcrossed k hk _ hmet j hj
  have hturning : (t.turningCourse (periodOf qs i) i k).walk (maxWalk + 1) ⟨i, k, false⟩ 0 0 =
      some (w.total, w.angles.size) :=
    Course.walk_congr hwalk fun j hj =>
      turningCourse_eq_plainCourse (hsheet j (by simpa using hj)) _ _ _
  rw [Course.valence, Course.valence]
  exact (congrArg (Option.map _) hwalk).trans (congrArg (Option.map _) hturning).symm

end

/-! ### Mirrors for edges -/

/-- A tiling by one polygon with given angles, mirrored at every edge. -/
def kaleidoscope (angles : Array Whole) : Tiling Whole :=
  { (Tiling.empty : Tiling Whole) with
    shapes := #[{ (Shape.empty : Shape Whole) with
      vertices := Array.replicate angles.size Point.origin
      angles
      edges := Array.replicate angles.size (.finite 1)
      connections := Array.ofFn fun e : Fin angles.size => ⟨0, e, true⟩ }] }

/-- All corners of a square are alike, so it makes no difference which way round a walk turns. -/
def square : Tiling Whole := kaleidoscope #[1, 1, 1, 1]

/-- Its valences survive the double cover. -/
theorem square_valences : ∃ u v, analyseValence square = .ok () u ∧
    analyseValence square.doubleCover = .ok () v ∧ (u.shape 0).valences = (v.shape 0).valences := by
  have hu := eq_ok_unit_of_isSome (x := analyseValence square) (by cbv)
  have hv := eq_ok_unit_of_isSome (x := analyseValence square.doubleCover) (by cbv)
  refine ⟨_, _, hu, hv, (valences_doubleCover_iff ?_ ?_ ?_ ?_ ?_ ?_ hu hv).mpr ?_⟩
  · decide
  · rfl
  · decide
  · decide
  · decide
  · decide
  · decide +kernel

/-- Two squares in a row, with corners halfway along both long sides. -/
def domino : Tiling Whole := kaleidoscope #[1, 1, 2, 1, 1, 2]

/-- A walk that does not turn behind the mirrors meets two right angles and a straight one around
every vertex of the domino, where in fact mirror images of a single corner meet. -/
theorem domino_valences : domino.WellFormed ∧
    (domino.geometry.isAffine || domino.isStar) = false ∧
    ∃ u v, analyseValence domino = .ok () u ∧ analyseValence domino.doubleCover = .ok () v ∧
      (u.shape 0).valences = Array.replicate 6 (.finite 3) ∧
      (v.shape 0).valences = #[.finite 4, .finite 4, .finite 2, .finite 4, .finite 4, .finite 2] :=
  ⟨by decide, rfl, _, _, eq_ok_unit_of_isSome (by cbv), eq_ok_unit_of_isSome (by cbv), by cbv,
    by cbv⟩

end Tiling

end Mosaic
