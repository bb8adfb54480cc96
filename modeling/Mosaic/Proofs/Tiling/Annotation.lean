import Mosaic.Proofs.Tiling.Valence

/-!
# Tiling — what an analysis of valences leaves

An analysis of valences writes only what it finds into the shapes (`Tiling.Annotates`).  Walking
begins anew whenever a walk narrows a period, and it cannot run out of fuel: the sum of the periods
has fallen each time.  So the rounds are told without a bound (`Tiling.Restarting`).  When they
succeed, the last one has narrowed nothing (`Tiling.Settled`), so the gluings respect the periods
that are written, and every walk around a vertex has come back to a copy of that vertex
(`Tiling.Analysed`).
-/

namespace Mosaic

variable {α : Type}

/-- The valence that a walk around a vertex has found. -/
def VertexWalk.valence [Scalar α] (w : VertexWalk α) : Valence :=
  if w.total == 0 then .unbounded else .finite w.angles.size

/-- The shape without what an analysis of its gluings has found. -/
def Shape.bare (s : Shape α) : Shape α :=
  { s with period := 0, valences := #[], vertexPeriods := #[], vertexAngles := #[] }

namespace Tiling

/-- `u` is `t`, except for what an analysis of the gluings writes. -/
structure Annotates (t u : Tiling α) : Prop where
  shapes : u.shapes.map Shape.bare = t.shapes.map Shape.bare
  sliders : u.sliders = t.sliders
  intSliders : u.intSliders = t.intSliders

variable {t u : Tiling α}

namespace Annotates

theorem refl (t : Tiling α) : t.Annotates t := ⟨rfl, rfl, rfl⟩

theorem trans {v : Tiling α} (h : t.Annotates u) (h' : u.Annotates v) : t.Annotates v :=
  ⟨h'.shapes.trans h.shapes, h'.sliders.trans h.sliders, h'.intSliders.trans h.intSliders⟩

/-- The shapes that are annotated are those of the tiling. -/
theorem exists_shape (h : t.Annotates u) {i : Nat} {r : Shape α} (hr : u.shapes[i]? = some r) :
    ∃ s, t.shapes[i]? = some s ∧ r.bare = s.bare := by
  have hi := congrArg (·[i]?) h.shapes
  simp only [Array.getElem?_map, hr] at hi
  obtain ⟨s, hs, hbare⟩ := Option.map_eq_some_iff.mp hi.symm
  exact ⟨s, hs, hbare.symm⟩

theorem symm (h : t.Annotates u) : u.Annotates t :=
  ⟨h.shapes.symm, h.sliders.symm, h.intSliders.symm⟩

theorem size_eq (h : t.Annotates u) : u.shapes.size = t.shapes.size := by
  simpa using congrArg Array.size h.shapes

/-- The shapes differ in nothing that an analysis does not write. -/
theorem bare_shape (h : t.Annotates u) (i : Nat) : (u.shape i).bare = (t.shape i).bare := by
  have hi := congrArg (·[i]?) h.shapes
  simp only [Array.getElem?_map] at hi
  rw [shape, shape]
  cases hu : u.shapes[i]? <;> cases ht : t.shapes[i]? <;> simp_all

theorem size_shape (h : t.Annotates u) (i : Nat) : (u.shape i).size = (t.shape i).size := by
  have hbare := congrArg Shape.size (h.bare_shape i)
  exact hbare

theorem connection (h : t.Annotates u) (i j : Nat) :
    (u.shape i).connection j = (t.shape i).connection j := by
  have hbare := congrArg (Shape.connection · j) (h.bare_shape i)
  exact hbare

theorem angles (h : t.Annotates u) (i : Nat) : (u.shape i).angles = (t.shape i).angles := by
  have hbare := congrArg Shape.angles (h.bare_shape i)
  exact hbare

/-- Cycle lengths are annotations. -/
theorem withPeriods (t : Tiling α) (periods : Array Nat) : t.Annotates (t.withPeriods periods) := by
  refine ⟨?_, rfl, rfl⟩
  apply Array.ext_getElem?
  intro i
  simp only [Tiling.withPeriods, Array.getElem?_map, Array.getElem?_mapIdx, Option.map_map]
  rfl

end Annotates

/-- The cycle lengths that are written are the given ones. -/
theorem shape_withPeriods (t : Tiling α) {ps : Array Nat} (hps : ps.size = t.shapes.size) {i : Nat}
    (hi : i < t.shapes.size) : ((t.withPeriods ps).shape i).period = periodOf ps i := by
  simp [Tiling.withPeriods, shape, periodOf, hi, hps]

variable [Scalar α]

/-- Walks are annotations. -/
theorem Annotates.withWalks (t : Tiling α) (i : Nat) (walks : Array (VertexWalk α)) :
    t.Annotates (t.modifyShape i (·.withWalks walks)) := by
  refine ⟨?_, rfl, rfl⟩
  apply Array.ext_getElem?
  intro j
  rw [Array.getElem?_map, Array.getElem?_map, getElem?_modifyShape, Option.map_map]
  congr 1
  funext s
  simp only [Function.comp_apply]
  split <;> rfl

theorem walkShapes_annotates (t : Tiling α) (periods : Array Nat) (is : List Nat) (s : Tiling α) :
    s.Annotates (left (t.walkShapes periods is s)) :=
  walkShapes_keeps (fun u i walks h => h.trans (.withWalks u i walks)) periods is (.refl s)

/-- An analysis writes nothing else, whether it fails or not. -/
theorem annotates_analyseValence (t : Tiling α) : t.Annotates (left (analyseValence t)) :=
  analyseValence_keeps (fun u i walks h => h.trans (.withWalks u i walks))
    (fun u ps h => h.trans (.withPeriods u ps)) (fun _ h => h.trans ⟨rfl, rfl, rfl⟩)
    (fun _ h => h.trans ⟨rfl, rfl, rfl⟩) (.refl t)

/-- An analysis writes annotations. -/
theorem analyseValence_annotates {a : Unit} {u : Tiling α} (h : analyseValence t = .ok a u) :
    t.Annotates u := by
  have hannotates := t.annotates_analyseValence
  rwa [h] at hannotates

/-! ### What has been found -/

/-- The walks around the vertices of shape `i` end at copies of these, and `s` has what they have
found. -/
def Recorded (t : Tiling α) (ps : Array Nat) (i : Nat) (s : Shape α) : Prop :=
  ∃ walks : Array (VertexWalk α), s.withWalks walks = s ∧ walks.size = (t.shape i).size ∧
    ∀ k w, walks[k]? = some w → t.walkVertex ps i k = .ok w ∧
      congruent w.place.edge k (periodOf ps i) = true

/-- What an analysis has done last: it has refined the periods `ps` to `qs`, which are written into
the shapes of `u`, and the walks around the vertices have narrowed them no more.  In affine tilings
and stars there are no walks. -/
structure Settled (t u : Tiling α) (ps qs : Array Nat) : Prop where
  narrower : Narrower ps t.strides
  refined : t.refinePeriods ps = .ok () qs
  period : ∀ i < t.shapes.size, (u.shape i).period = periodOf qs i
  recorded : (t.geometry.isAffine || t.isStar) = false → ∀ i < t.shapes.size,
    t.Recorded qs i (u.shape i)

/-- The periods `ps` are respected by the gluings and written into the shapes of `u`.  Unless the
tiling is affine or a star, the walks around its vertices lead back to copies of these, and a vertex
around which no angle was covered is marked as one at infinity. -/
structure Analysed (t u : Tiling α) (ps : Array Nat) : Prop where
  narrower : Narrower ps t.strides
  admissible : t.Admissible (periodOf ps)
  period : ∀ i < t.shapes.size, (u.shape i).period = periodOf ps i
  walk : (t.geometry.isAffine || t.isStar) = false → ∀ i < t.shapes.size,
    ∀ k < (t.shape i).size, ∃ w, t.walkVertex ps i k = .ok w ∧
      (periodOf ps i : Int) ∣ w.place.edge - k ∧
      ((w.total == 0) = true → .unbounded ∈ (u.shape i).valences)

theorem dvd_of_congruent {i j p : Nat} (hp : 0 < p) (h : congruent i j p = true) :
    (p : Int) ∣ i - j := by
  rw [congruent, beq_iff_eq, show Nat.max p 1 = p from Nat.max_eq_left hp] at h
  exact Int.dvd_of_emod_eq_zero h

/-- The walks that have been done are those around the vertices listed, in their order. -/
theorem walkShapeFrom_complete {periods : Array Nat} {i : Nat} {ks : List Nat}
    {done walks : Array (VertexWalk α)}
    (h : t.walkShapeFrom periods i ks done = .ok (.complete walks)) :
    ∃ ws, walks.toList = done.toList ++ ws ∧ List.Forall₂ (fun k w =>
      t.walkVertex periods i k = .ok w ∧ congruent w.place.edge k (periodOf periods i) = true)
      ks ws := by
  induction ks generalizing done with
  | nil =>
      rw [walkShapeFrom] at h
      cases h
      exact ⟨[], (List.append_nil _).symm, .nil⟩
  | cons k ks ih =>
      rw [walkShapeFrom] at h
      obtain ⟨w, hw, h⟩ := except_bind_ok h
      split at h
      · rename_i hcongruent
        obtain ⟨ws, hws, hwalks⟩ := ih h
        refine ⟨w :: ws, ?_, .cons ⟨hw, hcongruent⟩ hwalks⟩
        rw [hws, Array.toList_push, List.append_assoc, List.singleton_append]
      · cases h

/-- The walks around all vertices of a shape, written into it. -/
theorem recorded_of_complete {periods : Array Nat} {i : Nat} {walks : Array (VertexWalk α)}
    (h : t.walkShapeFrom periods i (List.range (t.shape i).size) #[] = .ok (.complete walks))
    (s : Shape α) : t.Recorded periods i (s.withWalks walks) := by
  obtain ⟨ws, hws, hwalks⟩ := walkShapeFrom_complete h
  rw [Array.toList_empty, List.nil_append] at hws
  subst hws
  obtain ⟨hlength, hget⟩ := List.forall₂_iff_get.mp hwalks
  rw [List.length_range, Array.length_toList] at hlength
  refine ⟨walks, rfl, hlength.symm, fun k w hw => ?_⟩
  obtain ⟨hk, rfl⟩ := Array.getElem?_eq_some_iff.mp hw
  have hwalk := hget k (by rwa [List.length_range, hlength]) hk
  rwa [List.get_eq_getElem, List.getElem_range] at hwalk

/-- There is a valence, a period and a list of angles for every vertex: those of the walk around
it. -/
theorem Recorded.walks {ps : Array Nat} {i : Nat} {s : Shape α} (h : t.Recorded ps i s) :
    (s.valences.size = (t.shape i).size ∧ s.vertexPeriods.size = (t.shape i).size ∧
      s.vertexAngles.size = (t.shape i).size) ∧
    ∀ k < (t.shape i).size, ∃ w, t.walkVertex ps i k = .ok w ∧
      congruent w.place.edge k (periodOf ps i) = true ∧ s.valences[k]? = some w.valence ∧
      s.vertexPeriods[k]? = some w.since ∧ s.vertexAngles[k]? = some w.angles := by
  obtain ⟨walks, hshape, hsize, hwalks⟩ := h
  have hvalences : s.valences = walks.map VertexWalk.valence := by
    rw [← hshape]
    rfl
  have hperiods : s.vertexPeriods = walks.map VertexWalk.since := by
    rw [← hshape]
    rfl
  have hangles : s.vertexAngles = walks.map VertexWalk.angles := by
    rw [← hshape]
    rfl
  rw [hvalences, hperiods, hangles]
  refine ⟨by simp [hsize], fun k hk => ?_⟩
  have hw := Array.getElem?_eq_getElem (hsize ▸ hk)
  refine ⟨_, (hwalks k _ hw).1, (hwalks k _ hw).2, ?_⟩
  simp [hw]

/-- Each vertex has the valence and the angles of its walk. -/
theorem Recorded.valences {ps : Array Nat} {i : Nat} {s : Shape α} (h : t.Recorded ps i s) :
    s.valences.size = (t.shape i).size ∧ ∀ k < (t.shape i).size, ∃ w,
      t.walkVertex ps i k = .ok w ∧ s.valences[k]? = some w.valence ∧
      s.vertexAngles[k]? = some w.angles := by
  obtain ⟨⟨hsize, -⟩, hwalks⟩ := h.walks
  refine ⟨hsize, fun k hk => ?_⟩
  obtain ⟨w, hw, -, hvalence, -, hangles⟩ := hwalks k hk
  exact ⟨w, hw, hvalence, hangles⟩

/-- The walks around all vertices of the shapes listed have been written into these. -/
theorem walkShapes_none {periods : Array Nat} {is : List Nat} {s s' : Tiling α} (his : is.Nodup)
    (h : t.walkShapes periods is s = .ok none s') : s'.shapes.size = s.shapes.size ∧
      (∀ i < s.shapes.size, (s'.shape i).period = (s.shape i).period ∧
        (i ∉ is → s'.shape i = s.shape i)) ∧
      ∀ i ∈ is, i < s.shapes.size → t.Recorded periods i (s'.shape i) := by
  induction is generalizing s with
  | nil =>
      cases h
      exact ⟨rfl, fun _ _ => ⟨rfl, fun _ => rfl⟩, fun i hi => by cases hi⟩
  | cons i is ih =>
      obtain ⟨hi, his⟩ := List.nodup_cons.mp his
      rw [walkShapes] at h
      cases hwalk : t.walkShapeFrom periods i (List.range (t.shape i).size) #[] with
      | error e =>
          rw [hwalk] at h
          cases h
      | ok x =>
          rw [hwalk] at h
          cases x with
          | narrowed d => cases h
          | complete walks =>
              obtain ⟨_, u, hu, h⟩ := bind_ok.mp h
              cases hu
              obtain ⟨hsize, hothers, hrecorded⟩ := ih his h
              have hsize' : (s.modifyShape i (·.withWalks walks)).shapes.size = s.shapes.size :=
                Array.size_modify
              rw [hsize'] at hsize hothers hrecorded
              refine ⟨hsize, fun j hj => ⟨?_, fun hj' => ?_⟩, fun j hj hlt => ?_⟩
              · rw [(hothers j hj).1, shape_modifyShape s i _ hj]
                split <;> rfl
              · rw [List.mem_cons, not_or] at hj'
                rw [(hothers j hj).2 hj'.2, shape_modifyShape s i _ hj, if_neg (Ne.symm hj'.1)]
              · rcases List.mem_cons.mp hj with rfl | hj
                · rw [(hothers j hlt).2 hi, shape_modifyShape s j _ hlt, if_pos rfl]
                  exact recorded_of_complete hwalk _
                · exact hrecorded j hj hlt

section

variable {ps : Array Nat} {i : Nat} {d : Int}

/-- A distance that the period does not divide leaves a proper divisor of it. -/
theorem periodOf_modify_lt (hps : ∀ i < ps.size, 0 < periodOf ps i) (hi : i < ps.size)
    (hd : ¬ (periodOf ps i : Int) ∣ d) :
    periodOf (ps.modify i (reduceGcd · d)) i < periodOf ps i := by
  refine Nat.lt_of_le_of_ne ((narrower_modify hps i d).le hps hi) fun heq => hd ?_
  rw [periodOf_modify hi, if_pos rfl] at heq
  exact Int.natCast_dvd.mpr (heq ▸ Nat.gcd_dvd_right _ _)

/-- A distance that the period does not divide lowers the sum of the periods. -/
theorem totalOf_modify_lt (hps : ∀ i < ps.size, 0 < periodOf ps i) (hi : i < ps.size)
    (hd : ¬ (periodOf ps i : Int) ∣ d) :
    totalOf (ps.modify i (reduceGcd · d)) < totalOf ps := by
  have hn := narrower_modify hps i d
  refine Nat.lt_of_le_of_ne (hn.totalOf_le hps) fun heq => ?_
  have hlt := periodOf_modify_lt hps hi hd
  rw [hn.eq_of_totalOf hps heq] at hlt
  exact Nat.lt_irrefl _ hlt

/-- A walk that asks for another round has found a distance that lowers the period of its shape. -/
theorem walkShapes_lowers {s s' : Tiling α} (hps : Narrower ps t.strides)
    (h : t.walkShapes ps (List.range t.shapes.size) s = .ok (some (i, d)) s') :
    Narrower (ps.modify i (reduceGcd · d)) ps ∧
      periodOf (ps.modify i (reduceGcd · d)) i < periodOf ps i ∧
      totalOf (ps.modify i (reduceGcd · d)) < totalOf ps := by
  obtain ⟨k, w, hto, -, hfar, rfl⟩ := walkShapes_narrowed h
  have hd := not_dvd_of_congruent hfar
  have hi : i < ps.size := by
    rw [hps.size, strides, Array.size_map]
    exact hto.shape_lt
  exact ⟨narrower_modify hps.pos i _, periodOf_modify_lt hps.pos hi hd,
    totalOf_modify_lt hps.pos hi hd⟩

end

/-! ### Rounds -/

/-- Rounds of an analysis of `t`, from the periods `ps` and the tiling `s` on: passes over the
gluings and walks around the vertices, which begin again when a walk has narrowed a period.  The
number of times that they begin again, and how they end. -/
inductive Restarting (t : Tiling α) : (ps : Array Nat) → (s : Tiling α) → (restarts : Nat) →
    EStateM.Result (Inconsistency α) (Tiling α) Unit → Prop where
  | refused {ps qs : Array Nat} {s : Tiling α} {e : Inconsistency α}
      (h : t.refinePeriods ps = .error e qs) : Restarting t ps s 0 (.error e (s.withPeriods qs))
  | flat {ps qs : Array Nat} {s : Tiling α} (h : t.refinePeriods ps = .ok () qs)
      (hflat : (t.geometry.isAffine || t.isStar) = true) :
      Restarting t ps s 0 (.ok () (s.withPeriods qs))
  | failed {ps qs : Array Nat} {s u : Tiling α} {e : Inconsistency α}
      (h : t.refinePeriods ps = .ok () qs) (hround : (t.geometry.isAffine || t.isStar) = false)
      (hwalks : t.walkShapes qs (List.range t.shapes.size)
        { s.withPeriods qs with haveValence := true } = .error e u) :
      Restarting t ps s 0 (.error e u)
  | settled {ps qs : Array Nat} {s u : Tiling α} (h : t.refinePeriods ps = .ok () qs)
      (hround : (t.geometry.isAffine || t.isStar) = false)
      (hwalks : t.walkShapes qs (List.range t.shapes.size)
        { s.withPeriods qs with haveValence := true } = .ok none u) :
      Restarting t ps s 0 (.ok () u)
  | again {ps qs : Array Nat} {s u : Tiling α} {i n : Nat} {d : Int}
      {x : EStateM.Result (Inconsistency α) (Tiling α) Unit} (h : t.refinePeriods ps = .ok () qs)
      (hround : (t.geometry.isAffine || t.isStar) = false)
      (hwalks : t.walkShapes qs (List.range t.shapes.size)
        { s.withPeriods qs with haveValence := true } = .ok (some (i, d)) u)
      (hagain : Restarting t (qs.modify i (reduceGcd · d))
        (u.withPeriods (qs.modify i (reduceGcd · d))) n x) : Restarting t ps s (n + 1) x

omit [Scalar α] in
theorem size_le_totalOf (hps : Narrower ps t.strides) : t.shapes.size ≤ totalOf ps := by
  have hsize : ps.toList.length = t.shapes.size := hps.size.trans Array.size_map
  rw [totalOf_eq_sum, ← hsize]
  refine List.length_le_sum_of_one_le _ fun p hp => ?_
  obtain ⟨i, hi, rfl⟩ := List.mem_iff_getElem.mp hp
  have hpos : 1 ≤ periodOf ps i := hps.pos i hi
  rw [Array.length_toList] at hi
  simpa [periodOf, hi] using hpos

/-- **Rounds that begin again** lower the sum of the periods, and every period stays positive. -/
theorem settleValence_restarting {fuel : Nat} {s : Tiling α} (hps : Narrower ps t.strides)
    (hfuel : totalOf ps < fuel) :
    ∃ n, n + t.shapes.size ≤ totalOf ps ∧ t.Restarting ps s n (t.settleValence fuel ps s) := by
  induction fuel generalizing ps s with
  | zero => exact absurd hfuel (Nat.not_lt_zero _)
  | succ fuel ih =>
      have hend : 0 + t.shapes.size ≤ totalOf ps := by
        rw [Nat.zero_add]
        exact size_le_totalOf hps
      rw [settleValence_succ]
      cases hrefine : t.refinePeriods ps with
      | error e qs => exact ⟨0, hend, .refused hrefine⟩
      | ok _ qs =>
          have hn := t.refinePeriods_narrows.ok hps.pos hrefine
          have hqs := hn.trans hps
          have hle := hn.totalOf_le hps.pos
          dsimp only
          split
          case isTrue hflat => exact ⟨0, hend, .flat hrefine hflat⟩
          case isFalse hround =>
            rw [Bool.not_eq_true] at hround
            cases hwalks : t.walkShapes qs (List.range t.shapes.size)
                { s.withPeriods qs with haveValence := true } with
            | error e u => exact ⟨0, hend, .failed hrefine hround hwalks⟩
            | ok x u =>
                cases x with
                | none => exact ⟨0, hend, .settled hrefine hround hwalks⟩
                | some x =>
                    obtain ⟨hlower, -, hlt⟩ := walkShapes_lowers hqs hwalks
                    obtain ⟨n, hbound, hagain⟩ := ih (hlower.trans hqs) (by omega)
                    exact ⟨n + 1, by omega, .again hrefine hround hwalks hagain⟩

/-- When the rounds succeed, the last one has narrowed nothing. -/
theorem Restarting.exists_settled {ps : Array Nat} {s u : Tiling α} {n : Nat}
    {x : EStateM.Result (Inconsistency α) (Tiling α) Unit} (h : t.Restarting ps s n x)
    (hps : Narrower ps t.strides) (hs : s.shapes.size = t.shapes.size) (hx : x = .ok () u) :
    ∃ rs qs, t.Settled u rs qs := by
  have hstrides : t.strides.size = t.shapes.size := Array.size_map
  -- the periods that a round has refined are those of its shapes
  have hperiod {qs : Array Nat} {s : Tiling α} (hs : s.shapes.size = t.shapes.size)
      (hqs : Narrower qs t.strides) (i : Nat) (hi : i < t.shapes.size) :
      ((s.withPeriods qs).shape i).period = periodOf qs i :=
    shape_withPeriods s (hqs.size.trans (hstrides.trans hs.symm)) (hs ▸ hi)
  induction h with
  | refused _ => cases hx
  | failed _ _ _ => cases hx
  | @flat ps qs s h hflat =>
      cases hx
      have hqs := (t.refinePeriods_narrows.ok hps.pos h).trans hps
      exact ⟨ps, qs, hps, h, hperiod hs hqs, fun hround => absurd hflat (by simp [hround])⟩
  | @settled ps qs s u h _ hwalks =>
      cases hx
      have hqs := (t.refinePeriods_narrows.ok hps.pos h).trans hps
      have hsize := (Annotates.withPeriods s qs).size_eq.trans hs
      obtain ⟨-, hothers, hrecorded⟩ := walkShapes_none List.nodup_range hwalks
      refine ⟨ps, qs, hps, h, fun i hi => ?_, fun _ i hi => ?_⟩
      · exact (hothers i (hsize ▸ hi)).1.trans (hperiod hs hqs i hi)
      · exact hrecorded i (List.mem_range.mpr hi) (hsize ▸ hi)
  | @again ps qs s v i n d x h _ hwalks _ ih =>
      have hqs := (t.refinePeriods_narrows.ok hps.pos h).trans hps
      have hannotates := t.walkShapes_annotates qs (List.range t.shapes.size)
        { s.withPeriods qs with haveValence := true }
      rw [hwalks] at hannotates
      refine ih ((walkShapes_lowers hqs hwalks).1.trans hqs) ?_ hx
      refine (Annotates.withPeriods v _).size_eq.trans (hannotates.size_eq.trans ?_)
      exact (Annotates.withPeriods s qs).size_eq.trans hs

section

variable (ht : t.Partnered) (hpos : ∀ i < t.shapes.size, 0 < (t.shape i).stride)

include hpos

/-- An analysis of valences ends with a round that narrows nothing. -/
theorem analyseValence_settled {a : Unit} (h : analyseValence t = .ok a u) :
    ∃ ps qs, t.Settled u ps qs := by
  obtain ⟨v, hsettle, rfl⟩ := analyseValence_ok h
  have hstrides := strides_narrower hpos
  obtain ⟨n, -, hrounds⟩ := settleValence_restarting (s := t.withPeriods t.strides) hstrides
    (Nat.lt_of_succ_lt (totalOf_strides_le t))
  obtain ⟨ps, qs, hsettled⟩ :=
    hrounds.exists_settled hstrides (Annotates.withPeriods t _).size_eq hsettle
  refine ⟨ps, qs, ?_⟩
  split
  · exact hsettled
  · exact ⟨hsettled.narrower, hsettled.refined, hsettled.period, hsettled.recorded⟩

include ht

/-- A tiling that has settled is analysed. -/
theorem Settled.analysed {ps qs : Array Nat} (h : t.Settled u ps qs) :
    t.Analysed u qs := by
  have hrefined := refinePeriods_narrower hpos h.narrower
  rw [h.refined] at hrefined
  cases hrefined with
  | ok hn _ hcompared =>
      have hqs := hn.trans h.narrower
      have hadmissible := admissible_of_comparedAt ht hqs hcompared
      refine ⟨hqs, hadmissible, h.period, fun hround i hi k hk => ?_⟩
      obtain ⟨walks, hshape, hsize, hwalks⟩ := h.recorded hround i hi
      rw [← hsize] at hk
      have hw := Array.getElem?_eq_getElem hk
      obtain ⟨hwalk, hcongruent⟩ := hwalks k _ hw
      refine ⟨_, hwalk, dvd_of_congruent (hadmissible.pos i hi) hcongruent, fun htotal => ?_⟩
      rw [← hshape]
      exact Array.mem_map.mpr ⟨_, Array.mem_of_getElem? hw, if_pos htotal⟩

/-- **An analysis that succeeds has come to rest.** -/
theorem analyseValence_analysed {a : Unit} (h : analyseValence t = .ok a u) :
    ∃ ps, t.Analysed u ps := by
  obtain ⟨ps, qs, hsettled⟩ := analyseValence_settled hpos h
  exact ⟨qs, hsettled.analysed ht hpos⟩

end

end Tiling

end Mosaic
