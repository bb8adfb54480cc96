import Mosaic.Proofs.Scalar.Zero
import Mosaic.Proofs.Tiling.Restarts

/-!
# Tiling — what an analysis of valences finds

Periods are stable when neither gluings nor walks around vertices would narrow them
(`Tiling.Stable`).  An analysis comes to rest at stable periods, and on its way it never narrows
below any: from the last copy of its start on that a walk has passed without having covered an
angle, it is a walk that begins there (`Tiling.Shadow`), so it ends at a distance that the stable
period divides (`Stable.dvd_walkVertex`).

So an analysis finds the greatest stable periods, in whatever order it looks at shapes and edges
(`analyseValence_greatest`).
-/

namespace Mosaic.Tiling

variable {α : Type} [Scalar α] {t : Tiling α} {cs ps : Array Nat} {i k fuel : Nat}
  {w v : VertexWalk α}

/-- Gluings respect the periods, and unless the tiling is affine or a star, walks around all
vertices end at copies of these. -/
structure Stable (t : Tiling α) (cs : Array Nat) : Prop where
  admissible : t.Admissible (periodOf cs)
  walk : (t.geometry.isAffine || t.isStar) = false → ∀ i < t.shapes.size,
    ∀ k < (t.shape i).size, ∃ w, t.walkVertex cs i k = .ok w ∧
      (periodOf cs i : Int) ∣ w.place.edge - k

/-- The walk is back at a copy of its start and has covered no angle. -/
def Resting (cs : Array Nat) (i k : Nat) (w : VertexWalk α) : Prop :=
  w.angles.size ≠ 0 ∧ atStart cs i k w.place = true ∧ (w.total == 0) = true

/-- With the periods `cs`, a walk `w'` around a copy `k'` of vertex `k` has come to the corner that
the walk `w` has come to, has covered the same angle, and will end at a copy of the vertex. -/
structure Shadow (t : Tiling α) (cs : Array Nat) (i k fuel : Nat) (w : VertexWalk α)
    (k' fuel' : Nat) (w' : VertexWalk α) : Prop where
  copy : (k' : Int) ≡ k [ZMOD periodOf cs i]
  fuel : fuel ≤ fuel'
  shape : w'.place.shape = w.place.shape
  edge : w'.place.edge = w.place.edge
  total : w'.total = w.total
  counting : w'.angles.size ≠ 0 → w'.since ≠ 0
  ends : ∃ z, t.continueWalk cs i k' fuel' w' = .ok z ∧ (periodOf cs i : Int) ∣ z.place.edge - k'

/-- The next corner and the angle of a corner do not depend on how it was come to. -/
theorem nextCorner_congr {c c' : Connection} (hshape : c'.shape = c.shape)
    (hedge : c'.edge = c.edge) :
    t.nextCorner c' = t.nextCorner c ∧ t.angleAt c' = t.angleAt c := by
  rw [nextCorner, nextCorner, angleAt, angleAt, hshape, hedge]
  exact ⟨rfl, rfl⟩

namespace Stable

variable (hcs : t.Stable cs) (hround : (t.geometry.isAffine || t.isStar) = false)
  (hi : i < t.shapes.size)

include hcs hround hi

/-- A walk has a shadow that begins with it. -/
theorem shadow_start (hk : k < (t.shape i).size) (hfuel : fuel ≤ maxWalk + 1) :
    t.Shadow cs i k fuel ⟨⟨i, k, false⟩, 0, #[], 0⟩ k (maxWalk + 1)
      ⟨⟨i, k, false⟩, 0, #[], 0⟩ := by
  obtain ⟨z, hz, hdvd⟩ := hcs.walk hround i hi k hk
  exact ⟨Int.ModEq.refl _, hfuel, rfl, rfl, rfl, fun h => absurd rfl h, z,
    (walkVertex_ok.mp hz).1, hdvd⟩

/-- A shadow that stops is relieved by one that begins where it stops. -/
theorem shadow_awake (hcorner : t.HasCorner w.place) (hplain : PlainZero w.total)
    (hfuel : fuel ≤ maxWalk + 1) (h : ∃ k' fuel' w', t.Shadow cs i k fuel w k' fuel' w') :
    ∃ k' fuel' w', t.Shadow cs i k fuel w k' fuel' w' ∧ ¬ Resting cs i k' w' := by
  obtain ⟨k', fuel', w', h⟩ := h
  by_cases hrest : Resting cs i k' w'
  · obtain ⟨-, hat, hzero⟩ := hrest
    obtain ⟨hshape, hedge⟩ := (atStart_iff (hcs.admissible.pos i hi)).mp hat
    rw [h.shape] at hshape
    rw [h.edge] at hedge
    rw [h.total] at hzero
    have hk : w.place.edge < (t.shape i).size := hshape ▸ hcorner.2
    obtain ⟨-, hle, -, -, -, hcount, hends⟩ := hcs.shadow_start hround hi hk hfuel
    exact ⟨w.place.edge, maxWalk + 1, ⟨⟨i, w.place.edge, false⟩, 0, #[], 0⟩,
      ⟨hedge.trans h.copy, hle, hshape.symm, rfl, (hplain hzero).symm, hcount, hends⟩,
      fun hrest => hrest.1 rfl⟩
  · exact ⟨k', fuel', w', h, hrest⟩

/-- A shadow meets the corner that the walk meets: it covers a full turn with it, or it goes on. -/
theorem shadow_step {a : α} (hcorner : t.HasCorner w.place) (hplain : PlainZero w.total)
    (hfuel : fuel + 1 ≤ maxWalk + 1) (hfold : foldAngle (t.angleAt w.place) = some a)
    (h : ∃ k' fuel' w', t.Shadow cs i k (fuel + 1) w k' fuel' w') :
    if Scalar.tau - 1e-6 ≤ w.total + a then
      (periodOf cs i : Int) ∣ (t.nextCorner w.place).edge - k
    else ∃ k' fuel' w', t.Shadow cs i k fuel (t.stepWalk ps i k w a) k' fuel' w' := by
  obtain ⟨k', fuel', w', h, hawake⟩ := hcs.shadow_awake hround hi hcorner hplain hfuel h
  obtain ⟨n, rfl⟩ : ∃ n, fuel' = n + 1 := ⟨fuel' - 1, by have := h.fuel; omega⟩
  obtain ⟨hnext, hangle⟩ := nextCorner_congr (t := t) h.shape h.edge
  obtain ⟨z, hz, hdvd⟩ := h.ends
  rw [Resting] at hawake
  rw [continueWalk_step cs i k' n h.counting, if_neg hawake, hangle, hfold] at hz
  simp only [stepWalk, h.total] at hz
  split
  case isTrue hturn =>
    rw [if_pos hturn] at hz
    cases hz
    rw [hnext] at hdvd
    rw [← Int.modEq_iff_dvd] at hdvd ⊢
    exact h.copy.symm.trans hdvd
  case isFalse hturn =>
    rw [if_neg hturn, hnext] at hz
    exact ⟨k', n, ⟨t.nextCorner w.place, w.total + a, w'.angles.push a, _⟩, h.copy,
      Nat.le_of_succ_le_succ h.fuel, rfl, rfl, rfl, fun _ => Nat.succ_ne_zero _, z, hz, hdvd⟩

variable [PlainSums α] (ht : t.Partnered) (hangles : ∀ s ∈ t.shapes, s.angles.size = s.size)
  (hp : 0 < periodOf ps i) (hbelow : periodOf cs i ∣ periodOf ps i)

include ht hangles hp hbelow

theorem dvd_continueWalk (hcorner : t.HasCorner w.place) (hplain : PlainZero w.total)
    (hcounting : w.angles.size ≠ 0 → w.since ≠ 0) (hmet : w.angles.size + fuel = maxWalk + 1)
    (h : ∃ k' fuel' w', t.Shadow cs i k fuel w k' fuel' w')
    (hv : t.continueWalk ps i k fuel w = .ok v) (hsize : v.angles.size ≤ maxWalk) :
    (periodOf cs i : Int) ∣ v.place.edge - k := by
  induction fuel generalizing w with
  | zero =>
      cases hv
      omega
  | succ fuel ih =>
      rw [continueWalk_step ps i k fuel hcounting] at hv
      split at hv
      case isTrue hrest =>
        cases hv
        have hedge := ((atStart_iff hp).mp hrest.2.1).2
        exact (Int.natCast_dvd_natCast.mpr hbelow).trans (Int.modEq_iff_dvd.mp hedge.symm)
      case isFalse =>
        cases hfold : foldAngle (t.angleAt w.place) with
        | none =>
            rw [hfold] at hv
            cases hv
        | some a =>
            have hstep : if Scalar.tau - 1e-6 ≤ (t.stepWalk ps i k w a).total then
                  (periodOf cs i : Int) ∣ (t.nextCorner w.place).edge - k
                else ∃ k' fuel' w', t.Shadow cs i k fuel (t.stepWalk ps i k w a) k' fuel' w' :=
              hcs.shadow_step hround hi hcorner hplain (by omega) hfold h
            have hmet' := t.stepWalk_size ps i k w a
            simp only [hfold] at hv
            split at hv
            case isTrue hturn =>
              cases hv
              rwa [if_pos hturn] at hstep
            case isFalse hturn =>
              rw [if_neg hturn] at hstep
              exact ih (hcorner.nextCorner ht hangles) (PlainSums.add hplain a)
                (fun _ => t.stepWalk_since ps i k w a) (by omega) hstep hv

/-- **Walks narrow no stable period**: with coarser periods, a walk ends at a distance that the
stable period of its shape divides. -/
theorem dvd_walkVertex (hk : k < (t.shape i).size) (hv : t.walkVertex ps i k = .ok v) :
    (periodOf cs i : Int) ∣ v.place.edge - k := by
  obtain ⟨hwalk, -, hsize, -⟩ := walkVertex_ok.mp hv
  exact hcs.dvd_continueWalk hround hi ht hangles hp hbelow ⟨hi, hk⟩ PlainZero.zero
    (fun h => absurd rfl h) (Nat.zero_add _) ⟨k, _, _, hcs.shadow_start hround hi hk le_rfl⟩ hwalk
    hsize

end Stable

section

variable [PlainSums α] (ht : t.Partnered) (hangles : ∀ s ∈ t.shapes, s.angles.size = s.size)
  (hpos : ∀ i < t.shapes.size, 0 < (t.shape i).stride)

include hpos

omit [PlainSums α] in
/-- Comparisons of gluings narrow no stable period. -/
theorem refinePeriods_below {qs : Array Nat} (hcs : t.Stable cs) (hps : Narrower ps t.strides)
    (hbelow : ∀ i, periodOf cs i ∣ periodOf ps i) (h : t.refinePeriods ps = .ok () qs) :
    Narrower qs t.strides ∧ ∀ i, periodOf cs i ∣ periodOf qs i := by
  have hrefined := refinePeriods_narrower hpos hps
  rw [h] at hrefined
  cases hrefined with
  | ok hn habove _ => exact ⟨hn.trans hps, habove _ hcs.admissible hbelow⟩

include ht hangles

/-- Rounds narrow no stable period. -/
theorem Restarting.above_stable (hcs : t.Stable cs) {s u : Tiling α} {n : Nat}
    {x : EStateM.Result (Inconsistency α) (Tiling α) Unit} (h : t.Restarting ps s n x)
    (hps : Narrower ps t.strides) (hs : s.shapes.size = t.shapes.size)
    (hbelow : ∀ i, periodOf cs i ∣ periodOf ps i) (hx : x = .ok () u) (i : Nat) :
    periodOf cs i ∣ periodOf u.periods i := by
  induction h with
  | refused h => cases hx
  | failed h _ hwalks => cases hx
  | flat h _ =>
      cases hx
      obtain ⟨hqs, hbelow'⟩ := refinePeriods_below hpos hcs hps hbelow h
      rw [periods_withPeriods hqs hs]
      exact hbelow' i
  | @settled ps qs s u h _ hwalks =>
      cases hx
      obtain ⟨hqs, hbelow'⟩ := refinePeriods_below hpos hcs hps hbelow h
      have hu := walkShapes_periods t { s.withPeriods qs with haveValence := true } qs
        (List.range t.shapes.size)
      rw [hwalks] at hu
      change u.periods = (s.withPeriods qs).periods at hu
      rw [hu, periods_withPeriods hqs hs]
      exact hbelow' i
  | @again ps qs s v j n d x h hround hwalks _ ih =>
      obtain ⟨hqs, hbelow'⟩ := refinePeriods_below hpos hcs hps hbelow h
      have hannotates := t.walkShapes_annotates qs (List.range t.shapes.size)
        { s.withPeriods qs with haveValence := true }
      rw [hwalks] at hannotates
      have hsize : v.shapes.size = t.shapes.size :=
        hannotates.size_eq.trans ((Annotates.withPeriods s _).size_eq.trans hs)
      obtain ⟨k, w, hto, hw, -, rfl⟩ := walkShapes_narrowed hwalks
      have hj := hto.shape_lt
      have hp : 0 < periodOf qs j := hqs.pos j (by rwa [hqs.size, strides, Array.size_map])
      have hdvd := hcs.dvd_walkVertex hround hj ht hangles hp (hbelow' j) hto.vertex_lt hw
      exact ih ((walkShapes_lowers hqs hwalks).1.trans hqs)
        ((Annotates.withPeriods v _).size_eq.trans hsize) (dvd_periodOf_modify hbelow' hdvd) hx

omit [PlainSums α] ht hangles hpos in
/-- The periods that an analysis leaves are written into the tiling. -/
theorem Settled.periods_eq {u : Tiling α} {qs : Array Nat} (h : t.Settled u ps qs)
    (hu : t.Annotates u) (hqs : qs.size = t.shapes.size) : u.periods = qs := by
  have hsize : u.periods.size = qs.size := (size_periods u).trans (hu.size_eq.trans hqs.symm)
  refine Array.ext hsize fun i hi hi' => ?_
  have hperiod := congrFun (h.period_eq hu hqs) i
  rw [size_periods] at hi
  simpa [periods, periodOf, shape, hi, hi'] using hperiod

omit [PlainSums α] hangles in
/-- What an analysis has done last, it has done with the periods that it leaves. -/
theorem analyseValence_settled_periods {u : Tiling α} (h : analyseValence t = .ok () u) :
    ∃ ps, t.Settled u ps u.periods := by
  obtain ⟨ps, qs, hsettled⟩ := analyseValence_settled hpos h
  have hqs := (hsettled.analysed ht hpos).narrower.size
  rw [hsettled.periods_eq (analyseValence_annotates h) (hqs.trans Array.size_map)]
  exact ⟨ps, hsettled⟩

/-- **An analysis of valences finds the greatest stable periods.** -/
theorem analyseValence_greatest {u : Tiling α} (h : analyseValence t = .ok () u) :
    t.Stable u.periods ∧ ∀ cs, t.Stable cs → ∀ i, periodOf cs i ∣ periodOf u.periods i := by
  obtain ⟨ps, hsettled⟩ := analyseValence_settled_periods ht hpos h
  have hanalysed := hsettled.analysed ht hpos
  have hstrides := strides_narrower hpos
  refine ⟨⟨hanalysed.admissible, fun hround i hi k hk => ?_⟩, fun cs hcs i => ?_⟩
  · obtain ⟨w, hw, hdvd, -⟩ := hanalysed.walk hround i hi k hk
    exact ⟨w, hw, hdvd⟩
  · obtain ⟨n, -, hrounds⟩ := settleValence_restarting (s := t.withPeriods t.strides) hstrides
      (Nat.lt_of_succ_lt (totalOf_strides_le t))
    obtain ⟨v, hsettle, rfl⟩ := analyseValence_ok h
    have hwritten : (if t.geometry.isAffine || t.isStar then v else v.withExtremes).periods =
        v.periods := by
      split <;> rfl
    rw [hsettle] at hrounds
    rw [hwritten]
    exact hrounds.above_stable ht hangles hpos hcs hstrides (Annotates.withPeriods t _).size_eq
      hcs.admissible.dvd_strides rfl i

end

end Mosaic.Tiling
