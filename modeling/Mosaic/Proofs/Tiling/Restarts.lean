import Mosaic.Proofs.Tiling.Orbit

/-!
# Tiling — an analysis of valences ends

Three loops work on the periods, one inside the other: walks around vertices, passes that compare
gluings, and rounds of both that begin again when a walk has narrowed a period.  Told without a bound
on how often they go round (`Tiling.Passing`, `Tiling.Restarting`), they are what the analysis does.

Nothing raises a period or makes it zero (`Narrows`), also not what fails.  Periods are taken to be
stable when two passes in a row leave the same sum, so a pass lowers the sum unless it is the last,
or the first one and changes nothing (`Tiling.Passing.falling`); a round that begins again has
lowered it.  So rounds begin again at most as often as the sizes of the shapes exceed one,
altogether (`Tiling.analyseValence_terminates`).
-/

namespace Mosaic

variable {α : Type}

namespace Tiling

/-! ### Passes -/

/-- Passes over all shapes, from the periods `ps` on and after one that has left periods of the sum
`last`: the periods that each leaves, also the one that fails, and how they end.  They end when two
in a row leave the same sum. -/
inductive Passing (t : Tiling α) : (last : Option Nat) → (ps : Array Nat) → List (Array Nat) →
    EStateM.Result (Inconsistency α) (Array Nat) Unit → Prop where
  | failed {last : Option Nat} {ps qs : Array Nat} {e : Inconsistency α}
      (h : t.refinePass ps = .error e qs) : Passing t last ps [qs] (.error e qs)
  | stable {ps qs : Array Nat} {total : Nat} (h : t.refinePass ps = .ok total qs) :
      Passing t (some total) ps [qs] (.ok () qs)
  | more {last : Option Nat} {ps qs : Array Nat} {total : Nat} {l : List (Array Nat)}
      {x : EStateM.Result (Inconsistency α) (Array Nat) Unit} (h : t.refinePass ps = .ok total qs)
      (hlast : last ≠ some total) (hmore : Passing t (some total) qs l x) :
      Passing t last ps (qs :: l) x

variable {t : Tiling α} {last : Option Nat} {ps qs : Array Nat} {l : List (Array Nat)}
  {x : EStateM.Result (Inconsistency α) (Array Nat) Unit}

theorem refinePass_ok {total : Nat} (hps : ∀ i < ps.size, 0 < periodOf ps i)
    (h : t.refinePass ps = .ok total qs) : total = totalOf qs ∧ Narrower qs ps := by
  refine ⟨?_, t.refinePass_narrows.ok hps h⟩
  rw [refinePass_eq] at h
  split at h
  · cases h
    rfl
  · cases h

namespace Passing

theorem ne_nil (h : t.Passing last ps l x) : l ≠ [] := by
  cases h <;> exact List.cons_ne_nil _ _

theorem narrower (h : t.Passing last ps l x) (hps : ∀ i < ps.size, 0 < periodOf ps i) :
    ∀ qs ∈ l, Narrower qs ps := by
  induction h with
  | failed h => exact List.forall_mem_singleton.mpr (t.refinePass_narrows.error hps h)
  | stable h => exact List.forall_mem_singleton.mpr (refinePass_ok hps h).2
  | more h _ _ ih =>
      have hn := (refinePass_ok hps h).2
      rw [List.forall_mem_cons]
      exact ⟨hn, fun rs hrs => (ih hn.pos rs hrs).trans hn⟩

/-- After a pass that has left the periods `ps`, every pass but the last one lowers the sum. -/
theorem falling_from (h : t.Passing last ps l x) (hps : ∀ i < ps.size, 0 < periodOf ps i)
    (hlast : last = some (totalOf ps)) :
    ((ps :: l).dropLast.map totalOf).IsChain (· > ·) := by
  induction h with
  | failed h => exact .singleton _
  | stable h => exact .singleton _
  | @more last ps qs total l x h hne hmore ih =>
      obtain ⟨rfl, hn⟩ := refinePass_ok hps h
      have hlt : totalOf qs < totalOf ps := by
        refine Nat.lt_of_le_of_ne (hn.totalOf_le hps) fun heq => hne ?_
        rw [hlast, heq]
      have hrest := ih hn.pos rfl
      rw [List.dropLast_cons_of_ne_nil hmore.ne_nil, List.map_cons] at hrest
      rw [List.dropLast_cons_of_ne_nil (List.cons_ne_nil _ _),
        List.dropLast_cons_of_ne_nil hmore.ne_nil, List.map_cons, List.map_cons]
      exact .cons_cons hlt hrest

/-- **Every pass but the last one lowers the sum of the periods**, except a first one that changes
nothing. -/
theorem falling (h : t.Passing none ps l x) (hps : ∀ i < ps.size, 0 < periodOf ps i) :
    (∀ qs, l.head? = some qs → qs = ps ∨ totalOf qs < totalOf ps) ∧
      (l.dropLast.map totalOf).IsChain (· > ·) := by
  refine ⟨fun qs hqs => ?_, ?_⟩
  · have hn := h.narrower hps qs (List.mem_of_head? hqs)
    rcases Nat.eq_or_lt_of_le (hn.totalOf_le hps) with heq | hlt
    · exact Or.inl (hn.eq_of_totalOf hps heq)
    · exact Or.inr hlt
  · cases h with
    | failed h => exact .nil
    | more h _ hmore =>
        obtain ⟨rfl, hn⟩ := refinePass_ok hps h
        exact hmore.falling_from hn.pos rfl

end Passing

/-- Passes that may still be made are enough. -/
theorem refineFrom_passing {fuel : Nat} (hps : ∀ i < ps.size, 0 < periodOf ps i)
    (hlast : ∀ n ∈ last, n = totalOf ps)
    (hfuel : totalOf ps + (if last.isSome then 1 else 2) ≤ fuel) :
    ∃ l, t.Passing last ps l (t.refineFrom fuel last ps) := by
  induction fuel generalizing last ps with
  | zero =>
      split at hfuel <;> omega
  | succ fuel ih =>
      rw [refineFrom_succ]
      have hpass : t.refinePass ps = _ := refinePass_eq
      cases hres : (List.range t.shapes.size).forM t.refineShape ps with
      | error e qs =>
          rw [hres] at hpass
          exact ⟨[qs], .failed hpass⟩
      | ok _ qs =>
          rw [hres] at hpass
          have hn := (refinePass_ok hps hpass).2
          dsimp only
          split
          · rename_i heq
            subst heq
            exact ⟨[qs], .stable hpass⟩
          · rename_i hne
            have hlt := totalOf_lt_fuel (hn.totalOf_le hps) hlast hne hfuel
            have hsum : ∀ n ∈ some (totalOf qs), n = totalOf qs := by simp
            obtain ⟨l, hl⟩ := ih hn.pos hsum hlt
            exact ⟨qs :: l, .more hpass hne hl⟩

/-- The periods that are written into the shapes of a tiling. -/
def periods (t : Tiling α) : Array Nat := t.shapes.map (·.period)

/-! ### Walks -/

section

variable [Scalar α]

/-- A walk goes no further: a full turn is covered, too many corners have been met, or a copy of the
start is reached and no angle was covered. -/
def Stopped (ps : Array Nat) (i k : Nat) (w : VertexWalk α) : Prop :=
  Scalar.tau - 1e-6 ≤ w.total ∨ maxWalk < w.angles.size ∨
    w.angles.size ≠ 0 ∧ atStart ps i k w.place = true ∧ (w.total == 0) = true

/-- **A walk stops** after at most one corner more than the longest walk has, if its angles can be
reduced to a single turn. -/
theorem continueWalk_stops (ht : t.Partnered) (hangles : ∀ s ∈ t.shapes, s.angles.size = s.size)
    (hfold : ∀ s ∈ t.shapes, ∀ a ∈ s.angles, (foldAngle a).isSome) {i k fuel : Nat}
    {w : VertexWalk α} (hplace : t.HasCorner w.place)
    (hcounting : w.angles.size ≠ 0 → w.since ≠ 0) (hmet : w.angles.size + fuel = maxWalk + 1) :
    ∃ v, t.continueWalk ps i k fuel w = .ok v ∧ v.angles.size ≤ maxWalk + 1 ∧
      Stopped ps i k v := by
  induction fuel generalizing w with
  | zero => exact ⟨w, rfl, hmet.le, Or.inr (Or.inl (Nat.lt_of_succ_le hmet.ge))⟩
  | succ fuel ih =>
      rw [continueWalk_step ps i k fuel hcounting]
      split
      case isTrue hstop => exact ⟨_, rfl, by simp only; omega, Or.inr (Or.inr hstop)⟩
      case isFalse =>
        have hangle : t.angleAt w.place ∈ (t.shape w.place.shape).angles := by
          have hlt : w.place.edge < (t.shape w.place.shape).angles.size := by
            rw [hangles _ (shape_mem hplace.1)]
            exact hplace.2
          rw [angleAt, Array.getElem?_eq_getElem hlt]
          exact Array.getElem_mem hlt
        obtain ⟨a, ha⟩ := Option.isSome_iff_exists.mp (hfold _ (shape_mem hplace.1) _ hangle)
        have hsize := t.stepWalk_size ps i k w a
        simp only [ha]
        split
        case isTrue hturn => exact ⟨_, rfl, by rw [hsize]; omega, Or.inl hturn⟩
        case isFalse =>
          exact ih (hplace.nextCorner ht hangles) (fun _ => t.stepWalk_since ps i k w a)
            (by rw [hsize]; omega)

/-! ### Periods that are written -/

omit [Scalar α] in
theorem size_periods (t : Tiling α) : t.periods.size = t.shapes.size := Array.size_map

omit [Scalar α] in
theorem periods_withPeriods {s : Tiling α} (h : Narrower ps t.strides)
    (hs : s.shapes.size = t.shapes.size) : (s.withPeriods ps).periods = ps := by
  have hps : ps.size = s.shapes.size := by rw [h.size, hs, strides, Array.size_map]
  apply Array.ext_getElem?
  intro i
  by_cases hi : i < ps.size
  · simp [periods, withPeriods, hi, hps ▸ hi]
  · simp [periods, withPeriods, hi, hps ▸ hi]

theorem periods_withWalks (s : Tiling α) (i : Nat) (walks : Array (VertexWalk α)) :
    (s.modifyShape i (·.withWalks walks)).periods = s.periods := by
  apply Array.ext_getElem?
  intro j
  rw [periods, periods, Array.getElem?_map, Array.getElem?_map, getElem?_modifyShape,
    Option.map_map]
  congr 1
  funext r
  simp only [Function.comp_apply]
  split <;> rfl

/-- Walks write no periods. -/
theorem walkShapes_periods (t s : Tiling α) (ps : Array Nat) (is : List Nat) :
    (left (t.walkShapes ps is s)).periods = s.periods :=
  walkShapes_keeps (P := fun u => u.periods = s.periods)
    (fun u i walks h => (periods_withWalks u i walks).trans h) ps is rfl

omit [Scalar α] in
theorem periods_closing (t : Tiling α) (x : EStateM.Result (Inconsistency α) (Tiling α) Unit) :
    (left (t.closing x)).periods = (left x).periods := by
  cases x with
  | error e u => rfl
  | ok _ u =>
      simp only [closing, left]
      split <;> rfl

/-- **However the rounds end**, the periods that they leave in the tiling are narrower than those
that they have begun with. -/
theorem Restarting.narrower {s : Tiling α} {n : Nat}
    {x : EStateM.Result (Inconsistency α) (Tiling α) Unit} (h : t.Restarting ps s n x)
    (hps : Narrower ps t.strides) (hs : s.shapes.size = t.shapes.size) :
    Narrower (left x).periods t.strides := by
  have hwalked {qs : Array Nat} {s : Tiling α}
      {y : EStateM.Result (Inconsistency α) (Tiling α) (Option (Nat × Int))}
      (hqs : Narrower qs t.strides) (hs : s.shapes.size = t.shapes.size)
      (hwalks : t.walkShapes qs (List.range t.shapes.size)
        { s.withPeriods qs with haveValence := true } = y) : (left y).periods = qs := by
    rw [← hwalks, walkShapes_periods]
    exact periods_withPeriods hqs hs
  induction h with
  | refused h =>
      have hqs := (t.refinePeriods_narrows.error hps.pos h).trans hps
      exact (periods_withPeriods hqs hs).symm ▸ hqs
  | flat h _ =>
      have hqs := (t.refinePeriods_narrows.ok hps.pos h).trans hps
      exact (periods_withPeriods hqs hs).symm ▸ hqs
  | failed h _ hwalks =>
      have hqs := (t.refinePeriods_narrows.ok hps.pos h).trans hps
      exact (hwalked hqs hs hwalks).symm ▸ hqs
  | settled h _ hwalks =>
      have hqs := (t.refinePeriods_narrows.ok hps.pos h).trans hps
      exact (hwalked hqs hs hwalks).symm ▸ hqs
  | @again ps qs s u i n d x h _ hwalks _ ih =>
      have hqs := (t.refinePeriods_narrows.ok hps.pos h).trans hps
      have hu : u.periods = qs := hwalked hqs hs hwalks
      have hsize : u.shapes.size = t.shapes.size := by
        rw [← size_periods, hu, hqs.size, strides, Array.size_map]
      exact ih ((walkShapes_lowers hqs hwalks).1.trans hqs)
        ((Annotates.withPeriods u _).size_eq.trans hsize)

/-- How the loops of an analysis end. -/
structure Terminates (t : Tiling α) : Prop where
  /-- No comparison of gluings raises a period or makes one zero. -/
  comparisons : ∀ i k, Narrows (t.comparePeriodic i k) ∧ Narrows (t.compareBack i k)
  /-- Passes end, and all of them but the last lower the sum of the periods, except a first one that
  changes nothing. -/
  passes : ∀ ps, Narrower ps t.strides → ∃ l, t.Passing none ps l (t.refinePeriods ps) ∧
    (∀ qs ∈ l, Narrower qs ps) ∧ (∀ qs, l.head? = some qs → qs = ps ∨ totalOf qs < totalOf ps) ∧
    (l.dropLast.map totalOf).IsChain (· > ·)
  /-- Walks stop. -/
  walks : ∀ ps, ∀ i < t.shapes.size, ∀ k < (t.shape i).size, ∃ w,
    t.continueWalk ps i k (maxWalk + 1) ⟨⟨i, k, false⟩, 0, #[], 0⟩ = .ok w ∧
    w.angles.size ≤ maxWalk + 1 ∧ Stopped ps i k w
  /-- Walks that ask for another round lower the period of a shape to a proper divisor. -/
  restarts : ∀ ps, Narrower ps t.strides → ∀ s i d s',
    t.walkShapes ps (List.range t.shapes.size) s = .ok (some (i, d)) s' →
    Narrower (ps.modify i (reduceGcd · d)) ps ∧
      periodOf (ps.modify i (reduceGcd · d)) i < periodOf ps i
  /-- Rounds begin again no more often than the sizes of all shapes exceed one. -/
  rounds : ∃ n x, t.Restarting t.strides (t.withPeriods t.strides) n x ∧
    n ≤ (t.shapes.toList.map fun s => s.size - 1).sum ∧ analyseValence t = t.closing x
  /-- The periods that are left, also by a failure, are positive and divide the strides. -/
  kept : Narrower (left (analyseValence t)).periods t.strides

omit [Scalar α] in
theorem totalOf_strides_le_sizes (hrep : t.Repetitive) :
    totalOf t.strides ≤ (t.shapes.toList.map fun s => s.size - 1).sum + t.shapes.size := by
  rw [totalOf_eq_sum, strides, Array.toList_map, ← Array.length_toList]
  have hpos : ∀ s ∈ t.shapes.toList, 0 < s.size := fun s hs => (hrep s (Array.mem_def.mpr hs)).1
  generalize t.shapes.toList = l at hpos ⊢
  induction l with
  | nil => exact Nat.le_refl _
  | cons s l ih =>
      have hle : s.stride ≤ s.size := Nat.div_le_self _ _
      have hs := hpos s List.mem_cons_self
      have hl := ih fun s hs => hpos s (List.mem_cons_of_mem _ hs)
      simp only [List.map_cons, List.sum_cons, List.length_cons]
      omega

/-- **An analysis of valences ends.** -/
theorem analyseValence_terminates (ht : t.Partnered) (hrep : t.Repetitive)
    (hangles : ∀ s ∈ t.shapes, s.angles.size = s.size)
    (hfold : ∀ s ∈ t.shapes, ∀ a ∈ s.angles, (foldAngle a).isSome) : t.Terminates := by
  have hpos : ∀ i < t.shapes.size, 0 < (t.shape i).stride := fun i hi => hrep.stride_pos hi
  have hstrides := strides_narrower hpos
  have hfuel := totalOf_strides_le t
  obtain ⟨n, hbound, hrounds⟩ := settleValence_restarting (s := t.withPeriods t.strides) hstrides
    (Nat.lt_of_succ_lt hfuel)
  constructor
  case comparisons => exact fun i k => ⟨t.comparePeriodic_narrows i k, t.compareBack_narrows i k⟩
  case passes =>
    intro ps hps
    have hle := hps.totalOf_le hstrides.pos
    have hpasses : ∃ l, t.Passing none ps l (t.refinePeriods ps) :=
      refineFrom_passing hps.pos (by simp) ((Nat.add_le_add_right hle 2).trans hfuel)
    obtain ⟨l, hl⟩ := hpasses
    exact ⟨l, hl, hl.narrower hps.pos, hl.falling hps.pos⟩
  case walks =>
    intro ps i hi k hk
    exact continueWalk_stops ht hangles hfold ⟨hi, hk⟩ (fun h => absurd rfl h) (Nat.zero_add _)
  case restarts =>
    intro ps hps s i d s' h
    obtain ⟨hn, hlt, -⟩ := walkShapes_lowers hps h
    exact ⟨hn, hlt⟩
  case rounds =>
    have hsizes := totalOf_strides_le_sizes hrep
    exact ⟨n, _, hrounds, by omega, t.analyseValence_eq⟩
  case kept =>
    have hnarrower := hrounds.narrower hstrides (Annotates.withPeriods t _).size_eq
    rwa [analyseValence_eq, periods_closing]

end

/-- The domino, not declared to repeat around itself. -/
def wholeDomino : Tiling Whole := domino.modifyShape 0 ({ · with repeatCount := 1 })

/-- A walk around a corner of the domino ends half a turn away and asks for another round. -/
theorem wholeDomino_terminates : wholeDomino.Terminates ∧
    wholeDomino.refinePeriods wholeDomino.strides = .ok () #[6] ∧
    ∃ s, wholeDomino.walkShapes #[6] (List.range 1) wholeDomino = .ok (some (0, 3)) s := by
  have ht : wholeDomino.WellFormed := by decide
  have hrep : wholeDomino.Repetitive := by
    unfold Repetitive
    decide
  refine ⟨analyseValence_terminates ht.partnered hrep (by decide) (by decide), ?_, ?_⟩
  · cbv
  · exact ⟨_, eq_ok_of_answer (by cbv)⟩

/-- Gluings respect the strides of a rectangle, so the first of two passes changes nothing although
it is not the last. -/
theorem rectangle_passing : rectangle.Partnered ∧ rectangle.Repetitive ∧
    (∀ s ∈ rectangle.shapes, s.angles.size = s.size) ∧
    (∀ s ∈ rectangle.shapes, ∀ a ∈ s.angles, (foldAngle a).isSome) ∧
    ∃ l, rectangle.Passing none rectangle.strides l (rectangle.refinePeriods rectangle.strides) ∧
      ¬ ((rectangle.strides :: l).dropLast.map totalOf).IsChain (· > ·) := by
  have ht : rectangle.WellFormed := by decide
  have hrep : rectangle.Repetitive := by
    unfold Repetitive
    decide
  have hstrides : rectangle.strides = #[2] := by cbv
  have hpass : rectangle.refinePass #[2] = .ok 2 #[2] := by cbv
  have hrefine : rectangle.refinePeriods #[2] = .ok () #[2] := by cbv
  rw [hstrides, hrefine]
  refine ⟨ht.partnered, hrep, by decide, by decide, [#[2], #[2]], ?_, by simp⟩
  exact .more hpass (by decide) (.stable hpass)

end Tiling

end Mosaic
