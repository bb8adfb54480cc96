import Mosaic.Proofs.Conversion.Coverage
import Mosaic.Proofs.Conversion.Emission
import Mosaic.Proofs.Scalar.Whole
import Mosaic.Proofs.Tiling.Faults

/-!
# Conversion — converted tilings are periodic and symmetric

The connections of a converted tiling are read off the samples, while the last pass has compared
other cells of their classes, possibly turned.  Since every target has an examined cell, what lies
across the edges of a sample repeats with its period (`Settled.across_modEq`), and what lies beyond
the sample of a neighbour looks like the sample itself (`Settled.back`).  So the periods of the
classes are respected by the gluings of the tiling, and refining does not change them.

The walks around the vertices may still fail or narrow a period.  Then refining begins anew and may
fail.  There is no other way for a conversion to find a contradiction (`Tiling.WalkFault`).
-/

namespace Mosaic

namespace Surveying

section

variable {α σ κ : Type} (cx : CellComplex α σ κ) [BEq κ] [Hashable κ]

/-- The end of an analysis: cells have been listed, and for every target one has been examined. -/
structure Settled (s₀ : σ) (s : Survey σ κ) (a : Agenda κ) : Prop where
  sound : Sound cx s₀ s
  listed : Listed cx s₀ s.source a
  represented : Represented cx s a

variable {cx} {s₀ : σ} {s : Survey σ κ} {a : Agenda κ} {k : Nat} {r r' : ClassRecord κ}
  {v q : Walker κ} (hcx : cx.Lawful s₀)

namespace Settled

/-- For every record an examined cell has one that agrees with it. -/
theorem exists_examined (h : Settled cx s₀ s a) (hr : s.classes[k]? = some r) :
    ∃ (c : κ) (r' : ClassRecord κ), cx.Reached s₀ s.source c ∧ Examined cx s a c ∧
      s.classes[cx.classOf s.source c]? = some r' ∧ r'.target = r.target ∧
      r'.sample = r.sample ∧ r'.period = r.period := by
  obtain ⟨c, hc, htarget, hx⟩ :=
    h.represented k r.target (by rw [Classes.targetOf, hr, Option.map_some])
  obtain ⟨r', hr', heq⟩ := targetAt_eq_some_iff.mp htarget
  exact ⟨c, r', h.listed.reached c hc, hx, hr', heq, h.sound.records.agree _ _ _ _ hr' hr heq⟩

include hcx

/-- Across the edges of a sample things look alike a period on. -/
theorem across_modEq (h : Settled cx s₀ s a) (hr : s.classes[k]? = some r) {z z' : Int}
    (hz : z ≡ z' [ZMOD r.period]) :
    AcrossAlike cx s (cx.walker s.source r.sample z) (cx.walker s.source r.sample z') := by
  obtain ⟨c, r', hc, hx, hr', -, hsample, hperiod⟩ := h.exists_examined hr
  obtain ⟨-, hdown, -⟩ := hx.across hcx h.sound hc hr' z
  obtain ⟨-, hup, -⟩ := hx.across hcx h.sound hc hr' z'
  rw [← hperiod] at hz
  rw [← hsample]
  exact (hdown.symm.trans (hx.across_modEq hcx h.sound hc hr' hz)).trans hup

theorem known (h : Settled cx s₀ s a) (hr : s.classes[k]? = some r) {j : Nat}
    (hj : j < cx.degree s.source r.sample) : Known cx s ⟨r.sample, j⟩ := by
  obtain ⟨v, v', hv, -, rv, -, hrv, -⟩ := h.across_modEq hcx hr (Int.ModEq.refl (j : Int))
  rw [CellComplex.Stands.eq_walker (w := ⟨r.sample, j⟩) hj] at hv
  exact ⟨v, rv, hv, hrv⟩

/-- **The way back.**  What lies across the counterpart of a neighbour, in the sample of its class,
has the canonical form of the walker that the neighbour was come to from. -/
theorem back (hinv : cx.Involutive s₀) (h : Settled cx s₀ s a) (hr : s.classes[k]? = some r)
    {z : Int} (hv : cx.Crosses s.source (cx.walker s.source r.sample z) v)
    (hr' : s.classes[cx.classOf s.source v.cell]? = some r')
    (hq : cx.Crosses s.source (cx.walker s.source r'.sample ((v.spin : Int) - r'.shift)) q) :
    ∃ r'' : ClassRecord κ, s.classes[cx.classOf s.source q.cell]? = some r'' ∧
      r''.target = r.target ∧ (q.spin : Int) - r''.shift ≡ z [ZMOD r.period] := by
  obtain ⟨c, rc, hc, hx, hrc, htarget, hsample, hperiod⟩ := h.exists_examined hr
  -- The neighbour `u` of the examined cell, and what lies beyond it: the cell again.
  obtain ⟨u, -, hu, ⟨b, hb, huv⟩, -, ru, hru, p, q', hp, hq', hpq'⟩ :=
    hx.compared hcx h.sound hc hrc z
  obtain rfl : b = v := hb.unique (hsample ▸ hv)
  obtain rfl := hinv.back h.sound.reachable hu hp
  -- The counterparts of `u` and `v` are whole periods apart.
  obtain ⟨ru', rb, hru', hrb, hub, hresidue⟩ := huv
  obtain rfl : ru = ru' := Option.some.inj (hru.symm.trans hru')
  obtain rfl : r' = rb := Option.some.inj (hr'.symm.trans hrb)
  obtain ⟨hsample', hperiod'⟩ := h.sound.records.agree _ _ _ _ hru hr' hub
  have hspin := (ClassRecord.residue_eq_iff (h.sound.records.record _ ru hru).period_pos
    hperiod').mp hresidue
  rw [← hsample'] at hq
  obtain ⟨rp, rq, hrp, hrq, hpq, hback⟩ :=
    hpq'.trans ((h.across_modEq hcx hru hspin).sameForm hq' hq)
  rw [CellComplex.walker_cell] at hrp
  obtain rfl : rc = rp := Option.some.inj (hrc.symm.trans hrp)
  have hrecord := h.sound.records.record _ rc hrc
  obtain ⟨-, hperiod''⟩ := h.sound.records.agree _ _ _ _ hrc hrq hpq
  have hdvd : rc.period ∣ cx.degree s.source c := by
    rw [(hrecord.looks.of_class hcx h.sound.reachable hc rfl).1]
    exact hrecord.period_dvd
  rw [ClassRecord.residue_eq_iff hrecord.period_pos hperiod''] at hback
  refine ⟨rq, hrq, hpq.symm.trans htarget, ?_⟩
  calc (q.spin : Int) - rq.shift
      ≡ (cx.walker s.source c (rc.shift + z)).spin - rc.shift [ZMOD r.period] :=
        hperiod ▸ hback.symm
    _ ≡ rc.shift + z - rc.shift [ZMOD r.period] := by
        rw [← hperiod]
        exact ((CellComplex.walker_spin_modEq hc.pos _).of_dvd
          (Int.natCast_dvd_natCast.mpr hdvd)).sub_right _
    _ = z := by ring

end Settled

theorem LastPass.settled [LawfulBEq κ] [LawfulHashable κ] (hcx : cx.Lawful s₀)
    (hinv : cx.Involutive s₀) {budget : Nat} {x : Agenda κ × Nat} {s₁ : Survey σ κ}
    (h : LastPass cx budget ⟨s₀, ∅, 0⟩ x s₁ a s) : Settled cx s₀ s a := by
  obtain ⟨hs, hlisted, -⟩ := h.visited hcx
  exact ⟨hs, hlisted, h.represented hcx hinv⟩

/-! ### The gluings of the tiling -/

variable [Scalar α] {order : List Nat} {t : Tiling α} {i : Nat}

include hcx

/-- **Gluings respect the periods of the classes.** -/
theorem Settled.respectsAt (hinv : cx.Involutive s₀) (h : Settled cx s₀ s a)
    (ht : Depicts cx s order t) (hi : i < t.shapes.size) :
    t.RespectsAt (fun i => (t.shape i).period) i := by
  obtain ⟨r, hr⟩ := ht.exists_shape hi
  constructor
  case periodic =>
    intro j hj j' hj' hmod
    rw [hr.emitted.period, ← Int.natCast_modEq_iff] at hmod
    obtain ⟨v, r₁, hv⟩ := hr.lands hj
    obtain ⟨v', r₁', hv'⟩ := hr.lands hj'
    obtain ⟨r₂, r₂', hr₂, hr₂', htarget, hresidue⟩ :=
      (h.across_modEq hcx hr.record hmod).sameForm hv.crosses hv'.crosses
    obtain rfl : r₁ = r₂ := Option.some.inj (hv.record.symm.trans hr₂)
    obtain rfl : r₁' = r₂' := Option.some.inj (hv'.record.symm.trans hr₂')
    obtain ⟨-, hperiod⟩ := h.sound.records.agree _ _ _ _ hr₂ hr₂' htarget
    obtain ⟨-, -, r₃, hr₃, -, hperiod₃⟩ := hv.target h.sound ht
    rw [ClassRecord.residue_eq_iff (h.sound.records.record _ r₁ hr₂).period_pos hperiod] at hresidue
    refine ⟨?_, ?_⟩
    · exact Option.some.inj (hv.index.symm.trans (htarget ▸ hv'.index))
    · rw [hr₃.emitted.period, hperiod₃, ← Int.natCast_modEq_iff]
      exact ((hv.edge_modEq h.sound).trans hresidue).trans (hperiod ▸ (hv'.edge_modEq h.sound).symm)
  case back =>
    intro j hj
    obtain ⟨v, r₁, hv⟩ := hr.lands hj
    obtain ⟨-, hedge, r₂, hr₂, hsample, -⟩ := hv.target h.sound ht
    obtain ⟨q, r₃, hq⟩ := hr₂.lands hedge
    have hwalker : cx.walker s.source r₁.sample (((t.shape i).connection j).edge) =
        cx.walker s.source r₁.sample ((v.spin : Int) - r₁.shift) := by
      rw [hv.edge]
      exact (CellComplex.walker_stands
        (h.sound.records.record _ r₁ hv.record).sample.pos _).eq_walker
    have hcrosses := hq.crosses
    rw [hsample, hwalker] at hcrosses
    obtain ⟨r₃', hr₃', htarget, hmod⟩ := h.back hcx hinv hr.record hv.crosses hv.record hcrosses
    obtain rfl : r₃ = r₃' := Option.some.inj (hq.record.symm.trans hr₃')
    obtain ⟨-, hperiod⟩ := h.sound.records.agree _ _ _ _ hr₃' hr.record htarget
    refine ⟨?_, ?_⟩
    · exact Option.some.inj (hq.index.symm.trans (htarget ▸ hr.index))
    · rw [hr.emitted.period, ← Int.natCast_modEq_iff]
      exact (hperiod ▸ hq.edge_modEq h.sound).trans hmod

theorem Settled.admissible (hinv : cx.Involutive s₀) (h : Settled cx s₀ s a)
    (ht : Depicts cx s order t) : t.Admissible fun i => (t.shape i).period where
  pos i hi := by
    obtain ⟨r, hr⟩ := ht.exists_shape hi
    exact (hr.stride h.sound).1
  dvd i hi := by
    obtain ⟨r, hr⟩ := ht.exists_shape hi
    rw [(hr.stride h.sound).2.2]
  respects i hi := h.respectsAt hcx hinv ht hi

omit [BEq κ] [Hashable κ] hcx in
/-- The periods of the shapes are those that an analysis of valences begins with. -/
theorem Depicts.stride_eq (hs : Coherent cx s) (ht : Depicts cx s order t) (i : Nat) :
    (t.shape i).stride = (t.shape i).period := by
  rcases Nat.lt_or_ge i t.shapes.size with hi | hi
  · obtain ⟨r, hr⟩ := ht.exists_shape hi
    exact (hr.stride hs).2.2
  · simp [Tiling.shape, Array.getElem?_eq_none hi, Shape.stride, Shape.size, Shape.empty]

omit hcx in
/-- What becomes of a conversion once a tiling is emitted. -/
theorem convert_eq (settings : Settings) {u u' : Survey σ κ} {t' : Tiling α}
    (hanalysis : analyse cx settings.allowance ⟨s₀, ∅, 0⟩ = .ok () s)
    (hfold : (if settings.minimise then minimise cx else return ()) s = .ok () u)
    (hemit : emit cx settings u = .ok t' u') :
    cx.convert settings s₀ = match Tiling.analyseValence t' with
      | .ok _ t'' => .ok t'' u'.source
      | .error e _ => .error (.inconsistent e) u'.source := by
  have hsurvey : (analyse cx settings.allowance >>= fun _ =>
      (if settings.minimise then minimise cx else return ()) >>= fun _ =>
      emit cx settings) ⟨s₀, ∅, 0⟩ = .ok t' u' :=
    bind_ok.mpr ⟨(), s, hanalysis, bind_ok.mpr ⟨(), u, hfold, hemit⟩⟩
  unfold CellComplex.convert
  cases hminimise : settings.minimise with
  | true =>
      simp only [hminimise, if_true] at hsurvey ⊢
      rw [hsurvey]
      rfl
  | false =>
      simp only [hminimise, Bool.false_eq_true, if_false, pure_bind] at hsurvey ⊢
      rw [hsurvey]
      rfl

omit [Scalar α] [BEq κ] [Hashable κ] hcx in
/-- A conversion finds the contradictions that the analysis of its tiling finds. -/
theorem inconsistent_iff {x : EStateM.Result (Inconsistency α) (Tiling α) Unit}
    {y : EStateM.Result (ConversionError α) σ (Tiling α)} {u : σ} {e : Inconsistency α}
    (hy : y = match x with
      | .ok _ t => .ok t u
      | .error e _ => .error (.inconsistent e) u) :
    (∃ v, y = .error (.inconsistent e) v) ↔ ∃ w, x = .error e w := by
  subst hy
  cases x with
  | ok _ w =>
      constructor
      · rintro ⟨_, ⟨⟩⟩
      · rintro ⟨_, ⟨⟩⟩
  | error e' w =>
      constructor
      · rintro ⟨_, ⟨⟩⟩
        exact ⟨w, rfl⟩
      · rintro ⟨_, ⟨⟩⟩
        exact ⟨u, rfl⟩

/-- **Converted tilings are periodic and symmetric.**  The gluings of the tiling that is emitted
after an analysis lead to edges that there are, and respect the periods of its shapes, which
multiply with the repetitions to the numbers of edges.  Every edge is glued back to by its partner,
and refining leaves the periods as they are, so the contradictions that the conversion can find are
those due to a walk around a vertex. -/
theorem emit_periodic [LawfulBEq κ] [LawfulHashable κ] (hinv : cx.Involutive s₀) {budget : Nat}
    {settings : Settings} {u : Survey σ κ}
    (hanalysis : analyse cx budget ⟨s₀, ∅, 0⟩ = .ok () s) (hemit : emit cx settings s = .ok t u) :
    t.WellFormed ∧
    (∀ i < t.shapes.size, (t.shape i).stride = (t.shape i).period ∧ 0 < (t.shape i).period ∧
      (t.shape i).period * (t.shape i).repeatCount = (t.shape i).size ∧
      t.RespectsAt (fun i => (t.shape i).period) i) ∧
    t.asymmetricEdges = [] ∧ t.refinePeriods.run t.strides = .ok () t.strides ∧
    (settings.minimise = false → budget = settings.allowance → ∀ e,
      (∃ v, cx.convert settings s₀ = .error (.inconsistent e) v) ↔ t.WalkFault e) := by
  obtain ⟨x, s₁, a, hlast⟩ := analyse_ok hanalysis
  have hsettled := hlast.settled hcx hinv
  have ht := emit_ok hcx hsettled.sound
    (fun k r hr j hj => hsettled.known hcx hr hj) hemit
  have hwf := ht.wellFormed hsettled.sound
  have hperiods := hsettled.admissible hcx hinv ht
  have hstrides : t.Admissible fun i => (t.shape i).stride := by
    simpa only [ht.stride_eq hsettled.sound] using hperiods
  have hid : ∀ i < t.shapes.size, (t.shape i).id = i := fun i hi => by
    obtain ⟨r, hr⟩ := ht.exists_shape hi
    exact hr.emitted.id
  refine ⟨hwf, fun i hi => ?_, Tiling.asymmetricEdges_eq_nil hwf hid ht.mirror hstrides,
    Tiling.refinePeriods_of_admissible hstrides, ?_⟩
  · obtain ⟨r, hr⟩ := ht.exists_shape hi
    obtain ⟨hpos, hmul, hstride⟩ := hr.stride hsettled.sound
    exact ⟨hstride, hpos, hmul, hsettled.respectsAt hcx hinv ht hi⟩
  · rintro hminimise rfl e
    have hfold : (if settings.minimise then minimise cx else return ()) s = .ok () s := by
      simp only [hminimise, Bool.false_eq_true, if_false]
      rfl
    rw [inconsistent_iff (convert_eq settings hanalysis hfold hemit)]
    exact Tiling.analyseValence_error_iff_walkFault hstrides

end

namespace folded

/-- The tiling of the folded digons. -/
def tiling : Tiling Float :=
  match emit folded.complex Settings.default ⟨(), after, 0⟩ with
  | .ok t _ => t
  | .error _ _ => Tiling.empty

theorem emission : emit folded.complex Settings.default ⟨(), after, 0⟩ =
    .ok tiling ⟨(), after, 0⟩ := rfl

end folded

/-- The tiling of the folded digons is a digon whose edges are copies of each other. -/
theorem folded_periodic : folded.complex.Lawful () ∧ folded.complex.Involutive () ∧
    folded.tiling.strides = #[1] ∧ folded.tiling.asymmetricEdges = [] ∧
    folded.tiling.refinePeriods.run #[1] = .ok () #[1] := by
  have hcx : folded.complex.Lawful () := CellTable.complex_lawful (by decide)
  have hinv : folded.complex.Involutive () := CellTable.complex_involutive (by decide)
  have hstrides : folded.tiling.strides = #[1] := by decide +kernel
  obtain ⟨-, -, hsymmetric, hrefine, -⟩ := emit_periodic hcx hinv folded.analysis folded.emission
  rw [hstrides] at hrefine
  exact ⟨hcx, hinv, hstrides, hsymmetric, hrefine⟩

/-- The agenda with two cells. -/
def bothListed : Agenda Nat := ⟨#[0, 1], (Std.HashSet.emptyWithCapacity.insert 0).insert 1⟩

theorem foldl_add_bothListed {l : List Nat} (hl : ∀ x ∈ l, x = 0 ∨ x = 1) :
    l.foldl Agenda.add bothListed = bothListed := by
  induction l with
  | nil => rfl
  | cons x l ih =>
      have hx : bothListed.add x = bothListed := by
        rcases hl x List.mem_cons_self with rfl | rfl <;> simp [bothListed, Agenda.add]
      rw [List.foldl_cons, hx]
      exact ih fun y hy => hl y (List.mem_cons_of_mem x hy)

theorem foldl_add_ofCell {l : List Nat} (hl : ∀ x ∈ l, x = 0 ∨ x = 1) (h : 1 ∈ l) :
    l.foldl Agenda.add (.ofCell 0) = bothListed := by
  induction l with
  | nil => cases h
  | cons x l ih =>
      have hl' : ∀ y ∈ l, y = 0 ∨ y = 1 := fun y hy => hl y (List.mem_cons_of_mem x hy)
      rw [List.foldl_cons]
      rcases hl x List.mem_cons_self with rfl | rfl
      · rw [show (Agenda.ofCell 0).add 0 = .ofCell 0 by simp [Agenda.add, Agenda.ofCell]]
        exact ih hl' (by simpa using h)
      · rw [show (Agenda.ofCell 0).add 1 = bothListed by
          simp [bothListed, Agenda.add, Agenda.ofCell]]
        exact foldl_add_bothListed hl'

/-- An analysis of two cells of which the first leads to the second, and nothing is identified. -/
theorem analyse_both {α : Type} {cx : CellComplex α Unit Nat} {r₀ r₁ : ClassRecord Nat}
    {first both : Classes Nat} {l₀ l₁ : List Nat} {b : Nat}
    (hx₀ : ∀ a, examine cx 0 r₀ a ⟨(), first, 0⟩ = .ok (l₀.foldl Agenda.add a) ⟨(), both, 0⟩)
    (hx₁ : ∀ a, examine cx 1 r₁ a ⟨(), both, 0⟩ = .ok (l₁.foldl Agenda.add a) ⟨(), both, 0⟩)
    (hr₀ : record cx 0 ⟨(), ∅, 0⟩ = .ok r₀ ⟨(), first, 0⟩)
    (hr₁ : record cx 1 ⟨(), both, 0⟩ = .ok r₁ ⟨(), both, 0⟩) (hne : r₀.target ≠ r₁.target)
    (hl₀ : ∀ x ∈ l₀, x = 0 ∨ x = 1) (hl₁ : ∀ x ∈ l₁, x = 0 ∨ x = 1) (hmem : 1 ∈ l₀)
    (hstart : cx.start () = .ok 0 ()) (hbound : 1 ≤ cx.classBound) :
    analyse cx b ⟨(), ∅, 0⟩ = .ok () ⟨(), both, 0⟩ := by
  have hfirst : passStep cx ⟨0, Std.HashSet.emptyWithCapacity, .ofCell 0, b⟩ ⟨(), ∅, 0⟩ =
      .ok (.inl ⟨1, Std.HashSet.emptyWithCapacity.insert r₀.target, bothListed, b⟩)
        ⟨(), both, 0⟩ :=
    passStep_of_fresh rfl hr₀ (by simp) (foldl_add_ofCell hl₀ hmem ▸ hx₀ _)
  have hsecond : passStep cx ⟨1, Std.HashSet.emptyWithCapacity.insert r₀.target, bothListed, b⟩
      ⟨(), both, 0⟩ = .ok (.inl ⟨2, (Std.HashSet.emptyWithCapacity.insert r₀.target).insert
        r₁.target, bothListed, b⟩) ⟨(), both, 0⟩ := by
    have hx := hx₁ bothListed
    rw [foldl_add_bothListed hl₁] at hx
    exact passStep_of_fresh rfl hr₁ (by simp [hne]) hx
  refine bind_ok.mpr ⟨0, ⟨(), ∅, 0⟩, by simp only [onSource, hstart], ?_⟩
  refine descend_of_inr (round_ok.mpr ⟨(bothListed, b), ?_, rfl⟩)
  unfold pass
  rw [descend_of_inl hfirst, descend_of_inl hsecond, descend_of_inr (passStep_of_ended rfl)]
  · simp [Below, Std.HashSet.size_insert, hne, bothListed]
    omega
  · simp [Below, Std.HashSet.size_insert]

/-- Two squares of different classes.  Two edges of the first are glued to the second, and the two
others to each other; those of the second are glued to themselves. -/
def crossed : CellTable Whole where
  geometry := .euclidean
  start := 0
  cells :=
    let square : Array (Point Whole) := #[⟨0, 0, 1⟩, ⟨1, 0, 1⟩, ⟨1, 1, 1⟩, ⟨0, 1, 1⟩]
    #[⟨0, square, #[some (1, 0), some (1, 1), some (0, 3), some (0, 2)]⟩,
      ⟨1, square, #[some (0, 0), some (0, 1), some (1, 2), some (1, 3)]⟩]

namespace crossed

/-- The records when the first square has been met, and then both. -/
def first : Classes Nat := (∅ : Classes Nat).insert 0 ⟨0, 0, 4, 0⟩

def both : Classes Nat := first.insert 1 ⟨1, 0, 4, 1⟩

theorem examine_first (a : Agenda Nat) :
    examine crossed.complex 0 ⟨0, 0, 4, 0⟩ a ⟨(), first, 0⟩ =
      .ok ([1, 1, 0, 0].foldl Agenda.add a) ⟨(), both, 0⟩ := by
  simp only [List.foldl_cons, List.foldl_nil]
  rfl

theorem examine_second (a : Agenda Nat) :
    examine crossed.complex 1 ⟨1, 0, 4, 1⟩ a ⟨(), both, 0⟩ =
      .ok ([0, 0, 1, 1].foldl Agenda.add a) ⟨(), both, 0⟩ := by
  simp only [List.foldl_cons, List.foldl_nil]
  rfl

/-- The squares are of different classes, so nothing is identified. -/
theorem analysis (b : Nat) :
    analyse crossed.complex b ⟨(), ∅, 0⟩ = .ok () ⟨(), both, 0⟩ :=
  analyse_both examine_first examine_second rfl rfl (by decide) (by decide) (by decide) (by decide)
    rfl (by decide)

/-- The tiling of the two squares. -/
def tiling : Tiling Whole :=
  match emit crossed.complex Settings.default ⟨(), both, 0⟩ with
  | .ok t _ => t
  | .error _ _ => Tiling.empty

theorem emission : emit crossed.complex Settings.default ⟨(), both, 0⟩ =
    .ok tiling ⟨(), both, 0⟩ := rfl

/-- The corners around the first vertex make a full turn at another vertex of the square, so its
period is narrowed, and then the gluings do not respect it. -/
theorem valence : ∃ t, Tiling.analyseValence.run tiling = .error (.periodMismatch 0 2) t := by
  have h : (match Tiling.analyseValence.run tiling with
    | .error (.periodMismatch 0 2) _ => true
    | _ => false) = true := by decide +kernel
  split at h
  · exact ⟨_, ‹_›⟩
  · cases h

theorem conversion : crossed.complex.convert Settings.default () =
    .error (.inconsistent (.periodMismatch 0 2)) () := by
  obtain ⟨t, ht⟩ := valence
  unfold CellComplex.convert
  have hsurvey : (analyse crossed.complex Settings.default.allowance >>= fun _ =>
      emit crossed.complex Settings.default) ⟨(), ∅, 0⟩ = .ok tiling ⟨(), both, 0⟩ :=
    bind_ok.mpr ⟨(), _, analysis _, emission⟩
  simp only [show Settings.default.minimise = false from rfl, Bool.false_eq_true, if_false]
  rw [hsurvey]
  simp only [ht]

end crossed

/-- A contradiction need not be found by a walk around a vertex: here a walk narrows the period of
the first square, and refining anew finds that copies of an edge lead to different shapes. -/
theorem crossed_periodMismatch : crossed.complex.Lawful () ∧ crossed.complex.Involutive () ∧
    analyse crossed.complex Settings.default.allowance ⟨(), ∅, 0⟩ = .ok () ⟨(), crossed.both, 0⟩ ∧
    emit crossed.complex Settings.default ⟨(), crossed.both, 0⟩ =
      .ok crossed.tiling ⟨(), crossed.both, 0⟩ ∧
    crossed.complex.convert Settings.default () =
      .error (.inconsistent (.periodMismatch 0 2)) () ∧
    ∀ periods i k, crossed.tiling.walkVertex periods i k ≠ .error (.periodMismatch 0 2) := by
  refine ⟨CellTable.complex_lawful (by decide), CellTable.complex_involutive (by decide),
    crossed.analysis _, crossed.emission, crossed.conversion, fun periods i k h => ?_⟩
  rcases Tiling.walkVertex_error h with h | ⟨_, h⟩ | h <;> cases h

end Surveying

end Mosaic
