import Mosaic.Proofs.Conversion.Examination
import Mosaic.Proofs.Conversion.Lawful
import Mosaic.Scalar.Double

/-!
# Conversion — canonical forms are the least congruence

After an analysis two walkers with the same canonical form are related by every congruence
(`SameForm.related`).  If the last pass passed over no listed cell, having the same canonical form
is itself a congruence of the walkers on the listed cells (`sameForm_isCongruence`): a walker is
taken to the sample of its class, there turned by whole periods, and then to the other walker, and
at each of these steps what lies across the edge has been compared.
-/

namespace Mosaic.Surveying

section

variable {α σ κ : Type} {cx : CellComplex α σ κ} {s₀ : σ} {s : Survey σ κ} {w w' : Walker κ}
  (hcx : cx.Lawful s₀)

/-! ### Every congruence relates walkers with the same canonical form -/

include hcx

/-- A congruence relates a walker to the walker of the sample that its canonical form names. -/
theorem Sound.related_sample {C : κ → Prop} {R : Walker κ → Walker κ → Prop} (hs : Sound cx s₀ s)
    (hC : cx.Closed s₀ s.source C) (hR : cx.IsCongruence s.source C R) {r : ClassRecord κ}
    (hw : cx.On s.source C w) (hr : s.classes[cx.classOf s.source w.cell]? = some r) :
    cx.On s.source C (cx.walker s.source r.sample (r.residue w.spin)) ∧
      R w (cx.walker s.source r.sample (r.residue w.spin)) := by
  have hrecord := hs.records.record _ r hr
  obtain ⟨c, hc, hclass, -, -⟩ := hrecord.looks
  -- The cell itself need not be reached, but one of its class is.
  have hdegree := hcx.degree_eq hs.reachable hw.2.pos hc.pos hclass.symm
  have hspin : w.spin < cx.degree s.source c := hdegree ▸ hw.2
  have hc' : cx.On s.source C ⟨c, w.spin⟩ := ⟨hc.2 _ (.refl _) C hC, hspin⟩
  have hrecord' : cx.RecordSound s₀ s.source (cx.classOf s.source c) r := hclass.symm ▸ hrecord
  obtain ⟨-, hon, hsample⟩ := hrecord'.forced (w := ⟨c, w.spin⟩) hcx hs.reachable hc hspin
    _ (.refl _) C R hC hR
  refine ⟨hon, hR.trans _ _ _ hw hc' hon ?_ hsample⟩
  exact hR.sameClass _ _ hw hc' hclass.symm rfl

theorem SameForm.related {C : κ → Prop} {R : Walker κ → Walker κ → Prop} (hs : Sound cx s₀ s)
    (hC : cx.Closed s₀ s.source C) (hR : cx.IsCongruence s.source C R) (hw : cx.On s.source C w)
    (hw' : cx.On s.source C w') (h : SameForm cx s w w') : R w w' := by
  obtain ⟨r, r', hr, hr', htarget, hresidue⟩ := h
  obtain ⟨hsample, -⟩ := hs.records.agree _ _ _ _ hr hr' htarget
  obtain ⟨hon, hrel⟩ := hs.related_sample hcx hC hR hw hr
  obtain ⟨-, hrel'⟩ := hs.related_sample hcx hC hR hw' hr'
  rw [← hsample, ← hresidue] at hrel'
  exact hR.trans _ _ _ hw hon hw' hrel (hR.symm _ _ hw' hon hrel')

/-! ### Canonical forms are kept by turning and by crossing -/

theorem SameForm.turned (hs : Sound cx s₀ s) (hw : cx.Reached s₀ s.source w.cell)
    (hw' : cx.Reached s₀ s.source w'.cell) (h : SameForm cx s w w') (d : Int) :
    SameForm cx s (cx.turned s.source w d) (cx.turned s.source w' d) := by
  obtain ⟨r, r', hr, hr', htarget, hresidue⟩ := h
  have hrecord := hs.records.record _ r hr
  have hrecord' := hs.records.record _ r' hr'
  obtain ⟨-, hperiod⟩ := hs.records.agree _ _ _ _ hr hr' htarget
  -- The period divides the number of edges, so going round a cell does not matter.
  have hdvd := hrecord.period_dvd
  have hdvd' := hrecord'.period_dvd
  rw [← (hrecord.looks.of_class hcx hs.reachable hw rfl).1] at hdvd
  rw [← (hrecord'.looks.of_class hcx hs.reachable hw' rfl).1, ← hperiod] at hdvd'
  have hspin := (CellComplex.walker_spin_modEq hw.pos (w.spin + d)).of_dvd
    (Int.natCast_dvd_natCast.mpr hdvd)
  have hspin' := (CellComplex.walker_spin_modEq hw'.pos (w'.spin + d)).of_dvd
    (Int.natCast_dvd_natCast.mpr hdvd')
  refine ⟨r, r', hr, hr', htarget, ?_⟩
  rw [ClassRecord.residue_eq_iff hrecord.period_pos hperiod] at hresidue ⊢
  calc ((cx.turned s.source w d).spin : Int) - r.shift
      ≡ w.spin + d - r.shift [ZMOD r.period] := hspin.sub_right _
    _ = w.spin - r.shift + d := by ring
    _ ≡ w'.spin - r'.shift + d [ZMOD r.period] := hresidue.add_right d
    _ = w'.spin + d - r'.shift := by ring
    _ ≡ (cx.turned s.source w' d).spin - r'.shift [ZMOD r.period] := hspin'.symm.sub_right _

omit hcx

variable [BEq κ] [Hashable κ] {a : Agenda κ} {c : κ} {r : ClassRecord κ}

include hcx

/-- What lies across the edges of a cell that has been examined, in all directions, what it has been
compared with, and what lies beyond it. -/
theorem Examined.compared (hs : Sound cx s₀ s) (hc : cx.Reached s₀ s.source c)
    (hr : s.classes[cx.classOf s.source c]? = some r) (h : Examined cx s a c) (z : Int) :
    ∃ v, v.cell ∈ a.cells ∧ cx.Crosses s.source (cx.walker s.source c (r.shift + z)) v ∧
      (∃ b, cx.Crosses s.source (cx.walker s.source r.sample z) b ∧ SameForm cx s v b) ∧
      (∃ b, cx.Crosses s.source (cx.walker s.source c (r.shift + z + r.period)) b ∧
        SameForm cx s v b) ∧
      ∃ r' : ClassRecord κ, s.classes[cx.classOf s.source v.cell]? = some r' ∧
        AcrossAlike cx s v (cx.walker s.source r'.sample ((v.spin : Int) - r'.shift)) := by
  obtain ⟨r', hr', hedges⟩ := h
  obtain rfl : r = r' := Option.some.inj (hr.symm.trans hr')
  have hrecord := hs.records.record _ r hr
  have hdegree := (hrecord.looks.of_class hcx hs.reachable hc rfl).1
  -- The edge that looks in direction `z` from the shift on.
  obtain ⟨j, hj, hjz⟩ : ∃ j, j < cx.degree s.source c ∧ (j : Int) ≡ z [ZMOD cx.degree s.source c] :=
    ⟨_, cyclicIndex_lt z hc.pos, cyclicIndex_modEq z hc.pos⟩
  have hcell (d : Int) (hd : d ≡ z [ZMOD cx.degree s.source c]) (p : Int) :
      cx.turned s.source (cx.turned s.source ⟨c, 0⟩ r.shift) (d + p) =
        cx.walker s.source c (r.shift + z + p) := by
    rw [CellComplex.turned_first, CellComplex.turned_walker hc.pos, ← add_assoc]
    exact CellComplex.walker_congr hc.pos ((hd.add_left _).add_right p)
  have hsample : cx.turned s.source ⟨r.sample, 0⟩ j = cx.walker s.source r.sample z := by
    rw [CellComplex.turned_first]
    exact CellComplex.walker_congr hrecord.sample.pos (hdegree ▸ hjz)
  obtain ⟨v, hv, hcross, hb, hb', hbeyond⟩ := hedges j hj
  rw [← add_zero (j : Int), hcell j hjz, add_zero] at hcross
  rw [hsample] at hb
  rw [hcell j hjz] at hb'
  exact ⟨v, hv, hcross, hb, hb', hbeyond⟩

/-- Across the edges of a cell that has been examined things look as they do from the sample, and as
they do a period on. -/
theorem Examined.across (hs : Sound cx s₀ s) (hc : cx.Reached s₀ s.source c)
    (hr : s.classes[cx.classOf s.source c]? = some r) (h : Examined cx s a c) (z : Int) :
    (∃ v, v.cell ∈ a.cells ∧ cx.Crosses s.source (cx.walker s.source c (r.shift + z)) v) ∧
    AcrossAlike cx s (cx.walker s.source c (r.shift + z)) (cx.walker s.source r.sample z) ∧
    AcrossAlike cx s (cx.walker s.source c (r.shift + z))
      (cx.walker s.source c (r.shift + z + r.period)) := by
  obtain ⟨v, hv, hcross, ⟨b, hb, hform⟩, ⟨b', hb', hform'⟩, -⟩ := h.compared hcx hs hc hr z
  exact ⟨⟨v, hv, hcross⟩, ⟨v, b, hcross, hb, hform⟩, ⟨v, b', hcross, hb', hform'⟩⟩

/-- Across edges of an examined cell that are congruent modulo the period, things look alike. -/
theorem Examined.across_modEq (hs : Sound cx s₀ s) (hc : cx.Reached s₀ s.source c)
    (hr : s.classes[cx.classOf s.source c]? = some r) (h : Examined cx s a c) {z z' : Int}
    (hz : z ≡ z' [ZMOD r.period]) : AcrossAlike cx s (cx.walker s.source c (r.shift + z))
      (cx.walker s.source c (r.shift + z')) := by
  refine equivalence_of_modEq (R := fun z z' => AcrossAlike cx s
    (cx.walker s.source c (r.shift + z)) (cx.walker s.source c (r.shift + z')))
    ⟨fun z => ?_, AcrossAlike.symm, AcrossAlike.trans⟩ (fun z => ?_) hz
  · obtain ⟨-, hsample, -⟩ := h.across hcx hs hc hr z
    exact hsample.trans hsample.symm
  · rw [← add_assoc]
    exact (h.across hcx hs hc hr z).2.2

/-- **Canonical forms are kept by crossing.** -/
theorem SameForm.across (hs : Sound cx s₀ s) (hw : cx.Reached s₀ s.source w.cell)
    (hw' : cx.Reached s₀ s.source w'.cell) (hstand : cx.Stands s.source w)
    (hstand' : cx.Stands s.source w') (hx : Examined cx s a w.cell) (hx' : Examined cx s a w'.cell)
    (h : SameForm cx s w w') : AcrossAlike cx s w w' := by
  obtain ⟨r, r', hr, hr', htarget, hresidue⟩ := h
  obtain ⟨hsample, hperiod⟩ := hs.records.agree _ _ _ _ hr hr' htarget
  have hz := (ClassRecord.residue_eq_iff (hs.records.record _ r hr).period_pos hperiod).mp hresidue
  have hperiods := hx.across_modEq hcx hs hw hr hz
  obtain ⟨-, hdown, -⟩ := hx.across hcx hs hw hr (w'.spin - r'.shift)
  obtain ⟨-, hup, -⟩ := hx'.across hcx hs hw' hr' (w'.spin - r'.shift)
  rw [add_sub_cancel, hstand.eq_walker] at hperiods
  rw [add_sub_cancel, hstand'.eq_walker, ← hsample] at hup
  exact (hperiods.trans hdown).trans hup.symm

/-- Across the edges of the listed cells lie listed cells. -/
theorem exists_crosses (hs : Sound cx s₀ s) (hagenda : Listed cx s₀ s.source a)
    (hx : ∀ c ∈ a.cells, Examined cx s a c) (hw : cx.On s.source (· ∈ a.cells) w) :
    ∃ v, cx.Crosses s.source w v ∧ v.cell ∈ a.cells := by
  obtain ⟨r, hr, -⟩ := hx w.cell hw.1
  obtain ⟨⟨v, hv, hcross⟩, -⟩ := (hx w.cell hw.1).across hcx hs (hagenda.reached _ hw.1) hr
    (w.spin - r.shift)
  rw [add_sub_cancel, hw.2.eq_walker] at hcross
  exact ⟨v, hcross, hv⟩

theorem listed_closed (hs : Sound cx s₀ s) (hagenda : Listed cx s₀ s.source a)
    (hx : ∀ c ∈ a.cells, Examined cx s a c) : cx.Closed s₀ s.source (· ∈ a.cells) where
  start := hagenda.start
  crosses w v hw hv := by
    obtain ⟨v', hv', hmem⟩ := exists_crosses hcx hs hagenda hx hw
    exact hv.unique hv' ▸ hmem

theorem sameForm_isCongruence (hs : Sound cx s₀ s) (hagenda : Listed cx s₀ s.source a)
    (hx : ∀ c ∈ a.cells, Examined cx s a c) :
    cx.IsCongruence s.source (· ∈ a.cells) (SameForm cx s) where
  refl w hw := by
    obtain ⟨r, hr, -⟩ := hx w.cell hw.1
    exact ⟨r, r, hr, hr, rfl, rfl⟩
  symm _ _ _ _ h := h.symm
  trans _ _ _ _ _ _ h h' := h.trans h'
  sameClass w w' hw hw' hclass hspin := by
    obtain ⟨r, hr, -⟩ := hx w.cell hw.1
    exact ⟨r, r, hr, hclass ▸ hr, rfl, by rw [hspin]⟩
  turn w w' hw hw' h :=
    h.turned hcx hs (hagenda.reached _ hw.1) (hagenda.reached _ hw'.1) 1
  cross w w' v v' hw hw' h hv hv' :=
    (h.across hcx hs (hagenda.reached _ hw.1) (hagenda.reached _ hw'.1) hw.2 hw'.2
      (hx _ hw.1) (hx _ hw'.1)).sameForm hv hv'

/-! ### The last pass -/

omit hcx

variable (cx) in
/-- The pass that ended an analysis: it began with the agenda and the budget `x` in `s₁`, after
passes that identified something, identified nothing itself, and ended with the agenda `a`. -/
def LastPass (budget : Nat) (s : Survey σ κ) (x : Agenda κ × Nat) (s₁ : Survey σ κ)
    (a : Agenda κ) (t : Survey σ κ) : Prop :=
  ∃ start s₂ s₃ rest, onSource cx.start s = .ok start s₂ ∧
    Rounds (round cx) (Agenda.ofCell start, budget) s₂ x s₃ ∧ s₁ = { s₃ with changes := 0 } ∧
    pass cx x.1 x.2 s₁ = .ok (a, rest) t ∧ t.changes = 0

/-- An analysis that answers has a last pass. -/
theorem analyse_ok {budget : Nat} {t : Survey σ κ} (h : analyse cx budget s = .ok () t) :
    ∃ x s₁ a, LastPass cx budget s x s₁ a t := by
  unfold analyse at h
  obtain ⟨start, s₂, hstart, h⟩ := bind_ok.mp h
  obtain ⟨x, s₃, hrounds, hround⟩ := descend_ok h
  obtain ⟨⟨a, rest⟩, hpass, hy⟩ := round_ok.mp hround
  split at hy
  · rename_i hchanges
    exact ⟨x, _, a, start, s₂, s₃, rest, hstart, hrounds, rfl, hpass, hchanges⟩
  · cases hy

variable [LawfulBEq κ] [LawfulHashable κ]

include hcx

/-- A pass keeps records sound and lists what is reached, and examines what it does not skip. -/
theorem pass_visited {x : Agenda κ × Nat} {rest : Nat} {t : Survey σ κ} (hs : Sound cx s₀ s)
    (hagenda : Listed cx s₀ s.source x.1) (h : pass cx x.1 x.2 s = .ok (a, rest) t) :
    Sound cx s₀ t ∧ Listed cx s₀ t.source a ∧
      (Unskipped cx ⟨0, Std.HashSet.emptyWithCapacity, x.1, x.2⟩ s → t.changes = s.changes →
        ∀ c ∈ a.cells, Examined cx t a c) := by
  obtain ⟨p, hrounds, rfl, hnone⟩ := pass_ok h
  have hvisited := Visited.rounds hcx hs hagenda rfl hrounds
  refine ⟨hvisited.sound, hvisited.listed, fun hskip hchanges c hc => ?_⟩
  obtain ⟨i, hi⟩ := Array.getElem?_of_mem hc
  have hlt := (Array.getElem?_eq_some_iff.mp hi).1
  exact hvisited.examined hskip hchanges i c
    (Nat.lt_of_lt_of_le hlt (Array.getElem?_eq_none_iff.mp hnone)) hi

theorem round_visited {x y : Agenda κ × Nat} {t : Survey σ κ}
    (hs : Sound cx s₀ s ∧ Listed cx s₀ s.source x.1) (h : round cx x s = .ok (.inl y) t) :
    Sound cx s₀ t ∧ Listed cx s₀ t.source y.1 := by
  obtain ⟨⟨a, rest⟩, hpass, hy⟩ := round_ok.mp h
  split at hy
  · cases hy
  · cases hy
    obtain ⟨ht, hagenda, -⟩ := pass_visited hcx (s := { s with changes := 0 })
      ⟨hs.1.reachable, hs.1.records⟩ hs.2 hpass
    exact ⟨ht, hagenda⟩

theorem LastPass.visited {budget : Nat} {x : Agenda κ × Nat} {s₁ t : Survey σ κ}
    (h : LastPass cx budget ⟨s₀, ∅, 0⟩ x s₁ a t) :
    Sound cx s₀ t ∧ Listed cx s₀ t.source a ∧
      (Unskipped cx ⟨0, Std.HashSet.emptyWithCapacity, x.1, x.2⟩ s₁ →
        ∀ c ∈ a.cells, Examined cx t a c) := by
  obtain ⟨start, s₂, s₃, rest, hstart, hrounds, rfl, hpass, hchanges⟩ := h
  obtain ⟨hs₂, hreached⟩ := Sound.start hcx hstart
  obtain ⟨hs₃, hagenda⟩ := hrounds.keeps
    (P := fun x s => Sound cx s₀ s ∧ Listed cx s₀ s.source x.1)
    (fun _ _ _ _ _ hs hround => round_visited hcx hs hround)
    ⟨hs₂, .ofCell (onSource_ok hstart).1 hreached⟩
  obtain ⟨ht, hlisted, hexamined⟩ := pass_visited hcx (s := { s₃ with changes := 0 })
    ⟨hs₃.reachable, hs₃.records⟩ hagenda hpass
  exact ⟨ht, hlisted, fun hskip => hexamined hskip hchanges⟩

/-- **Conversion identifies exactly what it must.**  After an analysis every congruence relates
walkers with the same canonical form, whatever the budget.  If the last pass passed over none of the
listed cells, walkers on these cells can cross their edges without leaving them, and having the same
canonical form is the least congruence of these walkers. -/
theorem sameForm_isLeastCongruence {budget : Nat} {t : Survey σ κ}
    (h : analyse cx budget ⟨s₀, ∅, 0⟩ = .ok () t) :
    (∀ C R, cx.Closed s₀ t.source C → cx.IsCongruence t.source C R →
      ∀ w w', cx.On t.source C w → cx.On t.source C w' → SameForm cx t w w' → R w w') ∧
    (∃ x s₁ a, LastPass cx budget ⟨s₀, ∅, 0⟩ x s₁ a t) ∧
    ∀ x s₁ a, LastPass cx budget ⟨s₀, ∅, 0⟩ x s₁ a t →
      Unskipped cx ⟨0, Std.HashSet.emptyWithCapacity, x.1, x.2⟩ s₁ →
      (∀ w, cx.On t.source (· ∈ a.cells) w → ∃ v, cx.Crosses t.source w v ∧ v.cell ∈ a.cells) ∧
      cx.IsCongruence t.source (· ∈ a.cells) (SameForm cx t) ∧
      ∀ R, cx.IsCongruence t.source (· ∈ a.cells) R → ∀ w w', cx.On t.source (· ∈ a.cells) w →
        cx.On t.source (· ∈ a.cells) w' → SameForm cx t w w' → R w w' := by
  obtain ⟨x, s₁, a, hlast⟩ := analyse_ok h
  have ht := (hlast.visited hcx).1
  refine ⟨fun C R hC hR w w' hw hw' => SameForm.related hcx ht hC hR hw hw', ⟨x, s₁, a, hlast⟩, ?_⟩
  intro x s₁ a hlast hskip
  obtain ⟨-, hlisted, hexamined⟩ := hlast.visited hcx
  have hx := hexamined hskip
  refine ⟨fun w hw => exists_crosses hcx ht hlisted hx hw,
    sameForm_isCongruence hcx ht hlisted hx, fun R hR w w' hw hw' => ?_⟩
  exact SameForm.related hcx ht (listed_closed hcx ht hlisted hx) hR hw hw'

end

/-- Two digons of one class in a row: each is glued to the other by one edge, and the other edge to
itself. -/
def folded : CellTable Float where
  geometry := .euclidean
  start := 0
  cells := #[⟨0, #[], #[some (0, 0), some (1, 0)]⟩, ⟨0, #[], #[some (0, 1), some (1, 1)]⟩]

namespace folded

/-- The records before the period is narrowed, and then. -/
def before : Classes Nat := (∅ : Classes Nat).insert 0 ⟨0, 0, 2, 0⟩

def after : Classes Nat := before.narrow 0 2 (-1)

/-- Both digons are listed. -/
def agenda : Agenda Nat := ⟨#[0, 1], (Std.HashSet.emptyWithCapacity.insert 0).insert 1⟩

/-- The one target is analysed. -/
def analysed : Std.HashSet Nat := Std.HashSet.emptyWithCapacity.insert 0

theorem examine_before (a : Agenda Nat) :
    examine folded.complex 0 ⟨0, 0, 2, 0⟩ a ⟨(), before, 0⟩ =
      .ok ((a.add 0).add 1) ⟨(), after, 1⟩ := rfl

theorem examine_after (a : Agenda Nat) {c n : Nat} (hc : c < 2) (hn : n < 2) :
    examine folded.complex c ⟨0, 0, 1, 0⟩ a ⟨(), after, n⟩ =
      .ok ((a.add 0).add 1) ⟨(), after, n⟩ := by
  match c, n with
  | 0, 0 => rfl
  | 0, 1 => rfl
  | 1, 0 => rfl
  | 1, 1 => rfl

theorem agenda_add : (agenda.add 0).add 1 = agenda := by
  simp [agenda, Agenda.add]

/-- The first digon, met for the first time. -/
theorem first_before :
    passStep folded.complex ⟨0, Std.HashSet.emptyWithCapacity, Agenda.ofCell 0, 2⟩ ⟨(), ∅, 0⟩ =
      .ok (.inl ⟨1, analysed, agenda, 2⟩) ⟨(), after, 1⟩ := by
  have hagenda : ((Agenda.ofCell 0).add 0).add 1 = agenda := by
    simp [agenda, Agenda.add, Agenda.ofCell]
  exact passStep_of_fresh (c := 0) (r := ⟨0, 0, 2, 0⟩) (t := ⟨(), before, 0⟩) rfl rfl (by simp)
    (hagenda ▸ examine_before _)

theorem first_after :
    passStep folded.complex ⟨0, Std.HashSet.emptyWithCapacity, agenda, 1⟩ ⟨(), after, 0⟩ =
      .ok (.inl ⟨1, analysed, agenda, 1⟩) ⟨(), after, 0⟩ := by
  have hx := examine_after agenda (c := 0) (n := 0) (by decide) (by decide)
  rw [agenda_add] at hx
  exact passStep_of_fresh (c := 0) (r := ⟨0, 0, 1, 0⟩) (t := ⟨(), after, 0⟩) rfl rfl (by simp) hx

theorem second {n b : Nat} (hn : n < 2) :
    passStep folded.complex ⟨1, analysed, agenda, b + 1⟩ ⟨(), after, n⟩ =
      .ok (.inl ⟨2, analysed, agenda, b⟩) ⟨(), after, n⟩ := by
  have hx := examine_after agenda (c := 1) (by decide) hn
  rw [agenda_add] at hx
  exact passStep_of_budget (c := 1) (r := ⟨0, 0, 1, 0⟩) (t := ⟨(), after, n⟩) rfl rfl
    (by simp [analysed]) rfl hx

theorem third {n b : Nat} : passStep folded.complex ⟨2, analysed, agenda, b⟩ ⟨(), after, n⟩ =
    .ok (.inr (agenda, b)) ⟨(), after, n⟩ := passStep_of_ended rfl

/-- The first pass narrows the period. -/
theorem round_before : round folded.complex (Agenda.ofCell 0, 2) ⟨(), ∅, 0⟩ =
    .ok (.inl (agenda, 1)) ⟨(), after, 1⟩ := by
  refine round_ok.mpr ⟨(agenda, 1), ?_, rfl⟩
  unfold pass
  rw [descend_of_inl first_before, descend_of_inl (second (by decide)), descend_of_inr third]
  · simp [Below, agenda]
  · simp [Below, agenda, Agenda.ofCell, analysed, Std.HashSet.size_insert]

/-- The second pass changes nothing. -/
theorem pass_after : pass folded.complex agenda 1 ⟨(), after, 0⟩ =
    .ok (agenda, 0) ⟨(), after, 0⟩ := by
  unfold pass
  rw [descend_of_inl first_after, descend_of_inl (second (by decide)), descend_of_inr third]
  · simp [Below, agenda]
  · simp [Below, agenda, analysed, Std.HashSet.size_insert]

theorem analysis : analyse folded.complex 2 ⟨(), ∅, 0⟩ = .ok () ⟨(), after, 0⟩ := by
  refine bind_ok.mpr ⟨0, ⟨(), ∅, 0⟩, rfl, ?_⟩
  rw [descend_of_inl round_before, descend_of_inr (round_ok.mpr ⟨_, pass_after, rfl⟩)]
  decide

theorem lastPass : LastPass folded.complex 2 ⟨(), ∅, 0⟩ (agenda, 1) ⟨(), after, 0⟩ agenda
    ⟨(), after, 0⟩ :=
  ⟨0, ⟨(), ∅, 0⟩, ⟨(), after, 1⟩, 0, rfl, .more .refl round_before, rfl, pass_after, rfl⟩

theorem unskipped : Unskipped folded.complex ⟨0, Std.HashSet.emptyWithCapacity, agenda, 1⟩
    ⟨(), after, 0⟩ := by
  rintro q t h ⟨c, r, u, hc, -, -, hb⟩
  rcases h.cases_head with ⟨rfl, rfl⟩ | ⟨_, _, hstep, h⟩
  · cases hb
  · rw [first_after] at hstep
    cases hstep
    rcases h.cases_head with ⟨rfl, rfl⟩ | ⟨_, _, hstep, h⟩
    · cases hb
    · rw [second (by decide)] at hstep
      cases hstep
      rcases h.cases_head with ⟨rfl, rfl⟩ | ⟨_, _, hstep, h⟩
      · cases hc
      · rw [third] at hstep
        cases hstep

end folded

/-- The two edges of a folded digon have to look alike, and their canonical forms say so. -/
theorem folded_sameForm : folded.complex.Lawful () ∧
    SameForm folded.complex ⟨(), folded.after, 0⟩ ⟨0, 0⟩ ⟨0, 1⟩ ∧
    (∀ R, folded.complex.IsCongruence () (fun _ => True) R → R ⟨0, 0⟩ ⟨0, 1⟩) ∧
    folded.complex.IsCongruence () (· ∈ folded.agenda.cells)
      (SameForm folded.complex ⟨(), folded.after, 0⟩) := by
  have hcx : folded.complex.Lawful () := CellTable.complex_lawful (by decide)
  have hform : SameForm folded.complex ⟨(), folded.after, 0⟩ ⟨0, 0⟩ ⟨0, 1⟩ :=
    ⟨⟨0, 0, 1, 0⟩, ⟨0, 0, 1, 0⟩, rfl, rfl, rfl, rfl⟩
  obtain ⟨hrelated, -, hleast⟩ := sameForm_isLeastCongruence hcx folded.analysis
  obtain ⟨-, hcongruence, -⟩ := hleast _ _ _ folded.lastPass folded.unskipped
  refine ⟨hcx, hform, fun R hR => ?_, hcongruence⟩
  exact hrelated _ R ⟨fun _ _ _ => trivial, fun _ _ _ _ => trivial⟩ hR _ _
    ⟨trivial, Nat.zero_lt_two⟩ ⟨trivial, Nat.one_lt_two⟩ hform

end Mosaic.Surveying
