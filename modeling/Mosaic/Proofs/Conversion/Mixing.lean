import Mosaic.Proofs.Conversion.Reversal

/-!
# Conversion — classes that become one shape

Cells of different classes are never to become the same shape.  Each class that an analysis has met
is represented by one shape, so the promise is that no two classes are mixed, that is, represented
by the same shape (`Classes.Unmixed`).

The analysis breaks it.  Identifying two walkers compares the degrees of their cells but not the
classes, and where cells of one class have neighbours of two classes across the same edge, these are
identified, however they differ: a rectangle can be lost to a square (`Surveying.ring_mixed`).

The promise is kept if some congruence keeps the classes of cells apart (`CellComplex.Separates`),
since classes are mixed only if every congruence relates cells of theirs.  In particular it is kept
if cells of one class have neighbours of one class (`CellComplex.Uniform`), and when no listed cell
has been passed over the condition is exact (`Surveying.convert_mixes_only_forced`).
-/

namespace Mosaic

namespace Classes

variable {κ : Type} {cs : Classes κ} {settings : Settings} {k k' i : Nat} {r r' : ClassRecord κ}

/-- The number of the shape that represents the cells of a class. -/
def shapeNumber? (cs : Classes κ) (settings : Settings) (k : Nat) : Option Nat :=
  (cs[k]?).bind fun r => (cs.order settings).idxOf? r.target

/-- No shape represents cells of two classes. -/
def Unmixed (cs : Classes κ) (settings : Settings) : Prop :=
  ∀ k k' i, cs.shapeNumber? settings k = some i → cs.shapeNumber? settings k' = some i → k = k'

/-- Targets are recorded, and are their own targets. -/
def Anchored (cs : Classes κ) : Prop :=
  ∀ (k : Nat) (r : ClassRecord κ), cs[k]? = some r → r.target ∈ cs.masters

theorem shapeNumber?_eq_some : cs.shapeNumber? settings k = some i ↔
    ∃ r, cs[k]? = some r ∧ (cs.order settings).idxOf? r.target = some i :=
  Option.bind_eq_some_iff

theorem mem_order_iff : k ∈ cs.order settings ↔ k ∈ cs.masters :=
  mem_order.trans mem_masters.symm

theorem length_order : (cs.order settings).length = cs.masters.length := by
  rw [order]
  split
  · exact List.length_reverse
  · rfl

/-- Classes that are represented by the same shape have the same target. -/
theorem target_eq_of_shapeNumber? (h : cs.shapeNumber? settings k = some i)
    (h' : cs.shapeNumber? settings k' = some i) :
    ∃ r r', cs[k]? = some r ∧ cs[k']? = some r' ∧ r.target = r'.target := by
  obtain ⟨r, hr, hi⟩ := shapeNumber?_eq_some.mp h
  obtain ⟨r', hr', hi'⟩ := shapeNumber?_eq_some.mp h'
  obtain ⟨_, htarget, -⟩ := List.idxOf?_eq_some_iff.mp hi
  obtain ⟨_, htarget', -⟩ := List.idxOf?_eq_some_iff.mp hi'
  exact ⟨r, r', hr, hr', htarget.symm.trans htarget'⟩

theorem Anchored.exists_shapeNumber? (h : cs.Anchored) (settings : Settings)
    (hr : cs[k]? = some r) : ∃ i < (cs.order settings).length,
      (cs.order settings).idxOf? r.target = some i ∧ cs.shapeNumber? settings k = some i := by
  have hmem : r.target ∈ cs.order settings := mem_order_iff.mpr (h k r hr)
  obtain ⟨i, hi⟩ := Option.isSome_iff_exists.mp (List.isSome_idxOf?.mpr hmem)
  exact ⟨i, (List.idxOf?_eq_some_iff.mp hi).1, hi, shapeNumber?_eq_some.mpr ⟨r, hr, hi⟩⟩

/-- A shape represents the class that it is made of. -/
theorem exists_of_lt_order (hi : i < (cs.order settings).length) :
    ∃ k, cs.shapeNumber? settings k = some i := by
  obtain ⟨r, hr, htarget⟩ := mem_order.mp (List.getElem_mem hi)
  refine ⟨(cs.order settings)[i], shapeNumber?_eq_some.mpr ⟨r, hr, ?_⟩⟩
  rw [htarget]
  refine List.idxOf?_eq_some_iff.mpr ⟨hi, rfl, fun j hj heq => ?_⟩
  exact absurd (order_nodup.getElem_inj_iff.mp heq) (Nat.ne_of_lt hj)

/-- Classes are not mixed when each is its own target. -/
theorem Anchored.unmixed_iff (h : cs.Anchored) : cs.Unmixed settings ↔
    ∀ (k : Nat) (r : ClassRecord κ), cs[k]? = some r → r.target = k := by
  constructor
  · intro hunmixed k r hr
    obtain ⟨R, hR, htarget⟩ := mem_masters.mp (h k r hr)
    obtain ⟨i, -, hi, hk⟩ := h.exists_shapeNumber? settings hr
    refine hunmixed _ _ i (shapeNumber?_eq_some.mpr ⟨R, hR, ?_⟩) hk
    rw [htarget, hi]
  · intro hown k k' i hk hk'
    obtain ⟨r, r', hr, hr', htarget⟩ := target_eq_of_shapeNumber? hk hk'
    rw [← hown k r hr, htarget, hown k' r' hr']

/-- There are as many targets as classes when each class is its own target. -/
theorem length_masters_eq_iff : cs.masters.length = cs.size ↔
    ∀ (k : Nat) (r : ClassRecord κ), cs[k]? = some r → r.target = k := by
  have hfilter : cs.masters.length =
      (cs.toList.filter fun x : Nat × ClassRecord κ => x.1 = x.2.target).length := by
    rw [masters]
    induction cs.toList with
    | nil => rfl
    | cons x l ih => by_cases hx : x.1 = x.2.target <;> simp [hx, ih]
  rw [hfilter, ← Std.TreeMap.length_toList, List.length_filter_eq_length_iff]
  constructor
  · intro hown k r hr
    have hx := hown (k, r) (Std.TreeMap.mem_toList_iff_getElem?_eq_some.mpr hr)
    exact (of_decide_eq_true hx).symm
  · rintro hown ⟨k, r⟩ hr
    exact decide_eq_true (hown k r (Std.TreeMap.mem_toList_iff_getElem?_eq_some.mp hr)).symm

/-- There are as many shapes as classes when classes are not mixed. -/
theorem Anchored.length_order_eq_iff (h : cs.Anchored) :
    (cs.order settings).length = cs.size ↔ cs.Unmixed settings := by
  rw [length_order, length_masters_eq_iff, h.unmixed_iff]

end Classes

namespace CellComplex

variable {α σ κ : Type} (cx : CellComplex α σ κ)

/-- Walkers that are related are in cells of one class. -/
def Separates (s : σ) (C : κ → Prop) (R : Walker κ → Walker κ → Prop) : Prop :=
  ∀ w w', cx.On s C w → cx.On s C w' → R w w' → cx.classOf s w.cell = cx.classOf s w'.cell

/-- Across each edge, cells of one class have neighbours of one class, entered by the same edge. -/
def Uniform (s : σ) : Prop := ∀ w w' v v', cx.Crosses s w v → cx.Crosses s w' v' →
  cx.classOf s w.cell = cx.classOf s w'.cell → w.spin = w'.spin →
    cx.classOf s v.cell = cx.classOf s v'.cell ∧ v.spin = v'.spin

variable {cx} {s₀ s : σ}

/-- In a uniform complex, looking in the same direction from cells of one class is a congruence. -/
theorem Uniform.isCongruence (hcx : cx.Lawful s₀) (hs : cx.Reachable s₀ s) (h : cx.Uniform s)
    (C : κ → Prop) : cx.IsCongruence s C fun w w' =>
      cx.classOf s w.cell = cx.classOf s w'.cell ∧ w.spin = w'.spin where
  refl _ _ := ⟨rfl, rfl⟩
  symm _ _ _ _ hw := ⟨hw.1.symm, hw.2.symm⟩
  trans _ _ _ _ _ _ hw hw' := ⟨hw.1.trans hw'.1, hw.2.trans hw'.2⟩
  sameClass _ _ _ _ hclass hspin := ⟨hclass, hspin⟩
  turn w w' hw hw' hrelated := by
    refine ⟨hrelated.1, ?_⟩
    rw [turned, turned, walker, walker, hrelated.2,
      hcx.degree_eq hs hw.2.pos hw'.2.pos hrelated.1]
  cross w w' v v' _ _ hrelated hv hv' := h w w' v v' hv hv' hrelated.1 hrelated.2

end CellComplex

namespace Surveying

variable {α σ κ : Type} {cx : CellComplex α σ κ} {s₀ : σ} {s : Survey σ κ} {settings : Settings}
  {c c' : κ} {i : Nat}

theorem Rooted.anchored (hs : Rooted cx s₀ s) : s.classes.Anchored := by
  intro k r hr
  obtain ⟨R, hR, htarget, -⟩ := hs.root hr
  exact Classes.mem_masters.mpr ⟨R, hR, htarget⟩

/-- Every class that is its own target becomes a shape. -/
theorem emit_size [Scalar α] {t : Tiling α} {u : Survey σ κ} (h : emit cx settings s = .ok t u) :
    t.shapes.size = (s.classes.order settings).length := by
  obtain ⟨shapes, hmap, rfl⟩ := exists_shapes_of_emit h
  obtain ⟨-, hall⟩ := mapM_ok (P := fun _ => True) (Q := fun _ _ => True)
    (fun _ _ _ _ _ _ _ => ⟨trivial, trivial⟩) trivial hmap
  rw [List.size_toArray, ← hall.length_eq, List.length_zipIdx]

/-- Cells whose classes have the same target look alike, turned by as much as their shifts say. -/
theorem Sound.sameForm_of_target (hcx : cx.Lawful s₀) (hs : Sound cx s₀ s) {r r' : ClassRecord κ}
    (hc : 0 < cx.degree s.source c) (hc' : 0 < cx.degree s.source c')
    (hr : s.classes[cx.classOf s.source c]? = some r)
    (hr' : s.classes[cx.classOf s.source c']? = some r') (htarget : r.target = r'.target) :
    SameForm cx s (cx.walker s.source c 0)
      (cx.walker s.source c' ((r'.shift : Int) - r.shift)) := by
  obtain ⟨-, hperiod⟩ := hs.records.agree _ _ _ _ hr hr' htarget
  have hspin {c : κ} {r : ClassRecord κ} (hc : 0 < cx.degree s.source c)
      (hr : s.classes[cx.classOf s.source c]? = some r) (z : Int) :
      ((cx.walker s.source c z).spin : Int) ≡ z [ZMOD r.period] := by
    have hrecord := hs.records.record _ r hr
    obtain ⟨d, hd, hclass, -, -⟩ := hrecord.looks
    have hdegree := (hrecord.looks.of_class hcx hs.reachable hd hclass).1
    have hdvd := hrecord.period_dvd
    rw [← hdegree, hcx.degree_eq hs.reachable hd.pos hc hclass] at hdvd
    exact (CellComplex.walker_spin_modEq hc z).of_dvd (Int.natCast_dvd_natCast.mpr hdvd)
  refine ⟨r, r', hr, hr', htarget, ?_⟩
  rw [ClassRecord.residue_eq_iff (hs.records.record _ r hr).period_pos hperiod]
  calc ((cx.walker s.source c 0).spin : Int) - r.shift
      ≡ 0 - r.shift [ZMOD r.period] := (hspin hc hr 0).sub_right _
    _ = r'.shift - r.shift - r'.shift := by ring
    _ ≡ (cx.walker s.source c' ((r'.shift : Int) - r.shift)).spin - r'.shift [ZMOD r.period] :=
        hperiod ▸ (hspin hc' hr' _).symm.sub_right _

/-- Classes that are represented by the same shape have cells that every congruence relates. -/
theorem Sound.related_of_shapeNumber? (hcx : cx.Lawful s₀) (hs : Sound cx s₀ s) {C : κ → Prop}
    {R : Walker κ → Walker κ → Prop} (hC : cx.Closed s₀ s.source C)
    (hR : cx.IsCongruence s.source C R) (hc : C c) (hc' : C c') (hpos : 0 < cx.degree s.source c)
    (hpos' : 0 < cx.degree s.source c')
    (h : s.classes.shapeNumber? settings (cx.classOf s.source c) = some i)
    (h' : s.classes.shapeNumber? settings (cx.classOf s.source c') = some i) :
    ∃ d, R (cx.walker s.source c 0) (cx.walker s.source c' d) := by
  obtain ⟨r, r', hr, hr', htarget⟩ := Classes.target_eq_of_shapeNumber? h h'
  exact ⟨_, SameForm.related hcx hs hC hR (.walker hc hpos 0) (.walker hc' hpos' _)
    (hs.sameForm_of_target hcx hpos hpos' hr hr' htarget)⟩

/-- Classes are not mixed if some congruence keeps them apart. -/
theorem Sound.unmixed (hcx : cx.Lawful s₀) (hs : Sound cx s₀ s) {C : κ → Prop}
    {R : Walker κ → Walker κ → Prop} (hC : cx.Closed s₀ s.source C)
    (hR : cx.IsCongruence s.source C R) (hapart : cx.Separates s.source C R) :
    s.classes.Unmixed settings := by
  intro k k' i h h'
  -- Of each class a cell has been reached.
  have hmet {k : Nat} (h : s.classes.shapeNumber? settings k = some i) :
      ∃ c, C c ∧ 0 < cx.degree s.source c ∧ cx.classOf s.source c = k := by
    obtain ⟨r, hr, -⟩ := Classes.shapeNumber?_eq_some.mp h
    obtain ⟨c, hc, hclass, -⟩ := (hs.records.record _ r hr).looks
    exact ⟨c, hc.2 _ (.refl _) C hC, hc.pos, hclass⟩
  obtain ⟨c, hc, hpos, rfl⟩ := hmet h
  obtain ⟨c', hc', hpos', rfl⟩ := hmet h'
  obtain ⟨d, hd⟩ := hs.related_of_shapeNumber? hcx hC hR hc hc' hpos hpos' h h'
  exact hapart _ _ (.walker hc hpos 0) (.walker hc' hpos' d) hd

/-- Canonical forms keep classes apart that are not mixed. -/
theorem separates_of_unmixed (hs : s.classes.Anchored) (h : s.classes.Unmixed settings)
    (C : κ → Prop) : cx.Separates s.source C (SameForm cx s) := by
  rintro w w' - - ⟨r, r', hr, hr', htarget, -⟩
  rw [hs.unmixed_iff] at h
  rw [← h _ r hr, htarget, h _ r' hr']

/-- A first cell without edges is the only one of the only class. -/
theorem isolated_getElem? {x : κ} {s₁ : σ} {k : Nat} {r : ClassRecord κ}
    (hr : (isolated cx x s₁).classes[k]? = some r) : k = cx.classOf s₁ x ∧ r.target = k := by
  rcases Classes.insert_cases hr with ⟨rfl, rfl⟩ | hr
  · exact ⟨rfl, rfl⟩
  · simp at hr

theorem isolated_anchored {x : κ} {s₁ : σ} : (isolated cx x s₁).classes.Anchored := by
  intro k r hr
  rw [masters_isolated, (isolated_getElem? hr).2, (isolated_getElem? hr).1]
  exact List.mem_singleton_self _

variable [Scalar α] [BEq κ] [Hashable κ] {t : Tiling α} {v : σ}

omit [Scalar α] in
/-- An analysis ends with the first cell, which has no edges, or begins in a lawful complex. -/
theorem analyse_cases [LawfulBEq κ] [LawfulHashable κ] {b : Nat} {u : Unit}
    (hcx : (∀ {c s}, cx.start s₀ = .ok c s → 0 < cx.degree s c) → cx.Lawful s₀)
    (h : analyse cx b ⟨s₀, ∅, 0⟩ = .ok u s) : ∃ x s₁, cx.start s₀ = .ok x s₁ ∧
      ((cx.degree s₁ x = 0 ∧ s = isolated cx x s₁) ∨ (0 < cx.degree s₁ x ∧ cx.Lawful s₀)) := by
  obtain ⟨x, t, hstart, -⟩ := bind_ok.mp h
  have hstart := (onSource_ok hstart).1
  refine ⟨x, t.source, hstart, ?_⟩
  cases Nat.eq_zero_or_pos (cx.degree t.source x) with
  | inl hx =>
      obtain ⟨-, hs⟩ := EStateM.Result.ok.inj ((analyse_isolated hstart hx _).symm.trans h)
      exact .inl ⟨hx, hs.symm⟩
  | inr hx =>
      refine .inr ⟨hx, hcx fun hstart' => ?_⟩
      obtain ⟨rfl, rfl⟩ := EStateM.Result.ok.inj (hstart.symm.trans hstart')
      exact hx

/-- **When classes are kept apart.**  When a conversion without minimisation succeeds, whatever the
budget, each class that has been met is represented by a shape and each shape represents a class, so
there are as many shapes as classes exactly if no classes are mixed.  Two classes are represented by
the same shape only if every congruence relates cells of theirs; so no classes are mixed if some
congruence keeps them apart, in particular if cells of one class have neighbours of one class across
each edge.  If the last pass has passed over no listed cell, classes are not mixed exactly if some
congruence of the listed cells keeps them apart. -/
theorem convert_mixes_only_forced [LawfulBEq κ] [LawfulHashable κ]
    (hcx : (∀ {c s}, cx.start s₀ = .ok c s → 0 < cx.degree s c) → cx.Lawful s₀)
    (h : cx.convert { settings with minimise := false } s₀ = .ok t v) :
    ∃ s, analyse cx settings.allowance ⟨s₀, ∅, 0⟩ = .ok () s ∧
      (∀ k, (s.classes[k]?).isSome →
        ∃ i < t.shapes.size, s.classes.shapeNumber? settings k = some i) ∧
      (∀ i < t.shapes.size, ∃ k, s.classes.shapeNumber? settings k = some i) ∧
      (t.shapes.size = s.classes.size ↔ s.classes.Unmixed settings) ∧
      (∀ C R, cx.Closed s₀ s.source C → cx.IsCongruence s.source C R →
        ∀ c c' i, C c → C c' → 0 < cx.degree s.source c → 0 < cx.degree s.source c' →
          s.classes.shapeNumber? settings (cx.classOf s.source c) = some i →
          s.classes.shapeNumber? settings (cx.classOf s.source c') = some i →
            ∃ d, R (cx.walker s.source c 0) (cx.walker s.source c' d)) ∧
      (∀ C R, cx.Closed s₀ s.source C → cx.IsCongruence s.source C R →
        cx.Separates s.source C R → s.classes.Unmixed settings) ∧
      (cx.Uniform s.source → s.classes.Unmixed settings) ∧
      (cx.Lawful s₀ → ∀ x s₁ a, LastPass cx settings.allowance ⟨s₀, ∅, 0⟩ x s₁ a s →
        Unskipped cx ⟨0, Std.HashSet.emptyWithCapacity, x.1, x.2⟩ s₁ →
          (s.classes.Unmixed settings ↔ ∃ R, cx.IsCongruence s.source (· ∈ a.cells) R ∧
            cx.Separates s.source (· ∈ a.cells) R)) := by
  obtain ⟨s, u, t₀, hanalysis, hemit, hvalence⟩ := convert_ok rfl h
  have hsize : t.shapes.size = (s.classes.order settings).length :=
    (Tiling.analyseValence_annotates hvalence).size_eq.trans (emit_size hemit)
  obtain ⟨x, s₂, hstart, hcase⟩ := analyse_cases hcx hanalysis
  have hanchored : s.classes.Anchored := by
    rcases hcase with ⟨-, rfl⟩ | ⟨-, hcx⟩
    · exact isolated_anchored
    · exact (Rooted.analyse hcx hanalysis).anchored
  refine ⟨s, hanalysis, fun k hk => ?_, fun i hi => ?_, hsize ▸ hanchored.length_order_eq_iff, ?_⟩
  · obtain ⟨r, hr⟩ := Option.isSome_iff_exists.mp hk
    obtain ⟨i, hi, -, hnumber⟩ := hanchored.exists_shapeNumber? settings hr
    exact ⟨i, hsize ▸ hi, hnumber⟩
  · exact Classes.exists_of_lt_order (hsize ▸ hi)
  rcases hcase with ⟨hx, rfl⟩ | ⟨-, hcx⟩
  · -- Only the first cell has been met.
    have hunmixed : (isolated cx x s₂).classes.Unmixed settings :=
      hanchored.unmixed_iff.mpr fun k r hr => (isolated_getElem? hr).2
    refine ⟨fun C R _ hR c c' i hc hc' hpos hpos' hi hi' => ⟨0, ?_⟩, fun _ _ _ _ _ => hunmixed,
      fun _ => hunmixed, fun hcx => ?_⟩
    · have hclass := hunmixed _ _ i hi hi'
      refine hR.sameClass _ _ (.walker hc hpos 0) (.walker hc' hpos' 0) hclass ?_
      simp [CellComplex.walker, cyclicIndex, gmod]
    · exact absurd (hcx.start_pos hstart) (Nat.not_lt.mpr (Nat.le_of_eq hx))
  · obtain ⟨_, _, _, hlast⟩ := analyse_ok hanalysis
    have hs := (hlast.visited hcx).1
    refine ⟨fun C R hC hR c c' i hc hc' hpos hpos' => ?_, fun C R hC hR => hs.unmixed hcx hC hR,
      fun huniform => ?_, fun _ x s₁ a hlast hskip => ?_⟩
    · exact hs.related_of_shapeNumber? hcx hC hR hc hc' hpos hpos'
    · have hC : cx.Closed s₀ s.source fun _ => True :=
        ⟨fun _ _ _ => trivial, fun _ _ _ _ => trivial⟩
      exact hs.unmixed hcx hC (huniform.isCongruence hcx hs.reachable _) fun _ _ _ _ hw => hw.1
    · obtain ⟨-, hlisted, hexamined⟩ := hlast.visited hcx
      have hx := hexamined hskip
      constructor
      · intro hunmixed
        exact ⟨_, sameForm_isCongruence hcx hs hlisted hx,
          separates_of_unmixed hanchored hunmixed _⟩
      · rintro ⟨R, hR, hapart⟩
        exact hs.unmixed hcx (listed_closed hcx hs hlisted hx) hR hapart

/-! ### Squares and a rectangle in a ring -/

/-- A ring of two unit squares of one class and a rectangle twice as wide of another class, glued
side by side.  One square has a square to its right, the other one the rectangle. -/
def ring : CellTable Whole where
  geometry := .euclidean
  start := 0
  cells := #[⟨0, square, #[some (0, 2), some (1, 3), some (0, 0), some (2, 1)]⟩,
    ⟨0, square, #[some (1, 2), some (2, 3), some (1, 0), some (0, 1)]⟩,
    ⟨1, #[⟨0, 0, 1⟩, ⟨2, 0, 1⟩, ⟨2, 1, 1⟩, ⟨0, 1, 1⟩],
      #[some (2, 2), some (0, 3), some (2, 0), some (1, 1)]⟩]

namespace ring

/-- The records once the rectangle has been taken for a square. -/
def mixed : Classes Nat := (oneClass 4).insert 1 ⟨0, 0, 4, 0⟩

/-- All cells are listed. -/
def agenda : Agenda Nat :=
  ⟨#[0, 1, 2], ((Std.HashSet.emptyWithCapacity.insert 0).insert 1).insert 2⟩

/-- The one target is analysed. -/
def analysed : Std.HashSet Nat := Std.HashSet.emptyWithCapacity.insert 0

theorem examine_first (a : Agenda Nat) :
    examine ring.complex 0 ⟨0, 0, 4, 0⟩ a ⟨(), oneClass 4, 0⟩ =
      .ok ([0, 1, 0, 2].foldl Agenda.add a) ⟨(), mixed, 1⟩ := by
  simp only [List.foldl_cons, List.foldl_nil]
  rfl

theorem foldl_add_agenda {l : List Nat} (hl : ∀ x ∈ l, x < 3) :
    l.foldl Agenda.add agenda = agenda := by
  induction l with
  | nil => rfl
  | cons x l ih =>
      have hx : agenda.add x = agenda := by
        match x, hl x List.mem_cons_self with
        | 0, _ => simp [agenda, Agenda.add]
        | 1, _ => simp [agenda, Agenda.add]
        | 2, _ => simp [agenda, Agenda.add]
      rw [List.foldl_cons, hx]
      exact ih fun y hy => hl y (List.mem_cons_of_mem x hy)

theorem examine_mixed (a : Agenda Nat) {n : Nat} (hn : n < 2) :
    examine ring.complex 0 ⟨0, 0, 4, 0⟩ a ⟨(), mixed, n⟩ =
        .ok ([0, 1, 0, 2].foldl Agenda.add a) ⟨(), mixed, n⟩ ∧
      examine ring.complex 1 ⟨0, 0, 4, 0⟩ a ⟨(), mixed, n⟩ =
        .ok ([1, 2, 1, 0].foldl Agenda.add a) ⟨(), mixed, n⟩ ∧
      examine ring.complex 2 ⟨0, 0, 4, 0⟩ a ⟨(), mixed, n⟩ =
        .ok ([2, 0, 2, 1].foldl Agenda.add a) ⟨(), mixed, n⟩ := by
  simp only [List.foldl_cons, List.foldl_nil]
  match n, hn with
  | 0, _ => exact ⟨rfl, rfl, rfl⟩
  | 1, _ => exact ⟨rfl, rfl, rfl⟩

/-- Nothing else is identified, and nothing else is listed. -/
theorem examine_again {c n : Nat} (hc : c < 3) (hn : n < 2) :
    examine ring.complex c ⟨0, 0, 4, 0⟩ agenda ⟨(), mixed, n⟩ = .ok agenda ⟨(), mixed, n⟩ := by
  obtain ⟨h₀, h₁, h₂⟩ := examine_mixed agenda hn
  rw [foldl_add_agenda (by decide)] at h₀ h₁ h₂
  match c, hc with
  | 0, _ => exact h₀
  | 1, _ => exact h₁
  | 2, _ => exact h₂

theorem first_step {b : Nat} :
    passStep ring.complex ⟨0, Std.HashSet.emptyWithCapacity, .ofCell 0, b⟩ ⟨(), ∅, 0⟩ =
      .ok (.inl ⟨1, analysed, agenda, b⟩) ⟨(), mixed, 1⟩ := by
  have hagenda : [0, 1, 0, 2].foldl Agenda.add (.ofCell 0) = agenda := by
    simp [agenda, Agenda.add, Agenda.ofCell]
  exact passStep_of_fresh (c := 0) (r := ⟨0, 0, 4, 0⟩) (t := ⟨(), oneClass 4, 0⟩) rfl rfl (by simp)
    (hagenda ▸ examine_first _)

theorem fresh_step {b : Nat} :
    passStep ring.complex ⟨0, Std.HashSet.emptyWithCapacity, agenda, b⟩ ⟨(), mixed, 0⟩ =
      .ok (.inl ⟨1, analysed, agenda, b⟩) ⟨(), mixed, 0⟩ :=
  passStep_of_fresh (c := 0) (r := ⟨0, 0, 4, 0⟩) (t := ⟨(), mixed, 0⟩) rfl rfl (by simp)
    (examine_again (by decide) (by decide))

/-- The other cells, while the budget lasts. -/
theorem next_step {c n b : Nat} (hc : 0 < c ∧ c < 3) (hn : n < 2) :
    passStep ring.complex ⟨c, analysed, agenda, b + 1⟩ ⟨(), mixed, n⟩ =
      .ok (.inl ⟨c + 1, analysed, agenda, b⟩) ⟨(), mixed, n⟩ := by
  have hcell : agenda.cells[c]? = some c := by
    match c, hc with
    | 1, _ => rfl
    | 2, _ => rfl
  have hrecord : record ring.complex c ⟨(), mixed, n⟩ = .ok ⟨0, 0, 4, 0⟩ ⟨(), mixed, n⟩ := by
    match c, hc with
    | 1, _ => rfl
    | 2, _ => rfl
  exact passStep_of_budget hcell hrecord (by simp [analysed]) rfl (examine_again hc.2 hn)

theorem last_step {n b : Nat} : passStep ring.complex ⟨3, analysed, agenda, b⟩ ⟨(), mixed, n⟩ =
    .ok (.inr (agenda, b)) ⟨(), mixed, n⟩ := passStep_of_ended rfl

/-- The first pass mixes the classes. -/
theorem first_round {b : Nat} : round ring.complex (Agenda.ofCell 0, b + 2) ⟨(), ∅, 0⟩ =
    .ok (.inl (agenda, b)) ⟨(), mixed, 1⟩ := by
  refine round_ok.mpr ⟨(agenda, b), ?_, rfl⟩
  unfold pass
  rw [descend_of_inl first_step, descend_of_inl (next_step (by decide) (by decide)),
    descend_of_inl (next_step (by decide) (by decide)), descend_of_inr last_step]
  · simp [Below, agenda]
  · simp [Below, agenda]
  · simp [Below, agenda, Agenda.ofCell, analysed, Std.HashSet.size_insert]

/-- The second pass changes nothing. -/
theorem second_pass {b : Nat} : pass ring.complex agenda (b + 2) ⟨(), mixed, 0⟩ =
    .ok (agenda, b) ⟨(), mixed, 0⟩ := by
  unfold pass
  rw [descend_of_inl fresh_step, descend_of_inl (next_step (by decide) (by decide)),
    descend_of_inl (next_step (by decide) (by decide)), descend_of_inr last_step]
  · simp [Below, agenda]
  · simp [Below, agenda]
  · simp [Below, agenda, analysed, Std.HashSet.size_insert]

theorem analysis (b : Nat) :
    analyse ring.complex (b + 4) ⟨(), ∅, 0⟩ = .ok () ⟨(), mixed, 0⟩ := by
  refine bind_ok.mpr ⟨0, ⟨(), ∅, 0⟩, rfl, ?_⟩
  rw [descend_of_inl first_round, descend_of_inr (round_ok.mpr ⟨_, second_pass, rfl⟩)]
  decide

/-- The tiling of the ring: a single square. -/
def tiling : Tiling Whole :=
  left (Tiling.analyseValence (emitted ring.complex Settings.default ⟨(), mixed, 0⟩))

theorem conversion : ring.complex.convert Settings.default () = .ok tiling () := by
  obtain ⟨⟨⟩, h⟩ : ∃ v, ring.complex.convert Settings.default () = .ok tiling v :=
    convert_of_answer Settings.default (analysis 996) rfl (by decide +kernel) (by decide +kernel)
  exact h

end ring

/-- **The promise is broken.**  The square to the right of one square is compared with the rectangle
to the right of the other, and both have four edges.  So they are identified although their classes
differ: the conversion succeeds with one shape for two classes, and the rectangle is lost. -/
theorem ring_mixed : ring.complex.Lawful () ∧ ring.complex.Involutive () ∧
    ring.complex.classOf () 0 ≠ ring.complex.classOf () 2 ∧
    analyse ring.complex Settings.default.allowance ⟨(), ∅, 0⟩ = .ok () ⟨(), ring.mixed, 0⟩ ∧
    ring.complex.convert Settings.default () = .ok ring.tiling () ∧
    ring.mixed.shapeNumber? Settings.default (ring.complex.classOf () 0) = some 0 ∧
    ring.mixed.shapeNumber? Settings.default (ring.complex.classOf () 2) = some 0 ∧
    ring.tiling.shapes.size = 1 ∧ ring.mixed.size = 2 :=
  ⟨CellTable.complex_lawful (by decide), CellTable.complex_involutive (by decide), by decide,
    ring.analysis 996, ring.conversion, by decide +kernel, by decide +kernel, by decide +kernel,
    by decide +kernel⟩

/-- The ring fails the condition: every congruence of its cells relates the rectangle to a square. -/
theorem ring_mixed_only_forced :
    (∀ {c s}, ring.complex.start () = .ok c s → 0 < ring.complex.degree s c) ∧
    ring.complex.Lawful () ∧ ring.complex.convert Settings.default () = .ok ring.tiling () ∧
    ∀ R, ring.complex.IsCongruence () (fun _ => True) R →
      ∃ d, R (ring.complex.walker () 0 0) (ring.complex.walker () 2 d) := by
  have hcx : ring.complex.Lawful () := CellTable.complex_lawful (by decide)
  refine ⟨hcx.start_pos, hcx, ring.conversion, fun R hR => ?_⟩
  obtain ⟨s, hanalysis, -, -, -, hforced, -⟩ := @convert_mixes_only_forced Whole Unit Nat
    ring.complex () Settings.default _ _ _ ring.tiling () _ _ (fun _ => hcx) ring.conversion
  obtain ⟨-, rfl⟩ := EStateM.Result.ok.inj ((ring.analysis 996).symm.trans hanalysis)
  exact hforced _ R ⟨fun _ _ _ => trivial, fun _ _ _ _ => trivial⟩ hR 0 2 0 trivial trivial
    (by decide) (by decide) (by decide +kernel) (by decide +kernel)

end Surveying

end Mosaic
