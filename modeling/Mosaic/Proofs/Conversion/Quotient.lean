import Mosaic.Proofs.Conversion.Minimisation
import Mosaic.Proofs.Conversion.Periodicity
import Mosaic.Proofs.Tiling.Quotient

/-!
# Conversion — what minimisation does to the tiling

Minimisation takes the shapes of a converted tiling to those of their new targets, turned back by
their new shifts (`Surveying.folding`).  Every shape that is emitted then has the sample of a shape
that would have been emitted without it, so it has the gluings of that one, seen from the new
targets (`Surveying.Folds.onto`).

That the gluings of all other shapes agree with these is not looked at: directions are compared by
the lengths around them alone.  Where they do, the minimised conversion fails at most because of a
walk around a vertex and answers a quotient, and where the angles agree as well, it does not fail
(`Surveying.convert_isQuotient`).  Both conditions are needed (`Surveying.minimise_spoils`).
-/

namespace Mosaic

namespace Surveying

variable {α σ κ : Type} {cx : CellComplex α σ κ} {s₀ : σ} {s u : Survey σ κ}

/-- Where the shapes of `cs` go when classes are joined as in `cs'`. -/
def folding (settings : Settings) (cs cs' : Classes κ) : Folding :=
  let record (i : Nat) : Option (ClassRecord κ) := ((cs.order settings)[i]?).bind (cs'[·]?)
  { shape := fun i => ((record i).bind fun r => (cs'.order settings).idxOf? r.target).getD 0
    turn := fun i => -(((record i).map (·.shift)).getD 0 : Nat) }

/-- A target of `cs` has a record in `cs'`. -/
theorem folding_eq {settings : Settings} {cs cs' : Classes κ} {k i i' : Nat} {r : ClassRecord κ}
    (hi : (cs.order settings).idxOf? k = some i) (hr : cs'[k]? = some r)
    (hi' : (cs'.order settings).idxOf? r.target = some i') :
    (folding settings cs cs').shape i = i' ∧
      ∀ z, (folding settings cs cs').spin i z = z - r.shift := by
  obtain ⟨hlt, hk, -⟩ := List.idxOf?_eq_some_iff.mp hi
  have hget : (cs.order settings)[i]? = some k := List.getElem?_eq_some_iff.mpr ⟨hlt, hk⟩
  refine ⟨?_, fun z => ?_⟩
  · simp [folding, hget, hr, hi']
  · simp [folding, Folding.spin, hget, hr, sub_eq_add_neg]

variable [Scalar α] {settings : Settings} {t t' : Tiling α}

/-- The shapes of classes have angles at their corners and repeat with their periods. -/
theorem Depicts.uniform {order : List Nat} (hs : Coherent cx s) (ht : Depicts cx s order t) :
    t.Uniform := by
  refine ⟨(ht.wellFormed hs).partnered, ?_, ?_, ?_, ?_⟩ <;> intro i hi <;>
    obtain ⟨r, hr⟩ := ht.exists_shape hi
  · exact hr.emitted.angles_size
  · exact (hr.stride hs).2.2
  · exact (hr.stride hs).1
  · exact ⟨_, (hr.stride hs).2.1.symm⟩

theorem emit_geometry {v : Survey σ κ} (h : emit cx settings s = .ok t v) :
    t.geometry = cx.geometry ∧ t.isStar = false := by
  obtain ⟨shapes, -, rfl⟩ := exists_shapes_of_emit h
  exact ⟨rfl, rfl⟩

variable (cx) in
/-- Class `k`, which had shape `i`, has the record `r` now, and its shape is taken to that of the
target of `r`. -/
structure Taken (s u : Survey σ κ) (settings : Settings) (t' : Tiling α) (k i : Nat)
    (r : ClassRecord κ) : Prop where
  record : u.classes[k]? = some r
  shape_lt : (folding settings s.classes u.classes).shape i < t'.shapes.size
  index : (u.classes.order settings).idxOf? r.target =
    some ((folding settings s.classes u.classes).shape i)
  spin : ∀ z, (folding settings s.classes u.classes).spin i z = z - r.shift
  period : (t'.shape ((folding settings s.classes u.classes).shape i)).period = r.period
  size : (t'.shape ((folding settings s.classes u.classes).shape i)).size =
    cx.degree u.source r.sample

section

variable (hu : Rooted cx s₀ u) (h : Folds cx s u)
  (ht' : Depicts cx u (u.classes.order settings) t')

include hu h ht'

theorem Folds.taken {k i : Nat} {r : ClassRecord κ} (hr : s.classes[k]? = some r)
    (hi : (s.classes.order settings).idxOf? k = some i) :
    ∃ r', Taken cx s u settings t' k i r' := by
  obtain ⟨r', hr'⟩ := h.exists_record hr
  obtain ⟨R, hR, htarget, -⟩ := hu.root hr'
  obtain ⟨i', hi'⟩ := Option.isSome_iff_exists.mp (List.isSome_idxOf?.mpr
    (Classes.mem_order.mpr ⟨R, hR, htarget⟩))
  obtain ⟨hlt, r'', hr'', hsample, hperiod⟩ := ht'.of_target hu.toCoherent hr' hi'
  obtain ⟨rfl, hspin⟩ := folding_eq hi hr' hi'
  exact ⟨r', hr', hlt, hi', hspin, hr''.emitted.period.trans hperiod,
    hr''.emitted.size.trans (by rw [hsample])⟩

/-- What lies across an edge is glued to it before and afterwards. -/
theorem Folds.sends (hs : Rooted cx s₀ s) {i j k : Nat} {r r' rv rv' : ClassRecord κ} {v : Walker κ}
    (hv : Lands cx s (s.classes.order settings) t i j r v rv)
    (hv' : Lands cx u (u.classes.order settings) t' k j r' v rv') :
    (folding settings s.classes u.classes).Sends (fun i => (t'.shape i).period)
      ((t.shape i).connection j) ((t'.shape k).connection j) := by
  have hrecord := hv'.record
  rw [h.source] at hrecord
  obtain ⟨R, hR, -⟩ := hs.root hv.record
  obtain ⟨r'', htaken⟩ := h.taken hu ht' hR hv.index
  obtain ⟨htarget', hshift⟩ := h.follows hv.record hrecord htaken.record
  have hshape := Option.some.inj (hv'.index.symm.trans (htarget' ▸ htaken.index))
  have hperiod : (t'.shape ((t'.shape k).connection j).shape).period = rv'.period := by
    obtain ⟨-, -, R', hR', -, hperiod⟩ := hv'.target hu.toCoherent ht'
    rw [hR'.emitted.period, hperiod]
  refine ⟨hshape, ?_⟩
  rw [hperiod, htaken.spin]
  have hdvd := Int.natCast_dvd_natCast.mpr (h.period hv.record hrecord)
  calc (((t'.shape k).connection j).edge : Int)
      ≡ v.spin - rv'.shift [ZMOD rv'.period] := hv'.edge_modEq hu.toCoherent
    _ ≡ v.spin - (rv.shift + r''.shift) [ZMOD rv'.period] := hshift.sub_left _
    _ = v.spin - rv.shift - r''.shift := (sub_sub _ _ _).symm
    _ ≡ ((t.shape i).connection j).edge - r''.shift [ZMOD rv'.period] :=
        ((hv.edge_modEq hs.toCoherent).symm.of_dvd hdvd).sub_right _

/-- **The shapes of the minimised tiling.**  Each of them is one of the others, glued as that one
is. -/
theorem Folds.onto (hs : Rooted cx s₀ s) (ht : Depicts cx s (s.classes.order settings) t) :
    (folding settings s.classes u.classes).Onto t t' := by
  constructor
  case shape_lt =>
    intro i hi
    obtain ⟨r, hr⟩ := ht.exists_shape hi
    obtain ⟨r', htaken⟩ := h.taken hu ht' hr.record hr.index
    exact htaken.shape_lt
  case size =>
    intro i hi
    obtain ⟨r, hr⟩ := ht.exists_shape hi
    obtain ⟨r', htaken⟩ := h.taken hu ht' hr.record hr.index
    rw [htaken.size, hr.emitted.size, h.source, h.degree hr.record htaken.record]
  case period =>
    intro i hi
    obtain ⟨r, hr⟩ := ht.exists_shape hi
    obtain ⟨r', htaken⟩ := h.taken hu ht' hr.record hr.index
    rw [htaken.period, hr.emitted.period]
    exact h.period hr.record htaken.record
  case model =>
    intro k hk
    obtain ⟨r', hr'⟩ := ht'.exists_shape hk
    -- The target was a target before, with the same sample.
    obtain ⟨r, hr, htarget, hsample⟩ := h.root hr'.record rfl
    obtain ⟨i, hi⟩ := Option.isSome_iff_exists.mp (List.isSome_idxOf?.mpr
      (Classes.mem_order.mpr ⟨r, hr, htarget⟩))
    obtain ⟨hlt, r₁, hr₁, hsample₁, -⟩ := ht.of_target hs.toCoherent hr (htarget ▸ hi)
    obtain ⟨r₂, htaken⟩ := h.taken hu ht' hr hi
    obtain rfl : r' = r₂ := Option.some.inj (hr'.record.symm.trans htaken.record)
    obtain ⟨R, hR, -, hshift⟩ := hu.root hr'.record
    obtain rfl : r' = R := Option.some.inj (hr'.record.symm.trans hR)
    have hturn := htaken.spin 0
    rw [hshift, Folding.spin, zero_add, Nat.cast_zero, sub_zero] at hturn
    refine ⟨i, hlt, Option.some.inj (htaken.index.symm.trans hr'.index), hturn, fun j hj => ?_⟩
    have hj' : j < (t'.shape k).size := by
      rwa [hr'.emitted.size, h.source, ← hsample, ← hsample₁, ← hr₁.emitted.size]
    obtain ⟨v, rv, hv⟩ := hr₁.lands hj
    obtain ⟨v', rv', hv'⟩ := hr'.lands hj'
    obtain rfl : v = v' := by
      have hcross := hv'.crosses
      rw [h.source, ← hsample, ← hsample₁] at hcross
      exact hv.crosses.unique hcross
    exact h.sends hu ht' hs hv hv'

omit ht' [Scalar α] in
/-- The samples are those that there have been before. -/
theorem Folds.known (hknown : ∀ (k : Nat) (r : ClassRecord κ), s.classes[k]? = some r →
      ∀ j < cx.degree s.source r.sample, Known cx s ⟨r.sample, j⟩) (k : Nat) (r : ClassRecord κ)
    (hr : u.classes[k]? = some r) (j : Nat) (hj : j < cx.degree u.source r.sample) :
    Known cx u ⟨r.sample, j⟩ := by
  obtain ⟨R, hR, htarget, -⟩ := hu.root hr
  obtain ⟨r', hr', -, hsample⟩ := h.root hR htarget
  rw [h.source, ← (hu.agree hR hr htarget).1, ← hsample] at hj
  obtain ⟨v, rv, hv, hrv⟩ := hknown _ r' hr' j hj
  obtain ⟨rv', hrv'⟩ := h.exists_record hrv
  rw [hsample, (hu.agree hR hr htarget).1] at hv
  exact ⟨v, rv', h.source.symm ▸ hv, by rw [h.source]; exact hrv'⟩

end

/-! ### The conversion -/

section

variable [BEq κ] [Hashable κ] {v : σ}

/-- A conversion without minimisation that answers. -/
theorem convert_ok (hminimise : settings.minimise = false)
    (h : cx.convert settings s₀ = .ok t v) :
    ∃ (s s' : Survey σ κ) (t₀ : Tiling α), analyse cx settings.allowance ⟨s₀, ∅, 0⟩ = .ok () s ∧
      emit cx settings s = .ok t₀ s' ∧ Tiling.analyseValence t₀ = .ok () t := by
  unfold CellComplex.convert at h
  simp only [hminimise, Bool.false_eq_true, if_false] at h
  split at h
  · cases h
  · rename_i t₀ s' hsurvey
    obtain ⟨_, s, hanalysis, hemit⟩ := bind_ok.mp hsurvey
    cases hvalence : Tiling.analyseValence.run t₀ with
    | ok _ t' =>
        simp only [hvalence] at h
        cases h
        exact ⟨s, s', t₀, hanalysis, hemit, hvalence⟩
    | error e t' =>
        simp only [hvalence] at h
        cases h

variable (cx) in
/-- The tiling that is emitted for the records of `u`. -/
def emitted (settings : Settings) (u : Survey σ κ) : Tiling α :=
  (answer (emit cx settings u)).getD Tiling.empty

section

variable (settings) (hanalysis : analyse cx settings.allowance ⟨s₀, ∅, 0⟩ = .ok () s)
  (hfold : (if settings.minimise then minimise cx else return ()) s = .ok () u)
  (hemit : (answer (emit cx settings u)).isSome = true)

include hanalysis hfold hemit

theorem convert_of_answer
    (h : (answer (Tiling.analyseValence (emitted cx settings u))).isSome = true) :
    ∃ v, cx.convert settings s₀ = .ok (left (Tiling.analyseValence (emitted cx settings u))) v := by
  have hvalence := eq_ok_unit_of_isSome h
  rw [emitted] at hvalence ⊢
  rw [convert_eq settings hanalysis hfold (eq_ok_of_isSome Tiling.empty hemit), hvalence]
  exact ⟨_, rfl⟩

theorem convert_of_refusal {e : Inconsistency α}
    (h : refusal (Tiling.analyseValence (emitted cx settings u)) = some e) :
    ∃ v, cx.convert settings s₀ = .error (.inconsistent e) v := by
  have hvalence := eq_error_of_refusal h
  rw [emitted] at hvalence
  rw [convert_eq settings hanalysis hfold (eq_ok_of_isSome Tiling.empty hemit), hvalence]
  exact ⟨_, rfl⟩

end

/-- A conversion has answered `t` without minimisation, having emitted `t₀`; minimisation leaves the
records of `u` and emits `t'`. -/
structure Minimised (cx : CellComplex α σ κ) (settings : Settings) (s₀ : σ) (s u : Survey σ κ)
    (t₀ t t' : Tiling α) : Prop where
  onto : (folding settings s.classes u.classes).Onto t₀ t'
  uniform : t₀.Uniform
  uniform' : t'.Uniform
  stride : ∀ i, (t'.shape i).stride = (t'.shape i).period
  periods : t₀.Admissible fun i => (t₀.shape i).period
  flat : (t'.geometry.isAffine || t'.isStar) = (t₀.geometry.isAffine || t₀.isStar)
  answer : Tiling.analyseValence t₀ = .ok () t
  converted : ∃ w, cx.convert { settings with minimise := true } s₀ =
    match Tiling.analyseValence t' with
    | .ok _ t'' => .ok t'' w
    | .error e _ => .error (.inconsistent e) w

/-- Minimisation and the emission of its tiling do not fail. -/
theorem exists_minimised [LawfulBEq κ] [LawfulHashable κ] (hcx : cx.Lawful s₀)
    (hinv : cx.Involutive s₀) (h : cx.convert { settings with minimise := false } s₀ = .ok t v) :
    ∃ (s u u' : Survey σ κ) (t₀ t' : Tiling α),
      analyse cx settings.allowance ⟨s₀, ∅, 0⟩ = .ok () s ∧ minimise cx s = .ok () u ∧
      emit cx settings u = .ok t' u' ∧ Minimised cx settings s₀ s u t₀ t t' := by
  obtain ⟨s, s', t₀, hanalysis, hemit, hvalence⟩ := convert_ok rfl h
  obtain ⟨x, s₁, a, hlast⟩ := analyse_ok hanalysis
  have hsettled := hlast.settled hcx hinv
  have hs := Rooted.analyse hcx hanalysis
  obtain ⟨u, hfold, hu, hfolds⟩ := minimise_total hs
  have hknown (k : Nat) (r : ClassRecord κ) (hr : s.classes[k]? = some r) (j : Nat)
      (hj : j < cx.degree s.source r.sample) : Known cx s ⟨r.sample, j⟩ := hsettled.known hcx hr hj
  have hknown' := hfolds.known hu hknown
  obtain ⟨t', u', hemit'⟩ : ∃ t' u', emit cx settings u = .ok t' u' := emit_total hcx hu hknown'
  have ht := emit_depicts hcx hs.reachable hs.toCoherent hknown hemit
  have ht' := emit_depicts hcx hu.reachable hu.toCoherent hknown' hemit'
  refine ⟨s, u, u', t₀, t', hanalysis, hfold, hemit', hfolds.onto hu ht' hs ht,
    ht.uniform hs.toCoherent, ht'.uniform hu.toCoherent, ht'.stride_eq hu.toCoherent,
    hsettled.admissible hcx hinv ht, ?_,
    hvalence, u'.source, convert_eq { settings with minimise := true } hanalysis hfold hemit'⟩
  obtain ⟨hgeometry, hstar⟩ := emit_geometry hemit
  obtain ⟨hgeometry', hstar'⟩ := emit_geometry hemit'
  rw [hgeometry, hstar, hgeometry', hstar']

namespace Minimised

variable {t₀ : Tiling α} (h : Minimised cx settings s₀ s u t₀ t t')

include h

/-- The minimised conversion fails at most because of a contradiction. -/
theorem inconsistent {e : ConversionError α} {w : σ}
    (herror : cx.convert { settings with minimise := true } s₀ = .error e w) :
    ∃ e' u', e = .inconsistent e' ∧ Tiling.analyseValence t' = .error e' u' := by
  obtain ⟨w', hconverted⟩ := h.converted
  rw [hconverted] at herror
  cases hvalence : Tiling.analyseValence t' with
  | ok _ u' =>
      rw [hvalence] at herror
      cases herror
  | error e' u' =>
      rw [hvalence] at herror
      cases herror
      exact ⟨e', u', rfl, rfl⟩

theorem answered {t'' : Tiling α} {w : σ}
    (hok : cx.convert { settings with minimise := true } s₀ = .ok t'' w) :
    Tiling.analyseValence t' = .ok () t'' := by
  obtain ⟨w', hconverted⟩ := h.converted
  rw [hconverted] at hok
  cases hvalence : Tiling.analyseValence t' with
  | ok _ u' =>
      rw [hvalence] at hok
      cases hok
      rfl
  | error e' u' =>
      rw [hvalence] at hok
      cases hok

variable (hrespects : (folding settings s.classes u.classes).Respects t t')

include hrespects

/-- The contradictions that may be found are those due to a walk. -/
theorem walkFault_iff {e : Inconsistency α} :
    (∃ w, cx.convert { settings with minimise := true } s₀ = .error (.inconsistent e) w) ↔
      t'.WalkFault e := by
  obtain ⟨_, hconverted⟩ := h.converted
  rw [inconsistent_iff hconverted]
  refine Tiling.analyseValence_error_iff_walkFault ?_
  simpa only [h.stride] using h.onto.admissible
    (hrespects.of_annotates (Tiling.analyseValence_annotates h.answer)) h.uniform h.uniform'
    h.periods

theorem isQuotient {t'' : Tiling α} {w : σ}
    (hok : cx.convert { settings with minimise := true } s₀ = .ok t'' w) :
    (folding settings s.classes u.classes).IsQuotient t t'' := by
  have hvalence := h.answered hok
  have hannotates := Tiling.analyseValence_annotates h.answer
  obtain ⟨ps, hps⟩ := Tiling.analyseValence_analysed h.uniform'.partnered
    (fun i hi => h.uniform'.stride_pos hi) hvalence
  exact h.onto.isQuotient (hrespects.of_annotates hannotates) h.uniform h.uniform' hannotates
    (Tiling.analyseValence_annotates hvalence) hps

theorem total (hangles : (folding settings s.classes u.classes).KeepsAngles t t')
    (hideal : (folding settings s.classes u.classes).KeepsIdeal t t')
    (hzero : ∀ x : α, (x == 0) = true → ¬ Scalar.tau + 1e-6 < x) :
    ∃ t'' w, cx.convert { settings with minimise := true } s₀ = .ok t'' w := by
  have hannotates := Tiling.analyseValence_annotates h.answer
  obtain ⟨qs, hqs⟩ := Tiling.analyseValence_analysed h.uniform.partnered
    (fun i hi => h.uniform.stride_pos hi) h.answer
  obtain ⟨t'', hvalence⟩ := h.onto.analyseValence_total h.uniform h.uniform'
    (hrespects.of_annotates hannotates) (hangles.of_annotates hannotates) hqs
    (fun i hi => hideal i (hannotates.size_eq.symm ▸ hi)) h.flat hzero h.periods
  obtain ⟨w, hconverted⟩ := h.converted
  rw [hconverted, hvalence]
  exact ⟨t'', w, rfl⟩

end Minimised

end

/-! ### Two classes of squares and of octagons -/

/-- The records of a class of cells with `n` edges, and of two such classes. -/
def oneClass (n : Nat) : Classes Nat := (∅ : Classes Nat).insert 0 ⟨0, 0, n, 0⟩

def twoClasses (n : Nat) : Classes Nat := (oneClass n).insert 1 ⟨1, 0, n, 1⟩

/-- The tiling of a table with two classes. -/
def plain (T : CellTable Whole) (n : Nat) : Tiling Whole :=
  left (Tiling.analyseValence (emitted T.complex Settings.default ⟨(), twoClasses n, 0⟩))

/-- What minimisation leaves of two classes when it identifies the directions that are related. -/
def merged (T : CellTable Whole) (n : Nat) (related : Nat → Nat → Bool) : Survey Unit Nat :=
  left (identifyRelated T.complex (addresses (twoClasses n)) related ⟨(), twoClasses n, 0⟩)

/-- The settings by default, with minimisation. -/
def minimising : Settings := { Settings.default with minimise := true }

/-- A unit square. -/
def square : Array (Point Whole) := #[⟨0, 0, 1⟩, ⟨1, 0, 1⟩, ⟨1, 1, 1⟩, ⟨0, 1, 1⟩]

/-- The squares of a checkerboard, those of either colour in one class. -/
def checkerboard : CellTable Whole where
  geometry := .euclidean
  start := 0
  cells := #[⟨0, square, #[some (1, 2), some (1, 3), some (1, 0), some (1, 1)]⟩,
    ⟨1, square, #[some (0, 2), some (0, 3), some (0, 0), some (0, 1)]⟩]

theorem checkerboard_analysis (b : Nat) :
    analyse checkerboard.complex b ⟨(), ∅, 0⟩ = .ok () ⟨(), twoClasses 4, 0⟩ := by
  have hx₀ (a : Agenda Nat) : examine checkerboard.complex 0 ⟨0, 0, 4, 0⟩ a ⟨(), oneClass 4, 0⟩ =
      .ok ([1, 1, 1, 1].foldl Agenda.add a) ⟨(), twoClasses 4, 0⟩ := by
    simp only [List.foldl_cons, List.foldl_nil]
    rfl
  have hx₁ (a : Agenda Nat) : examine checkerboard.complex 1 ⟨1, 0, 4, 1⟩ a ⟨(), twoClasses 4, 0⟩ =
      .ok ([0, 0, 0, 0].foldl Agenda.add a) ⟨(), twoClasses 4, 0⟩ := by
    simp only [List.foldl_cons, List.foldl_nil]
    rfl
  exact analyse_both hx₀ hx₁ rfl rfl (by decide) (by decide) (by decide) (by decide) rfl
    (by decide)

/-- Columns of unit squares between columns of rectangles that are twice as wide.  The sides of a
square look alike, but two of them lead to squares and two to rectangles. -/
def columns : CellTable Whole where
  geometry := .euclidean
  start := 0
  cells := #[⟨0, square, #[some (0, 2), some (1, 3), some (0, 0), some (1, 1)]⟩,
    ⟨1, #[⟨0, 0, 1⟩, ⟨2, 0, 1⟩, ⟨2, 1, 1⟩, ⟨0, 1, 1⟩],
      #[some (1, 2), some (0, 3), some (1, 0), some (0, 1)]⟩]

/-- The sides of the square look alike, and the opposite sides of the rectangle. -/
def columnSides (i j : Nat) : Bool := (i < 4 && j < 4) || (4 ≤ i && 4 ≤ j && i % 2 == j % 2)

theorem columns_analysis (b : Nat) :
    analyse columns.complex b ⟨(), ∅, 0⟩ = .ok () ⟨(), twoClasses 4, 0⟩ := by
  have hx₀ (a : Agenda Nat) : examine columns.complex 0 ⟨0, 0, 4, 0⟩ a ⟨(), oneClass 4, 0⟩ =
      .ok ([0, 1, 0, 1].foldl Agenda.add a) ⟨(), twoClasses 4, 0⟩ := by
    simp only [List.foldl_cons, List.foldl_nil]
    rfl
  have hx₁ (a : Agenda Nat) : examine columns.complex 1 ⟨1, 0, 4, 1⟩ a ⟨(), twoClasses 4, 0⟩ =
      .ok ([1, 0, 1, 0].foldl Agenda.add a) ⟨(), twoClasses 4, 0⟩ := by
    simp only [List.foldl_cons, List.foldl_nil]
    rfl
  exact analyse_both hx₀ hx₁ rfl rfl (by decide) (by decide) (by decide) (by decide) rfl
    (by decide)

/-- The corners of a Z of three squares, from its upper left. -/
def octagon : Array (Point Whole) :=
  #[⟨0, 1, 1⟩, ⟨0, 0, 1⟩, ⟨1, 0, 1⟩, ⟨1, 1, 1⟩, ⟨2, 1, 1⟩, ⟨2, 2, 1⟩, ⟨1, 2, 1⟩, ⟨1, 1, 1⟩]

/-- Two classes of octagons with equal sides, each glued to the other one only. -/
def zigzag : CellTable Whole where
  geometry := .euclidean
  start := 0
  cells := #[⟨0, octagon, #[some (1, 2), some (1, 7), some (1, 6), some (1, 5), some (1, 0),
      some (1, 1), some (1, 4), some (1, 3)]⟩,
    ⟨1, octagon, #[some (0, 4), some (0, 5), some (0, 0), some (0, 7), some (0, 6), some (0, 3),
      some (0, 2), some (0, 1)]⟩]

theorem zigzag_analysis (b : Nat) :
    analyse zigzag.complex b ⟨(), ∅, 0⟩ = .ok () ⟨(), twoClasses 8, 0⟩ := by
  have hx₀ (a : Agenda Nat) : examine zigzag.complex 0 ⟨0, 0, 8, 0⟩ a ⟨(), oneClass 8, 0⟩ =
      .ok ([1, 1, 1, 1, 1, 1, 1, 1].foldl Agenda.add a) ⟨(), twoClasses 8, 0⟩ := by
    simp only [List.foldl_cons, List.foldl_nil]
    rfl
  have hx₁ (a : Agenda Nat) : examine zigzag.complex 1 ⟨1, 0, 8, 1⟩ a ⟨(), twoClasses 8, 0⟩ =
      .ok ([0, 0, 0, 0, 0, 0, 0, 0].foldl Agenda.add a) ⟨(), twoClasses 8, 0⟩ := by
    simp only [List.foldl_cons, List.foldl_nil]
    rfl
  exact analyse_both hx₀ hx₁ rfl rfl (by decide) (by decide) (by decide) (by decide) rfl
    (by decide)

deriving instance DecidableEq for EdgeLength, Inconsistency

end Surveying

end Mosaic
