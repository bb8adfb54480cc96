import Mosaic.Proofs.Conversion.Classified
import Mosaic.Proofs.Conversion.Coherence
import Mosaic.Proofs.Conversion.LeastCongruence

/-!
# Conversion — canonical forms are joined

Whatever walkers an analysis identifies, its records are a union-find with rotations.  The records
of one target share sample and period, a target is its own target and unturned, periods divide the
numbers of edges, and shifts are reduced (`Surveying.Tidy`).

A walker whose class is not recorded yet has the canonical form that its record will give it
(`Surveying.recordOf`), so having one canonical form is an equivalence of the walkers in all cells
that are there, and it is kept by turning.  Identifying two walkers makes it the least such
equivalence that also relates these two (`CellComplex.Spanned`, `Surveying.identify_spans`): circles
of directions of lengths `m₁` and `m₂` become one of length `gcd m₁ m₂`, since the walkers that
must be related are closed under turning by either.

Nothing is asked here of the degrees but that classes tell them; cells may have no edges at all.
-/

namespace Mosaic

namespace CellComplex

variable {α σ κ : Type} (cx : CellComplex α σ κ)

/-- An equivalence of the walkers in cells of `C` that is kept by turning. -/
structure IsTurning (s : σ) (C : κ → Prop) (R : Walker κ → Walker κ → Prop) : Prop where
  refl : ∀ {w}, C w.cell → R w w
  symm : ∀ {w w'}, R w w' → C w.cell → C w'.cell → R w' w
  trans : ∀ {w w' w''}, R w w' → R w' w'' → C w.cell → C w'.cell → C w''.cell → R w w''
  turned : ∀ {w w'}, R w w' → C w.cell → C w'.cell →
    ∀ d, R (cx.turned s w d) (cx.turned s w' d)

/-- Such an equivalence that contains `R` and relates `w₁` to `w₂`. -/
structure Extends (s : σ) (C : κ → Prop) (R : Walker κ → Walker κ → Prop) (w₁ w₂ : Walker κ)
    (Q : Walker κ → Walker κ → Prop) : Prop extends cx.IsTurning s C Q where
  contains : ∀ {w w'}, R w w' → C w.cell → C w'.cell → Q w w'
  pair : Q w₁ w₂

/-- The least of them: all others relate what it relates. -/
def Spanned (s : σ) (C : κ → Prop) (R : Walker κ → Walker κ → Prop) (w₁ w₂ w w' : Walker κ) :
    Prop := ∀ Q, cx.Extends s C R w₁ w₂ Q → Q w w'

variable {cx} {s : σ} {C : κ → Prop} {R : Walker κ → Walker κ → Prop} {w₁ w₂ : Walker κ}

/-- What it extends matters only on the cells of `C`. -/
theorem Extends.congr {R' Q : Walker κ → Walker κ → Prop}
    (h : ∀ {w w'}, C w.cell → C w'.cell → (R' w w' ↔ R w w')) (hQ : cx.Extends s C R w₁ w₂ Q) :
    cx.Extends s C R' w₁ w₂ Q :=
  ⟨hQ.toIsTurning, fun hw hC hC' => hQ.contains ((h hC hC').mp hw) hC hC', hQ.pair⟩

/-- It is one of them. -/
theorem spanned_extends : cx.Extends s C R w₁ w₂ (cx.Spanned s C R w₁ w₂) where
  refl hw _ hQ := hQ.refl hw
  symm h hw hw' Q hQ := hQ.symm (h Q hQ) hw hw'
  trans h h' hw hw' hw'' Q hQ := hQ.trans (h Q hQ) (h' Q hQ) hw hw' hw''
  turned h hw hw' d Q hQ := hQ.turned (h Q hQ) hw hw' d
  contains h hw hw' _ hQ := hQ.contains h hw hw'
  pair _ hQ := hQ.pair

end CellComplex

namespace Surveying

variable {α σ κ : Type} (cx : CellComplex α σ κ)

/-- The record of the class of a cell, or the one that it will have. -/
def recordOf (s : Survey σ κ) (c : κ) : ClassRecord κ :=
  (s.classes[cx.classOf s.source c]?).getD
    ⟨cx.classOf s.source c, 0, Nat.max (cx.degree s.source c) 1, c⟩

/-- The target of a walker, and its direction there. -/
def canonicalForm (s : Survey σ κ) (w : Walker κ) : Nat × Nat :=
  ((recordOf cx s w.cell).target, (recordOf cx s w.cell).residue w.spin)

/-- The two walkers have the same canonical form. -/
def Alike (s : Survey σ κ) (w w' : Walker κ) : Prop := canonicalForm cx s w = canonicalForm cx s w'

/-- What is known at any time of the records of an analysis. -/
structure Tidy (there : σ → κ → Prop) (deg : Nat → Nat) (s : Survey σ κ) : Prop
    extends Classes.Fitting s.classes where
  met : ∀ {k : Nat} {r : ClassRecord κ}, s.classes[k]? = some r →
    ∃ u c, there u c ∧ cx.classOf u c = k
  sample_there : ∀ {k : Nat} {r : ClassRecord κ}, s.classes[k]? = some r → there s.source r.sample
  sample_class : ∀ {k : Nat} {r : ClassRecord κ}, s.classes[k]? = some r →
    cx.classOf s.source r.sample = r.target
  degree : ∀ {k : Nat} {r : ClassRecord κ}, s.classes[k]? = some r → deg r.target = deg k
  period_pos : ∀ {k : Nat} {r : ClassRecord κ}, s.classes[k]? = some r → 0 < r.period
  period_dvd : ∀ {k : Nat} {r : ClassRecord κ}, s.classes[k]? = some r →
    r.period ∣ Nat.max (deg k) 1
  shift_lt : ∀ {k : Nat} {r : ClassRecord κ}, s.classes[k]? = some r → r.shift < r.period

/-- One step of a computation on the survey: the complex is walked on, a class is recorded, or two
walkers are identified. -/
inductive Operated (there : σ → κ → Prop) (s : Survey σ κ) : Survey σ κ → Prop where
  | walked {u : σ} (h : cx.Walked s.source u) : Operated there s { s with source := u }
  | recorded {c : κ} {r : ClassRecord κ} {t : Survey σ κ} (hc : there s.source c)
      (h : record cx c s = .ok r t) : Operated there s t
  | identified {w₁ w₂ : Walker κ} {t : Survey σ κ} (hw₁ : there s.source w₁.cell)
      (hw₂ : there s.source w₂.cell) (h : identify cx w₁ w₂ s = .ok () t) : Operated there s t

/-- Any number of such steps. -/
def Worked (there : σ → κ → Prop) : Survey σ κ → Survey σ κ → Prop :=
  Relation.ReflTransGen (Operated cx there)

/-- The surveys that such steps lead to from the first cell, while changes may be counted anew. -/
inductive Surveyed (there : σ → κ → Prop) (s₀ : σ) : Survey σ κ → Prop where
  | started {c : κ} {s : σ} (h : cx.start s₀ = .ok c s) : Surveyed there s₀ ⟨s, ∅, 0⟩
  | operated {s t : Survey σ κ} (hs : Surveyed there s₀ s) (h : Operated cx there s t) :
      Surveyed there s₀ t
  | recounted {s : Survey σ κ} (hs : Surveyed there s₀ s) (n : Nat) :
      Surveyed there s₀ { s with changes := n }

variable {cx} {there : σ → κ → Prop} {deg : Nat → Nat} {s₀ : σ} {s t : Survey σ κ} {c c' : κ}
  {w w' w₁ w₂ : Walker κ}

/-! ### Records -/

theorem recordOf_of_getElem? {r : ClassRecord κ} (h : s.classes[cx.classOf s.source c]? = some r) :
    recordOf cx s c = r := by
  simp [recordOf, h]

variable (cx) in
theorem exists_record (s : Survey σ κ) (c : κ) : ∃ t, record cx c s = .ok (recordOf cx s c) t := by
  cases hk : s.classes[cx.classOf s.source c]? with
  | some r => exact ⟨s, by rw [record_eq_ok hk, recordOf_of_getElem? hk]⟩
  | none =>
      refine ⟨{ s with classes := s.classes.insert (cx.classOf s.source c) (recordOf cx s c) }, ?_⟩
      refine bind_ok.mpr ⟨s, s, rfl, ?_⟩
      simp only [hk, recordOf]
      rfl

/-- Recording a class leaves the canonical forms as they are. -/
theorem canonicalForm_record (hcx : cx.Classified there deg) {r : ClassRecord κ}
    (hc : there s.source c) (h : record cx c s = .ok r t) (hw : there s.source w.cell) :
    canonicalForm cx t w = canonicalForm cx s w := by
  rcases record_ok h with ⟨-, rfl⟩ | ⟨hnone, rfl, rfl⟩
  · rfl
  · by_cases hclass : cx.classOf s.source c = cx.classOf s.source w.cell
    · have hdegree : cx.degree s.source c = cx.degree s.source w.cell := by
        rw [hcx.degree_eq hc, hcx.degree_eq hw, hclass]
      rw [hclass] at hnone
      simp [canonicalForm, recordOf, hclass, hnone, hdegree, ClassRecord.residue]
    · simp [canonicalForm, recordOf, Std.TreeMap.getElem?_insert, hclass]

theorem alike_record (hcx : cx.Classified there deg) {r : ClassRecord κ} (hc : there s.source c)
    (h : record cx c s = .ok r t) (hw : there s.source w.cell) (hw' : there s.source w'.cell) :
    Alike cx t w w' ↔ Alike cx s w w' := by
  rw [Alike, Alike, canonicalForm_record hcx hc h hw, canonicalForm_record hcx hc h hw']

/-! ### The records stay tidy -/

namespace Tidy

theorem walked (hcx : cx.Classified there deg) (hs : Tidy cx there deg s) {u : σ}
    (h : cx.Walked s.source u) : Tidy cx there deg { s with source := u } where
  toFitting := hs.toFitting
  met := hs.met
  sample_there hr := (hcx.stays (hs.sample_there hr) h).1
  sample_class hr := (hcx.stays (hs.sample_there hr) h).2.trans (hs.sample_class hr)
  degree := hs.degree
  period_pos := hs.period_pos
  period_dvd := hs.period_dvd
  shift_lt := hs.shift_lt

theorem record (hcx : cx.Classified there deg) (hs : Tidy cx there deg s) {r : ClassRecord κ}
    (hc : there s.source c) (h : Surveying.record cx c s = .ok r t) : Tidy cx there deg t := by
  rcases record_ok h with ⟨-, rfl⟩ | ⟨hnone, rfl, rfl⟩
  · exact hs
  refine ⟨hs.toFitting.insert hnone _ _, ?_, ?_, ?_, ?_, ?_, ?_, ?_⟩ <;> intro k r hr <;>
    rcases Classes.insert_cases hr with ⟨rfl, rfl⟩ | hr
  · exact ⟨_, c, hc, rfl⟩
  · exact hs.met hr
  · exact hc
  · exact hs.sample_there hr
  · rfl
  · exact hs.sample_class hr
  · rfl
  · exact hs.degree hr
  · exact Nat.le_max_right _ 1
  · exact hs.period_pos hr
  · rw [hcx.degree_eq hc]
  · exact hs.period_dvd hr
  · exact Nat.le_max_right _ 1
  · exact hs.shift_lt hr

/-- The record of a class that is joined to the first one, or of one that stays as it is. -/
theorem joined {k₁ k₂ : Nat} {r₁ r₂ : ClassRecord κ} (hs : Tidy cx there deg s)
    (h₁ : s.classes[k₁]? = some r₁) (h₂ : s.classes[k₂]? = some r₂) (hdegree : deg k₁ = deg k₂)
    (h : Joined s r₁ r₂ t) : Tidy cx there deg t := by
  cases h with
  | same => exact hs
  | @joined p n d cs hp₁ hp₂ hd hcs =>
      have hp : 0 < p := Nat.pos_of_dvd_of_pos hp₁ (hs.period_pos h₁)
      have hcases {k : Nat} {r : ClassRecord κ} (hr : cs[k]? = some r) :
          (r.target = r₁.target ∧ r.sample = r₁.sample ∧ r.period = p ∧ r.shift < p ∧
            p ∣ Nat.max (deg k) 1 ∧ deg k₁ = deg k ∧ ∃ R, s.classes[k]? = some R) ∨
          s.classes[k]? = some r := by
        rw [hcs] at hr
        obtain ⟨R, hR, rfl⟩ := Option.map_eq_some_iff.mp hr
        by_cases hor : R.target = r₁.target ∨ R.target = r₂.target
        · obtain ⟨ht, hsample, hperiod⟩ := ClassRecord.join_of_or (p := p) (d := d) hor
            fun heq => (hs.agree hR h₁ heq).1
          have hk : p ∣ R.period ∧ deg k₁ = deg k := by
            rcases hor with heq | heq
            · rw [(hs.agree hR h₁ heq).2, ← hs.degree hR, heq, hs.degree h₁]
              exact ⟨hp₁, rfl⟩
            · rw [(hs.agree hR h₂ heq).2, ← hs.degree hR, heq, hs.degree h₂]
              exact ⟨hp₂, hdegree⟩
          exact Or.inl ⟨ht, hsample, hperiod, ClassRecord.join_shift_lt hp hor,
            hk.1.trans (hs.period_dvd hR), hk.2, R, hR⟩
        · rw [not_or] at hor
          rw [ClassRecord.join_of_ne hor.1 hor.2]
          exact Or.inr hR
      refine ⟨hs.toFitting.join h₁ hd hcs, ?_, ?_, ?_, ?_, ?_, ?_, ?_⟩ <;> intro k r hr <;>
        rcases hcases hr with ⟨ht, hsample, hperiod, hshift, hdvd, hk, R, hR⟩ | hr
      · exact hs.met hR
      · exact hs.met hr
      · exact hsample ▸ hs.sample_there h₁
      · exact hs.sample_there hr
      · exact hsample ▸ ht ▸ hs.sample_class h₁
      · exact hs.sample_class hr
      · rw [ht, hs.degree h₁, hk]
      · exact hs.degree hr
      · exact hperiod ▸ hp
      · exact hs.period_pos hr
      · exact hperiod ▸ hdvd
      · exact hs.period_dvd hr
      · exact hperiod ▸ hshift
      · exact hs.shift_lt hr

end Tidy

/-! ### Canonical forms -/

variable (cx) in
/-- The direction of a walker, seen from its target. -/
def bearing (s : Survey σ κ) (w : Walker κ) : Int := w.spin - (recordOf cx s w.cell).shift

variable (cx) in
theorem recordOf_cases (s : Survey σ κ) (c : κ) :
    s.classes[cx.classOf s.source c]? = some (recordOf cx s c) ∨
      (s.classes[cx.classOf s.source c]? = none ∧ recordOf cx s c =
        ⟨cx.classOf s.source c, 0, Nat.max (cx.degree s.source c) 1, c⟩) := by
  cases hk : s.classes[cx.classOf s.source c]? with
  | some r => exact Or.inl (by rw [recordOf_of_getElem? hk])
  | none => exact Or.inr ⟨rfl, by simp [recordOf, hk]⟩

namespace Tidy

variable (hcx : cx.Classified there deg) (hs : Tidy cx there deg s)

include hs

theorem recordOf_period_pos (c : κ) : 0 < (recordOf cx s c).period := by
  rcases recordOf_cases cx s c with hr | ⟨-, hr⟩
  · exact hs.period_pos hr
  · rw [hr]
    exact Nat.le_max_right _ 1

include hcx

/-- Going round a cell does not matter. -/
theorem recordOf_period_dvd (hc : there s.source c) :
    (recordOf cx s c).period ∣ Nat.max (cx.degree s.source c) 1 := by
  rcases recordOf_cases cx s c with hr | ⟨-, hr⟩
  · rw [hcx.degree_eq hc]
    exact hs.period_dvd hr
  · rw [hr]

theorem recordOf_period_eq (hc : there s.source c) (hc' : there s.source c')
    (h : (recordOf cx s c).target = (recordOf cx s c').target) :
    (recordOf cx s c).period = (recordOf cx s c').period := by
  rcases recordOf_cases cx s c with hr | ⟨hnone, hr⟩ <;>
    rcases recordOf_cases cx s c' with hr' | ⟨hnone', hr'⟩
  · exact (hs.agree hr hr' h).2
  · rw [hr'] at h
    exact absurd h (hs.target_ne hnone' hr)
  · rw [hr] at h
    exact absurd h.symm (hs.target_ne hnone hr')
  · rw [hr, hr'] at h ⊢
    simp only at h ⊢
    rw [hcx.degree_eq hc, hcx.degree_eq hc', h]

/-- Walkers have the same canonical form when they look in directions of one target that are whole
periods apart. -/
theorem alike_iff (hw : there s.source w.cell) (hw' : there s.source w'.cell) :
    Alike cx s w w' ↔ (recordOf cx s w.cell).target = (recordOf cx s w'.cell).target ∧
      bearing cx s w ≡ bearing cx s w' [ZMOD (recordOf cx s w.cell).period] := by
  rw [Alike, canonicalForm, canonicalForm, Prod.mk.injEq, and_congr_right_iff]
  intro htarget
  exact ClassRecord.residue_eq_iff (hs.recordOf_period_pos _)
    (hs.recordOf_period_eq hcx hw hw' htarget)

theorem bearing_turned (hw : there s.source w.cell) (d : Int) :
    bearing cx s (cx.turned s.source w d) ≡ bearing cx s w + d
      [ZMOD (recordOf cx s w.cell).period] := by
  have hround : ((cx.turned s.source w d).spin : Int) ≡ w.spin + d
      [ZMOD Nat.max (cx.degree s.source w.cell) 1] := cyclicIndex_modEq _ (Nat.le_max_right _ 1)
  have hspin := hround.of_dvd (Int.natCast_dvd_natCast.mpr (hs.recordOf_period_dvd hcx hw))
  calc bearing cx s (cx.turned s.source w d)
      = (cx.turned s.source w d).spin - (recordOf cx s w.cell).shift := rfl
    _ ≡ w.spin + d - (recordOf cx s w.cell).shift [ZMOD (recordOf cx s w.cell).period] :=
        hspin.sub_right _
    _ = bearing cx s w + d := by rw [bearing]; ring

/-- A walker that is turned as far as the other one is ahead of it. -/
theorem alike_turned (w w' : Walker κ) (hw : there s.source w.cell) (hw' : there s.source w'.cell)
    (htarget : (recordOf cx s w.cell).target = (recordOf cx s w'.cell).target) {d : Int}
    (h : bearing cx s w ≡ bearing cx s w' + d [ZMOD (recordOf cx s w.cell).period]) :
    Alike cx s w (cx.turned s.source w' d) := by
  have hcell : there s.source (cx.turned s.source w' d).cell := hw'
  refine (hs.alike_iff hcx hw hcell).mpr ⟨htarget, ?_⟩
  have hturned := hs.bearing_turned hcx hw' d
  rw [← hs.recordOf_period_eq hcx hw hw' htarget] at hturned
  exact h.trans hturned.symm

/-- Having the same canonical form is kept by turning. -/
theorem alike_isTurning : cx.IsTurning s.source (there s.source) (Alike cx s) where
  refl _ := rfl
  symm h _ _ := Eq.symm h
  trans h h' _ _ _ := Eq.trans h h'
  turned {w w'} h hw hw' d := by
    obtain ⟨htarget, hmod⟩ := (hs.alike_iff hcx hw hw').mp h
    refine hs.alike_turned hcx (cx.turned s.source w d) w' hw hw' htarget ?_
    exact (hs.bearing_turned hcx hw d).trans (hmod.add_right d)

end Tidy

/-! ### Two targets are joined -/

section

variable (cx) (s) (w₁ w₂)

/-- How far the residues of two walkers are apart. -/
def gap : Int :=
  (recordOf cx s w₂.cell).residue w₂.spin - (recordOf cx s w₁.cell).residue w₁.spin

/-- The period that their targets have once they are identified. -/
def jointPeriod : Nat := (recordOf cx s w₁.cell).joinPeriod (recordOf cx s w₂.cell) (gap cx s w₁ w₂)

/-- By how much the target of the second one is turned. -/
def jointTurn : Int := (recordOf cx s w₁.cell).joinTurn (recordOf cx s w₂.cell) (gap cx s w₁ w₂)

/-- The class of a walker has one of the two targets. -/
def Affected (w : Walker κ) : Prop :=
  (recordOf cx s w.cell).target = (recordOf cx s w₁.cell).target ∨
    (recordOf cx s w.cell).target = (recordOf cx s w₂.cell).target

/-- The direction of a walker, seen from the target that it has then. -/
def rebearing (w : Walker κ) : Int := bearing cx s w -
  if (recordOf cx s w.cell).target = (recordOf cx s w₂.cell).target then jointTurn cx s w₁ w₂ else 0

/-- The records of all classes are joined by identifying two walkers. -/
structure Merging (there : σ → κ → Prop) (deg : Nat → Nat) (t : Survey σ κ) : Prop where
  before : Tidy cx there deg s
  after : Tidy cx there deg t
  source : t.source = s.source
  first : there s.source w₁.cell
  second : there s.source w₂.cell
  records : ∀ c : κ, recordOf cx t c = (recordOf cx s c).join (recordOf cx s w₁.cell)
    (recordOf cx s w₂.cell) (jointPeriod cx s w₁ w₂) (jointTurn cx s w₁ w₂)

end

/-- The records that are not there yet are joined as well: a class that is not recorded is the
target of none. -/
theorem recordOf_join {r₁ r₂ : ClassRecord κ} {k₁ k₂ p : Nat} {d : Int} (hs : s.classes.Fitting)
    (h₁ : s.classes[k₁]? = some r₁) (h₂ : s.classes[k₂]? = some r₂) (hsource : t.source = s.source)
    (hjoin : ∀ k : Nat, t.classes[k]? = (s.classes[k]?).map (·.join r₁ r₂ p d)) (c : κ) :
    recordOf cx t c = (recordOf cx s c).join r₁ r₂ p d := by
  rcases recordOf_cases cx s c with hr | ⟨hnone, hr⟩
  · exact recordOf_of_getElem? (by rw [hjoin, hsource, hr, Option.map_some])
  · rw [hr, ClassRecord.join_of_ne (hs.target_ne hnone h₁).symm (hs.target_ne hnone h₂).symm]
    simp [recordOf, hjoin, hsource, hnone]

theorem jointPeriod_dvd_first : jointPeriod cx s w₁ w₂ ∣ (recordOf cx s w₁.cell).period :=
  ClassRecord.joinPeriod_dvd_left

theorem jointPeriod_dvd_second : jointPeriod cx s w₁ w₂ ∣ (recordOf cx s w₂.cell).period :=
  ClassRecord.joinPeriod_dvd_right

namespace Merging

variable (hcx : cx.Classified there deg) (h : Merging cx s w₁ w₂ there deg t)

include h

theorem period_pos : 0 < jointPeriod cx s w₁ w₂ :=
  Nat.pos_of_dvd_of_pos jointPeriod_dvd_first (h.before.recordOf_period_pos _)

/-- Residues are as far apart as the directions that they come from. -/
theorem gap_modEq {n : Nat} (h₁ : n ∣ (recordOf cx s w₁.cell).period)
    (h₂ : n ∣ (recordOf cx s w₂.cell).period) :
    gap cx s w₁ w₂ ≡ bearing cx s w₂ - bearing cx s w₁ [ZMOD n] := by
  have hfirst := ClassRecord.residue_modEq (h.before.recordOf_period_pos w₁.cell) w₁.spin
  have hsecond := ClassRecord.residue_modEq (h.before.recordOf_period_pos w₂.cell) w₂.spin
  exact (hsecond.of_dvd (Int.natCast_dvd_natCast.mpr h₂)).sub
    (hfirst.of_dvd (Int.natCast_dvd_natCast.mpr h₁))

/-- A single target is not turned, but then its period divides the gap. -/
theorem jointTurn_modEq : jointTurn cx s w₁ w₂ ≡ bearing cx s w₂ - bearing cx s w₁
    [ZMOD jointPeriod cx s w₁ w₂] := by
  refine Int.ModEq.trans ?_ (h.gap_modEq jointPeriod_dvd_first jointPeriod_dvd_second)
  rw [jointTurn, ClassRecord.joinTurn, jointPeriod, ClassRecord.joinPeriod]
  by_cases htarget : (recordOf cx s w₁.cell).target = (recordOf cx s w₂.cell).target
  · rw [if_pos htarget, if_pos htarget]
    refine (Int.modEq_zero_iff_dvd.mpr ?_).symm
    exact Int.natCast_dvd.mpr (Nat.gcd_dvd_right _ _)
  · rw [if_neg htarget, if_neg htarget]

theorem target_eq (c : κ) : (recordOf cx t c).target =
    if (recordOf cx s c).target = (recordOf cx s w₂.cell).target then
      (recordOf cx s w₁.cell).target
    else (recordOf cx s c).target := by
  rw [h.records, ClassRecord.join_target]

/-- Both walkers have one of the two targets, or none of them has. -/
theorem affected_iff (htarget : (recordOf cx t w.cell).target = (recordOf cx t w'.cell).target) :
    Affected cx s w₁ w₂ w ↔ Affected cx s w₁ w₂ w' := by
  rw [h.target_eq, h.target_eq] at htarget
  unfold Affected
  grind

theorem bearing_modEq (hw : Affected cx s w₁ w₂ w) :
    bearing cx t w ≡ rebearing cx s w₁ w₂ w [ZMOD jointPeriod cx s w₁ w₂] := by
  have hshift := ClassRecord.join_shift (d := jointTurn cx s w₁ w₂) h.period_pos hw
  rw [bearing, rebearing, bearing, h.records, sub_sub]
  exact hshift.sub_left _

include hcx

/-- The walkers that have one of the two targets have canonical forms of the joint period. -/
theorem alike_of_affected (hw : there s.source w.cell) (hw' : there s.source w'.cell)
    (ha : Affected cx s w₁ w₂ w) (ha' : Affected cx s w₁ w₂ w') :
    Alike cx t w w' ↔ rebearing cx s w₁ w₂ w ≡ rebearing cx s w₁ w₂ w'
      [ZMOD jointPeriod cx s w₁ w₂] := by
  have hone {v : Walker κ} (hv : Affected cx s w₁ w₂ v) :
      (recordOf cx t v.cell).target = (recordOf cx s w₁.cell).target := by
    rw [h.target_eq]
    split
    · rfl
    · exact hv.resolve_right ‹_›
  have hb := h.bearing_modEq ha
  have hb' := h.bearing_modEq ha'
  rw [← h.source] at hw hw'
  rw [h.after.alike_iff hcx hw hw', hone ha, hone ha', h.records w.cell, ClassRecord.join_period ha]
  constructor
  · rintro ⟨-, hmod⟩
    exact hb.symm.trans (hmod.trans hb')
  · intro hmod
    exact ⟨rfl, hb.trans (hmod.trans hb'.symm)⟩

omit hcx in
/-- Other walkers keep their canonical forms. -/
theorem alike_of_not_affected (ha : ¬ Affected cx s w₁ w₂ w) (ha' : ¬ Affected cx s w₁ w₂ w') :
    Alike cx t w w' ↔ Alike cx s w w' := by
  have hkeep {v : Walker κ} (hv : ¬ Affected cx s w₁ w₂ v) :
      canonicalForm cx t v = canonicalForm cx s v := by
    rw [Affected, not_or] at hv
    rw [canonicalForm, canonicalForm, h.records, ClassRecord.join_of_ne hv.1 hv.2]
  rw [Alike, Alike, hkeep ha, hkeep ha']

theorem jointPeriod_dvd (hw : there s.source w.cell) (ha : Affected cx s w₁ w₂ w) :
    jointPeriod cx s w₁ w₂ ∣ (recordOf cx s w.cell).period := by
  rcases ha with htarget | htarget
  · rw [h.before.recordOf_period_eq hcx hw h.first htarget]
    exact jointPeriod_dvd_first
  · rw [h.before.recordOf_period_eq hcx hw h.second htarget]
    exact jointPeriod_dvd_second

/-- Canonical forms that are the same stay so. -/
theorem alike_of_alike (hw : there s.source w.cell) (hw' : there s.source w'.cell)
    (halike : Alike cx s w w') : Alike cx t w w' := by
  obtain ⟨htarget, hmod⟩ := (h.before.alike_iff hcx hw hw').mp halike
  have hiff : Affected cx s w₁ w₂ w ↔ Affected cx s w₁ w₂ w' := by rw [Affected, Affected, htarget]
  by_cases ha : Affected cx s w₁ w₂ w
  · refine (h.alike_of_affected hcx hw hw' ha (hiff.mp ha)).mpr ?_
    have hdvd := Int.natCast_dvd_natCast.mpr (h.jointPeriod_dvd hcx hw ha)
    rw [rebearing, rebearing, htarget]
    exact (hmod.of_dvd hdvd).sub_right _
  · exact (h.alike_of_not_affected ha (mt hiff.mpr ha)).mpr halike

/-- The two walkers have the same canonical form then. -/
theorem alike_pair : Alike cx t w₁ w₂ := by
  refine (h.alike_of_affected hcx h.first h.second (Or.inl rfl) (Or.inr rfl)).mpr ?_
  have hfirst : rebearing cx s w₁ w₂ w₁ = bearing cx s w₁ := by
    simp only [rebearing, jointTurn, ClassRecord.joinTurn]
    grind
  rw [hfirst, rebearing, if_pos rfl]
  simpa using (h.jointTurn_modEq.sub_left (bearing cx s w₂)).symm

/-! ### No more walkers are identified than have to be -/

section Least

variable {Q : Walker κ → Walker κ → Prop}
  (hQ : cx.Extends s.source (there s.source) (Alike cx s) w₁ w₂ Q)

variable (cx s w₁) in
/-- The walker in the cell of the first one that looks in direction `z`, seen from its target. -/
def facing (z : Int) : Walker κ := cx.turned s.source w₁ (z - bearing cx s w₁)

variable (cx s w₁ w₂) in
/-- Its counterpart in the cell of the second one. -/
def opposite (z : Int) : Walker κ := cx.turned s.source w₂ (z - bearing cx s w₁)

include hQ

omit hcx in
/-- The two cells have been turned alike. -/
theorem facing_opposite (z : Int) : Q (facing cx s w₁ z) (opposite cx s w₁ w₂ z) :=
  hQ.turned hQ.pair h.first h.second _

theorem facing_first (z : Int) :
    Q (facing cx s w₁ z) (facing cx s w₁ (z + (recordOf cx s w₁.cell).period)) := by
  refine hQ.contains (h.before.alike_turned hcx (facing cx s w₁ z) w₁ h.first h.first rfl ?_)
    h.first h.first
  calc bearing cx s (facing cx s w₁ z)
      ≡ bearing cx s w₁ + (z - bearing cx s w₁) [ZMOD (recordOf cx s w₁.cell).period] :=
        h.before.bearing_turned hcx h.first _
    _ ≡ bearing cx s w₁ + (z + (recordOf cx s w₁.cell).period - bearing cx s w₁)
          [ZMOD (recordOf cx s w₁.cell).period] := Int.modEq_iff_dvd.mpr ⟨1, by ring⟩

theorem facing_second (z : Int) :
    Q (facing cx s w₁ z) (facing cx s w₁ (z + (recordOf cx s w₂.cell).period)) := by
  have halike : Alike cx s (opposite cx s w₁ w₂ z)
      (opposite cx s w₁ w₂ (z + (recordOf cx s w₂.cell).period)) := by
    refine h.before.alike_turned hcx (opposite cx s w₁ w₂ z) w₂ h.second h.second rfl ?_
    calc bearing cx s (opposite cx s w₁ w₂ z)
        ≡ bearing cx s w₂ + (z - bearing cx s w₁) [ZMOD (recordOf cx s w₂.cell).period] :=
          h.before.bearing_turned hcx h.second _
      _ ≡ bearing cx s w₂ + (z + (recordOf cx s w₂.cell).period - bearing cx s w₁)
            [ZMOD (recordOf cx s w₂.cell).period] := Int.modEq_iff_dvd.mpr ⟨1, by ring⟩
  have hacross := hQ.contains halike h.second h.second
  have hback := hQ.symm (h.facing_opposite hQ (z + (recordOf cx s w₂.cell).period)) h.first h.second
  exact hQ.trans (h.facing_opposite hQ z) (hQ.trans hacross hback h.second h.second h.first)
    h.first h.second h.first

/-- Directions of one target are related when they are as far apart as the two walkers. -/
theorem facing_gap (htarget : (recordOf cx s w₁.cell).target = (recordOf cx s w₂.cell).target)
    (z : Int) : Q (facing cx s w₁ z) (facing cx s w₁ (z + gap cx s w₁ w₂)) := by
  have hperiod := h.before.recordOf_period_eq hcx h.first h.second htarget
  have halike : Alike cx s (opposite cx s w₁ w₂ z) (facing cx s w₁ (z + gap cx s w₁ w₂)) := by
    refine h.before.alike_turned hcx (opposite cx s w₁ w₂ z) w₁ h.second h.first htarget.symm ?_
    calc bearing cx s (opposite cx s w₁ w₂ z)
        ≡ bearing cx s w₂ + (z - bearing cx s w₁) [ZMOD (recordOf cx s w₂.cell).period] :=
          h.before.bearing_turned hcx h.second _
      _ = z + (bearing cx s w₂ - bearing cx s w₁) := by ring
      _ ≡ z + gap cx s w₁ w₂ [ZMOD (recordOf cx s w₂.cell).period] := ?_
      _ = bearing cx s w₁ + (z + gap cx s w₁ w₂ - bearing cx s w₁) := by ring
    exact (h.gap_modEq (hperiod ▸ dvd_rfl) dvd_rfl).symm.add_left z
  exact hQ.trans (h.facing_opposite hQ z) (hQ.contains halike h.second h.first) h.first h.second
    h.first

/-- Directions a joint period apart are related. -/
theorem facing_modEq {z z' : Int} (hz : z ≡ z' [ZMOD jointPeriod cx s w₁ w₂]) :
    Q (facing cx s w₁ z) (facing cx s w₁ z') := by
  have hR : Equivalence fun z z' => Q (facing cx s w₁ z) (facing cx s w₁ z') := by
    refine ⟨fun _ => hQ.refl h.first, fun hz => hQ.symm hz h.first h.first, fun hz hz' => ?_⟩
    exact hQ.trans hz hz' h.first h.first h.first
  have hboth := shift_gcd hR (h.facing_first hcx hQ) (h.facing_second hcx hQ)
  refine equivalence_of_modEq hR (shift_gcd hR hboth fun z => ?_) hz
  by_cases htarget : (recordOf cx s w₁.cell).target = (recordOf cx s w₂.cell).target
  · rw [if_pos htarget]
    have hgap := h.facing_gap hcx hQ htarget
    rcases Int.natAbs_eq (gap cx s w₁ w₂) with hn | hn
    · rw [← hn]
      exact hgap z
    · have hback := hgap (z + (gap cx s w₁ w₂).natAbs)
      have hz : z + (gap cx s w₁ w₂).natAbs + gap cx s w₁ w₂ = z := by omega
      rw [hz] at hback
      exact hQ.symm hback h.first h.first
  · rw [if_neg htarget, Int.natAbs_zero, Nat.cast_zero, add_zero]
    exact hQ.refl h.first

/-- A walker that has one of the two targets is related to one in the cell of the first one. -/
theorem exists_facing (hw : there s.source w.cell) (ha : Affected cx s w₁ w₂ w) :
    ∃ z, Q w (facing cx s w₁ z) ∧
      z ≡ rebearing cx s w₁ w₂ w [ZMOD jointPeriod cx s w₁ w₂] := by
  by_cases htarget : (recordOf cx s w.cell).target = (recordOf cx s w₂.cell).target
  · let z := bearing cx s w - (bearing cx s w₂ - bearing cx s w₁)
    have halike : Alike cx s w (opposite cx s w₁ w₂ z) :=
      h.before.alike_turned hcx w w₂ hw h.second htarget (Int.modEq_iff_dvd.mpr ⟨0, by ring⟩)
    have hacross := hQ.symm (h.facing_opposite hQ z) h.first h.second
    refine ⟨z, hQ.trans (hQ.contains halike hw h.second) hacross hw h.second h.first, ?_⟩
    rw [rebearing, if_pos htarget]
    exact (h.jointTurn_modEq.sub_left _).symm
  · have halike : Alike cx s w (facing cx s w₁ (bearing cx s w)) :=
      h.before.alike_turned hcx w w₁ hw h.first (ha.resolve_right htarget)
        (Int.modEq_iff_dvd.mpr ⟨0, by ring⟩)
    refine ⟨bearing cx s w, hQ.contains halike hw h.first, ?_⟩
    rw [rebearing, if_neg htarget, sub_zero]

/-- The walkers that have the same canonical form then are related. -/
theorem related (hw : there s.source w.cell) (hw' : there s.source w'.cell)
    (halike : Alike cx t w w') : Q w w' := by
  have htarget : (recordOf cx t w.cell).target = (recordOf cx t w'.cell).target :=
    congrArg Prod.fst halike
  have hiff := h.affected_iff htarget
  by_cases ha : Affected cx s w₁ w₂ w
  · have ha' := hiff.mp ha
    have hmod := (h.alike_of_affected hcx hw hw' ha ha').mp halike
    obtain ⟨z, hz, hzw⟩ := h.exists_facing hcx hQ hw ha
    obtain ⟨z', hz', hzw'⟩ := h.exists_facing hcx hQ hw' ha'
    have hfacing := h.facing_modEq hcx hQ (hzw.trans (hmod.trans hzw'.symm))
    have hfacing' := hQ.trans hfacing (hQ.symm hz' hw' h.first) h.first h.first hw'
    exact hQ.trans hz hfacing' hw h.first hw'
  · exact hQ.contains ((h.alike_of_not_affected ha (mt hiff.mpr ha)).mp halike) hw hw'

end Least

/-- **Canonical forms are joined**: they become the least equivalence kept by turning that contains
what has been, and relates the two walkers. -/
theorem alike_iff (hw : there s.source w.cell) (hw' : there s.source w'.cell) :
    Alike cx t w w' ↔ cx.Spanned s.source (there s.source) (Alike cx s) w₁ w₂ w w' := by
  refine ⟨fun halike Q hQ => h.related hcx hQ hw hw' halike, fun hspan => hspan _ ?_⟩
  have hturning := h.after.alike_isTurning hcx
  rw [h.source] at hturning
  exact ⟨hturning, fun halike hv hv' => h.alike_of_alike hcx hv hv' halike, h.alike_pair hcx⟩

end Merging

/-! ### Identifying two walkers -/

section

variable {r₁ r₂ : ClassRecord κ} {s₁ s₂ : Survey σ κ}

/-- The classes of two walkers are recorded before they are identified. -/
theorem identify_of_record (h₁ : record cx w₁.cell s = .ok r₁ s₁)
    (h₂ : record cx w₂.cell s₁ = .ok r₂ s₂) :
    s₂.classes[cx.classOf s₂.source w₁.cell]? = some r₁ ∧
      s₂.classes[cx.classOf s₂.source w₂.cell]? = some r₂ ∧
      identify cx w₁ w₂ s = identify cx w₁ w₂ s₂ := by
  obtain ⟨hsource₁, -⟩ := record_source h₁
  obtain ⟨hsource₂, hchanges₂⟩ := record_source h₂
  have hr₁ := (record_advances h₂).records hchanges₂ _ r₁ (record_getElem? h₁)
  have hr₂ := record_getElem? h₂
  rw [← hsource₁, ← hsource₂] at hr₁
  rw [← hsource₂] at hr₂
  refine ⟨hr₁, hr₂, ?_⟩
  simp only [identify, bind, EStateM.bind, h₁, h₂, record_eq_ok hr₁, record_eq_ok hr₂]

end

variable (cx there) in
/-- Some walkers have the same canonical form in `t` that had not in `s`. -/
def Grown (s t : Survey σ κ) : Prop :=
  ∃ w w', there s.source w.cell ∧ there s.source w'.cell ∧ Alike cx t w w' ∧ ¬ Alike cx s w w'

variable (cx there) in
/-- What identifying two walkers of `s` has led to: their canonical forms are joined, and that is
counted unless they have been the same. -/
structure Spans (s : Survey σ κ) (w₁ w₂ : Walker κ) (t : Survey σ κ) : Prop where
  source : t.source = s.source
  alike : ∀ w w', there s.source w.cell → there s.source w'.cell →
    (Alike cx t w w' ↔ cx.Spanned s.source (there s.source) (Alike cx s) w₁ w₂ w w')
  changes : (Grown cx there s t ∧ t.changes = s.changes + 1) ∨
    (¬ Grown cx there s t ∧ t.changes = s.changes)

namespace Tidy

variable (hcx : cx.Classified there deg) (hs : Tidy cx there deg s)
  (hw₁ : there s.source w₁.cell) (hw₂ : there s.source w₂.cell)

include hcx hs hw₁ hw₂

/-- Two walkers in cells of equal degree whose classes are recorded. -/
theorem identify_recorded {r₁ r₂ : ClassRecord κ}
    (h₁ : s.classes[cx.classOf s.source w₁.cell]? = some r₁)
    (h₂ : s.classes[cx.classOf s.source w₂.cell]? = some r₂)
    (hdegree : cx.degree s.source w₁.cell = cx.degree s.source w₂.cell) :
    ∃ t, identify cx w₁ w₂ s = .ok () t ∧ Tidy cx there deg t ∧ Spans cx there s w₁ w₂ t := by
  rw [identify_eq h₁ h₂, if_pos hdegree]
  refine ⟨_, rfl, ?_⟩
  have hr₁ := recordOf_of_getElem? h₁
  have hr₂ := recordOf_of_getElem? h₂
  cases hidentify : s.classes.identify r₁ w₁.spin r₂ w₂.spin with
  | none =>
      have hpair : Alike cx s w₁ w₂ := by
        obtain ⟨htarget, hresidue⟩ := Classes.identify_eq_none.mp hidentify
        rw [Alike, canonicalForm, canonicalForm, hr₁, hr₂, htarget, hresidue]
      refine ⟨hs, rfl, fun w w' hw hw' => ?_, Or.inr ⟨?_, rfl⟩⟩
      · refine ⟨fun halike Q hQ => hQ.contains halike hw hw', fun hspan => hspan _ ?_⟩
        exact ⟨hs.alike_isTurning hcx, fun halike _ _ => halike, hpair⟩
      · rintro ⟨w, w', -, -, halike, hnot⟩
        exact hnot halike
  | some cs =>
      have hdeg : deg (cx.classOf s.source w₁.cell) = deg (cx.classOf s.source w₂.cell) := by
        rw [← hcx.degree_eq hw₁, ← hcx.degree_eq hw₂, hdegree]
      have hjoin := Classes.identify_join (fun k r hr htarget => (hs.agree hr h₁ htarget).1)
        (fun htarget => (hs.agree h₁ h₂ htarget).2) hidentify
      have ht : Tidy cx there deg ⟨s.source, cs, s.changes + 1⟩ := hs.joined h₁ h₂ hdeg
        (.joined ClassRecord.joinPeriod_dvd_left ClassRecord.joinPeriod_dvd_right
          ClassRecord.joinTurn_eq_zero hjoin)
      have hmerging : Merging cx s w₁ w₂ there deg ⟨s.source, cs, s.changes + 1⟩ := by
        refine ⟨hs, ht, rfl, hw₁, hw₂, ?_⟩
        rw [jointPeriod, jointTurn, gap, hr₁, hr₂]
        exact recordOf_join hs.toFitting h₁ h₂ rfl hjoin
      refine ⟨ht, rfl, fun w w' hw hw' => hmerging.alike_iff hcx hw hw', Or.inl ⟨?_, rfl⟩⟩
      refine ⟨w₁, w₂, hw₁, hw₂, hmerging.alike_pair hcx, fun halike => ?_⟩
      rw [Alike, canonicalForm, canonicalForm, hr₁, hr₂, Prod.mk.injEq] at halike
      rw [Classes.identify_eq_none.mpr halike] at hidentify
      cases hidentify

/-- The survey in which the two classes are recorded is as good as this one. -/
theorem exists_recorded : ∃ r₁ r₂ u, Tidy cx there deg u ∧ Worked cx there s u ∧
    u.source = s.source ∧ u.changes = s.changes ∧
    u.classes[cx.classOf u.source w₁.cell]? = some r₁ ∧
    u.classes[cx.classOf u.source w₂.cell]? = some r₂ ∧
    identify cx w₁ w₂ s = identify cx w₁ w₂ u ∧ ∀ w w', there s.source w.cell →
      there s.source w'.cell → (Alike cx u w w' ↔ Alike cx s w w') := by
  obtain ⟨s₁, h₁⟩ := exists_record cx s w₁.cell
  obtain ⟨s₂, h₂⟩ := exists_record cx s₁ w₂.cell
  obtain ⟨hsource₁, hchanges₁⟩ := record_source h₁
  obtain ⟨hsource₂, hchanges₂⟩ := record_source h₂
  obtain ⟨hr₁, hr₂, hidentify⟩ := identify_of_record h₁ h₂
  have hw₂' : there s₁.source w₂.cell := hsource₁ ▸ hw₂
  have hs₁ := hs.record hcx hw₁ h₁
  have hworked : Worked cx there s s₂ := .tail (.single (.recorded hw₁ h₁)) (.recorded hw₂' h₂)
  refine ⟨_, _, s₂, hs₁.record hcx hw₂' h₂, hworked, hsource₂.trans hsource₁,
    hchanges₂.trans hchanges₁, hr₁, hr₂, hidentify, fun w w' hw hw' => ?_⟩
  rw [alike_record hcx hw₂' h₂ (hsource₁ ▸ hw) (hsource₁ ▸ hw'), alike_record hcx hw₁ h₁ hw hw']

/-- Walkers in cells of equal degree are identified. -/
theorem identify (hdegree : cx.degree s.source w₁.cell = cx.degree s.source w₂.cell) :
    ∃ t, Surveying.identify cx w₁ w₂ s = .ok () t ∧ Tidy cx there deg t ∧
      Spans cx there s w₁ w₂ t := by
  obtain ⟨r₁, r₂, u, hu, -, hsource, hchanges, h₁, h₂, hidentify, halike⟩ :=
    hs.exists_recorded hcx hw₁ hw₂
  rw [hidentify]
  rw [← hsource] at hw₁ hw₂ hdegree
  obtain ⟨t, ht, htidy, hspans⟩ := hu.identify_recorded hcx hw₁ hw₂ h₁ h₂ hdegree
  refine ⟨t, ht, htidy, hspans.source.trans hsource, fun w w' hw hw' => ?_, ?_⟩
  · have hiff := hspans.alike w w' (hsource ▸ hw) (hsource ▸ hw')
    rw [hsource] at hiff
    refine hiff.trans ⟨fun hspan Q hQ => hspan Q (hQ.congr (halike _ _)), fun hspan Q hQ => ?_⟩
    exact hspan Q (hQ.congr fun hv hv' => (halike _ _ hv hv').symm)
  · have hgrown : Grown cx there u t ↔ Grown cx there s t := by
      simp only [Grown, hsource]
      refine exists_congr fun w => exists_congr fun w' => and_congr_right fun hw =>
        and_congr_right fun hw' => and_congr_right fun _ => not_congr (halike w w' hw hw')
    rw [← hgrown, ← hchanges]
    exact hspans.changes

/-- Walkers in cells of different degrees are not. -/
theorem identify_error (hdegree : cx.degree s.source w₁.cell ≠ cx.degree s.source w₂.cell) :
    ∃ t, Surveying.identify cx w₁ w₂ s = .error (.degreeMismatch (cx.degree s.source w₁.cell)
      (cx.degree s.source w₂.cell)) t ∧ Worked cx there s t ∧ t.source = s.source ∧
      t.changes = s.changes ∧ ∀ w w', there s.source w.cell → there s.source w'.cell →
        (Alike cx t w w' ↔ Alike cx s w w') := by
  obtain ⟨r₁, r₂, u, -, hworked, hsource, hchanges, h₁, h₂, hidentify, halike⟩ :=
    hs.exists_recorded hcx hw₁ hw₂
  refine ⟨u, ?_, hworked, hsource, hchanges, halike⟩
  rw [hidentify, identify_eq h₁ h₂, hsource, if_neg hdegree]

end Tidy

/-- A step keeps the records tidy. -/
theorem Tidy.operated (hcx : cx.Classified there deg) (hs : Tidy cx there deg s)
    (h : Operated cx there s t) : Tidy cx there deg t := by
  cases h with
  | walked h => exact hs.walked hcx h
  | recorded hc h => exact hs.record hcx hc h
  | identified hw₁ hw₂ h =>
      obtain ⟨-, -, -, -, -, -, hdegree, -⟩ := identify_ok h
      obtain ⟨t, ht, htidy, -⟩ := hs.identify hcx hw₁ hw₂ hdegree
      cases ht.symm.trans h
      exact htidy

theorem Tidy.worked (hcx : cx.Classified there deg) (hs : Tidy cx there deg s)
    (h : Worked cx there s t) : Tidy cx there deg t := by
  induction h with
  | refl => exact hs
  | tail _ hstep ih => exact ih.operated hcx hstep

theorem Tidy.start (source : σ) (n : Nat) : Tidy cx there deg ⟨source, ∅, n⟩ := by
  refine ⟨⟨?_, ?_⟩, ?_, ?_, ?_, ?_, ?_, ?_, ?_⟩ <;> intros <;> simp_all

theorem Tidy.recounted (hs : Tidy cx there deg s) (n : Nat) :
    Tidy cx there deg { s with changes := n } :=
  ⟨hs.toFitting, hs.met, hs.sample_there, hs.sample_class, hs.degree, hs.period_pos, hs.period_dvd,
    hs.shift_lt⟩

/-- The records of an analysis are tidy at any time. -/
theorem Surveyed.tidy (hcx : cx.Classified there deg) (hs : Surveyed cx there s₀ s) :
    Tidy cx there deg s := by
  induction hs with
  | started => exact .start _ _
  | operated _ h ih => exact ih.operated hcx h
  | recounted _ n ih => exact ih.recounted n

/-- **Merging classes computes the join.**  Whatever has been identified so far, the records are
tidy.  Two walkers in cells of equal degree are identified, so that having the same canonical form
is the least equivalence kept by turning that contains what it has been and relates the two; this is
counted as a change exactly if walkers have come to be related.  Walkers in cells of different
degrees are refused, and then no walkers are related that were not. -/
theorem identify_spans (hcx : cx.Classified there deg) (hs : Surveyed cx there s₀ s) :
    Tidy cx there deg s ∧
    ∀ w₁ w₂, there s.source w₁.cell → there s.source w₂.cell →
      (cx.degree s.source w₁.cell = cx.degree s.source w₂.cell →
        ∃ t, identify cx w₁ w₂ s = .ok () t ∧ Spans cx there s w₁ w₂ t) ∧
      (cx.degree s.source w₁.cell ≠ cx.degree s.source w₂.cell →
        ∃ t, identify cx w₁ w₂ s = .error (.degreeMismatch (cx.degree s.source w₁.cell)
          (cx.degree s.source w₂.cell)) t ∧ t.source = s.source ∧ t.changes = s.changes ∧
          ∀ w w', there s.source w.cell → there s.source w'.cell →
            (Alike cx t w w' ↔ Alike cx s w w')) := by
  have htidy := hs.tidy hcx
  refine ⟨htidy, fun w₁ w₂ hw₁ hw₂ => ⟨fun hdegree => ?_, fun hdegree => ?_⟩⟩
  · obtain ⟨t, ht, -, hspans⟩ := htidy.identify hcx hw₁ hw₂ hdegree
    exact ⟨t, ht, hspans⟩
  · obtain ⟨t, ht, -, hkept⟩ := htidy.identify_error hcx hw₁ hw₂ hdegree
    exact ⟨t, ht, hkept⟩

/-- In a row of two folded digons, the two edges of the first one are identified before anything has
been recorded. -/
theorem folded_spans : folded.complex.Classified (CellTable.Placed folded) folded.sidesOf ∧
    Surveyed folded.complex (CellTable.Placed folded) () ⟨(), ∅, 0⟩ ∧
    CellTable.Placed folded () 0 ∧
    ¬ Alike folded.complex ⟨(), ∅, 0⟩ ⟨0, 0⟩ ⟨0, 1⟩ ∧
    ∃ t, identify folded.complex ⟨0, 0⟩ ⟨0, 1⟩ ⟨(), ∅, 0⟩ = .ok () t ∧
      Alike folded.complex t ⟨0, 0⟩ ⟨0, 1⟩ ∧ t.changes = 1 := by
  have hcx : folded.complex.Surveyable () (CellTable.Placed folded) folded.sidesOf :=
    CellTable.complex_surveyable (by decide)
  have hs : Surveyed folded.complex (CellTable.Placed folded) () ⟨(), ∅, 0⟩ :=
    .started (c := 0) rfl
  have hplaced : CellTable.Placed folded () 0 := Nat.zero_lt_two
  have hnot : ¬ Alike folded.complex ⟨(), ∅, 0⟩ ⟨0, 0⟩ ⟨0, 1⟩ := by
    intro h
    have hspin : (0 : Nat) = 1 := congrArg Prod.snd h
    cases hspin
  obtain ⟨-, h⟩ := identify_spans hcx.toClassified hs
  obtain ⟨t, ht, hspans⟩ := (h ⟨0, 0⟩ ⟨0, 1⟩ hplaced hplaced).1 rfl
  have halike : Alike folded.complex t ⟨0, 0⟩ ⟨0, 1⟩ :=
    (hspans.alike _ _ hplaced hplaced).mpr fun _ hQ => hQ.pair
  refine ⟨hcx.toClassified, hs, hplaced, hnot, t, ht, halike, ?_⟩
  rcases hspans.changes with ⟨-, hchanges⟩ | ⟨hgrown, -⟩
  · exact hchanges
  · exact absurd ⟨_, _, hplaced, hplaced, halike, hnot⟩ hgrown

end Surveying

end Mosaic
