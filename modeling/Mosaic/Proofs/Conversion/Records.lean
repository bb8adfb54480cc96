import Mathlib.Tactic.Ring
import Mosaic.Proofs.Conversion.Congruence

/-!
# Conversion — records that say what is forced

A record says that its class looks like the sample when turned by the shift, and that the sample
looks the same when turned by the period.  Both have to be forced (`CellComplex.RecordSound`).

* `CellComplex.RecordsSound`: all records are sound, and those of one target agree on the sample
  and on the period.
* `RecordsSound.insert`, `RecordsSound.merge`, `RecordsSound.narrow`: a new class, and the two ways
  in which classes come to be identified.
-/

namespace Mosaic

theorem ClassRecord.residue_modEq {κ : Type} {r : ClassRecord κ} (h : 0 < r.period)
    (spin : Nat) : (r.residue spin : Int) ≡ spin - r.shift [ZMOD r.period] :=
  cyclicIndex_modEq _ h

theorem ClassRecord.residue_eq_iff {κ : Type} {r r' : ClassRecord κ} (hpos : 0 < r.period)
    (h : r.period = r'.period) {i i' : Nat} :
    r.residue i = r'.residue i' ↔ (i : Int) - r.shift ≡ i' - r'.shift [ZMOD r.period] := by
  rw [ClassRecord.residue, ClassRecord.residue, ← h, cyclicIndex_eq_iff hpos]

namespace CellComplex

variable {α σ κ : Type} (cx : CellComplex α σ κ)

/-- The cells of a class look like those of the sample, turned by the shift. -/
def Looks (s₀ s : σ) (k : Nat) (sample : κ) (shift : Int) : Prop :=
  ∃ c, cx.Reached s₀ s c ∧ cx.classOf s c = k ∧ cx.degree s c = cx.degree s sample ∧
    ∀ z, cx.Forced s₀ s (cx.walker s c z) (cx.walker s sample (z - shift))

/-- What a record of class `k` says is forced. -/
structure RecordSound (s₀ s : σ) (k : Nat) (r : ClassRecord κ) : Prop where
  sample : cx.Reached s₀ s r.sample
  period_pos : 0 < r.period
  period_dvd : r.period ∣ cx.degree s r.sample
  periodic : cx.SelfLike s₀ s r.sample r.period
  looks : cx.Looks s₀ s k r.sample r.shift

/-- What the records say is forced, and records of one target agree. -/
structure RecordsSound (s₀ s : σ) (cs : Classes κ) : Prop where
  record : ∀ (k : Nat) (r : ClassRecord κ), cs[k]? = some r → cx.RecordSound s₀ s k r
  target : ∀ (k : Nat) (r : ClassRecord κ), cs[k]? = some r →
    ∃ r' : ClassRecord κ, cs[r.target]? = some r'
  agree : ∀ (k k' : Nat) (r r' : ClassRecord κ), cs[k]? = some r → cs[k']? = some r' →
    r.target = r'.target → r.sample = r'.sample ∧ r.period = r'.period

variable {cx} {s₀ s t : σ} (hcx : cx.Lawful s₀) (hs : cx.Reachable s₀ s)

include hcx hs

/-- All cells of the class look alike. -/
theorem Looks.of_class {k : Nat} {sample c : κ} {shift : Int} (h : cx.Looks s₀ s k sample shift)
    (hc : cx.Reached s₀ s c) (hclass : cx.classOf s c = k) :
    cx.degree s c = cx.degree s sample ∧
      ∀ z, cx.Forced s₀ s (cx.walker s c z) (cx.walker s sample (z - shift)) := by
  obtain ⟨c', hc', hclass', hdegree, hlike⟩ := h
  have heq : cx.classOf s c = cx.classOf s c' := hclass.trans hclass'.symm
  refine ⟨(hcx.degree_eq hs hc.pos hc'.pos heq).trans hdegree, fun z => ?_⟩
  exact (Forced.of_class hcx hs hc hc' heq z).trans (hlike z)

theorem Looks.later (ht : cx.Later s t) {k : Nat} {sample : κ} {shift : Int}
    (hpos : 0 < cx.degree s sample) (h : cx.Looks s₀ s k sample shift) :
    cx.Looks s₀ t k sample shift := by
  obtain ⟨c, hc, hclass, hdegree, hlike⟩ := h
  obtain ⟨hd, hcl⟩ := hcx.later_stable hs ht hc.pos
  have hd' := (hcx.later_stable hs ht hpos).1
  refine ⟨c, hc.later hcx hs ht, hcl.trans hclass, hd.trans (hdegree.trans hd'.symm), fun z => ?_⟩
  rw [walker_later hcx hs ht hc.pos, walker_later hcx hs ht hpos]
  exact (hlike z).later ht

theorem RecordSound.later (ht : cx.Later s t) {k : Nat} {r : ClassRecord κ}
    (h : cx.RecordSound s₀ s k r) : cx.RecordSound s₀ t k r where
  sample := h.sample.later hcx hs ht
  period_pos := h.period_pos
  period_dvd := by
    rw [(hcx.later_stable hs ht h.sample.pos).1]
    exact h.period_dvd
  periodic := h.periodic.later hcx hs ht h.sample.pos
  looks := h.looks.later hcx hs ht h.sample.pos

theorem RecordsSound.later (ht : cx.Later s t) {cs : Classes κ}
    (h : cx.RecordsSound s₀ s cs) : cx.RecordsSound s₀ t cs where
  record k r hr := (h.record k r hr).later hcx hs ht
  target := h.target
  agree := h.agree

/-- A walker looks like the walker in the sample that its canonical form names. -/
theorem RecordSound.forced {w : Walker κ} {r : ClassRecord κ}
    (h : cx.RecordSound s₀ s (cx.classOf s w.cell) r) (hw : cx.Reached s₀ s w.cell)
    (hstand : cx.Stands s w) :
    cx.Forced s₀ s w (cx.walker s r.sample (r.residue w.spin)) := by
  have hlike := (h.looks.of_class hcx hs hw rfl).2 w.spin
  rw [hstand.eq_walker] at hlike
  exact hlike.trans
    (h.periodic.of_modEq hcx hs h.sample (ClassRecord.residue_modEq h.period_pos _).symm)

/-- A shift may be reduced modulo the period. -/
theorem RecordSound.of_looks {k target period : Nat} {sample : κ} {shift : Int}
    (hsample : cx.Reached s₀ s sample) (hpos : 0 < period) (hdvd : period ∣ cx.degree s sample)
    (hperiodic : cx.SelfLike s₀ s sample period) (h : cx.Looks s₀ s k sample shift) :
    cx.RecordSound s₀ s k ⟨target, cyclicIndex shift period, period, sample⟩ := by
  refine ⟨hsample, hpos, hdvd, hperiodic, ?_⟩
  obtain ⟨c, hc, hclass, hdegree, hlike⟩ := h
  refine ⟨c, hc, hclass, hdegree, fun z => (hlike z).trans ?_⟩
  exact hperiodic.of_modEq hcx hs hsample ((cyclicIndex_modEq shift hpos).symm.sub_left z)

namespace RecordsSound

variable {cs : Classes κ} (hcs : cx.RecordsSound s₀ s cs)

include hcs

/-- A class that is met for the first time. -/
theorem insert {c : κ} (hc : cx.Reached s₀ s c) (hnone : cs[cx.classOf s c]? = none) :
    cx.RecordsSound s₀ s (cs.insert (cx.classOf s c)
      ⟨cx.classOf s c, 0, Nat.max (cx.degree s c) 1, c⟩) := by
  have hnew : cx.RecordSound s₀ s (cx.classOf s c)
      ⟨cx.classOf s c, 0, Nat.max (cx.degree s c) 1, c⟩ := by
    rw [max_degree hc.pos]
    refine ⟨hc, hc.pos, dvd_rfl, fun z => ?_, c, hc, rfl, rfl, fun z => ?_⟩
    · rw [walker_congr hc.pos (Int.modEq_iff_dvd.mpr (by simp) : z + _ ≡ z [ZMOD _])]
      exact Forced.refl hcx hs hc z
    · rw [Nat.cast_zero, sub_zero]
      exact Forced.refl hcx hs hc z
  -- No record that is there has the new class as its target.
  have hfresh : ∀ (k : Nat) (r : ClassRecord κ), cs[k]? = some r → r.target ≠ cx.classOf s c := by
    intro k r hr htarget
    obtain ⟨r', hr'⟩ := hcs.target k r hr
    rw [htarget, hnone] at hr'
    cases hr'
  constructor
  case record =>
    intro k r hr
    rw [Std.TreeMap.getElem?_insert] at hr
    split at hr
    · rename_i hk
      cases hr
      exact Std.compare_eq_iff_eq.mp hk ▸ hnew
    · exact hcs.record k r hr
  case target =>
    intro k r hr
    simp only [Std.TreeMap.getElem?_insert] at hr ⊢
    split at hr
    · cases hr
      exact ⟨_, if_pos Std.compare_self⟩
    · obtain ⟨r', hr'⟩ := hcs.target k r hr
      split
      · exact ⟨_, rfl⟩
      · exact ⟨r', hr'⟩
  case agree =>
    intro k k' r r' hr hr' htarget
    rw [Std.TreeMap.getElem?_insert] at hr hr'
    split at hr <;> split at hr'
    · cases hr
      cases hr'
      exact ⟨rfl, rfl⟩
    · cases hr
      exact absurd htarget.symm (hfresh k' r' hr')
    · cases hr'
      exact absurd htarget (hfresh k r hr)
    · exact hcs.agree k k' r r' hr hr' htarget

omit hcx hs in
/-- Some records are replaced by sound ones that have the target `target` and agree with each other,
and the others do not have that target. -/
theorem of_replaced {cs' : Classes κ} (target : Nat) (sample : κ) (period : Nat)
    (hkeys : ∀ (k : Nat) (r : ClassRecord κ), cs[k]? = some r →
      ∃ r' : ClassRecord κ, cs'[k]? = some r')
    (htarget : ∃ r : ClassRecord κ, cs[target]? = some r)
    (h : ∀ (k : Nat) (r : ClassRecord κ), cs'[k]? = some r →
      (r.target = target ∧ r.sample = sample ∧ r.period = period ∧ cx.RecordSound s₀ s k r) ∨
      (r.target ≠ target ∧ cs[k]? = some r)) : cx.RecordsSound s₀ s cs' := by
  constructor
  case record =>
    intro k r hr
    rcases h k r hr with ⟨-, -, -, hsound⟩ | ⟨-, hold⟩
    · exact hsound
    · exact hcs.record k r hold
  case target =>
    intro k r hr
    rcases h k r hr with ⟨rfl, -, -, -⟩ | ⟨-, hold⟩
    · obtain ⟨r', hr'⟩ := htarget
      exact hkeys _ _ hr'
    · obtain ⟨r', hr'⟩ := hcs.target k r hold
      exact hkeys _ _ hr'
  case agree =>
    intro k k' r r' hr hr' heq
    rcases h k r hr with ⟨ht, hsample, hperiod, -⟩ | ⟨ht, hold⟩ <;>
      rcases h k' r' hr' with ⟨ht', hsample', hperiod', -⟩ | ⟨ht', hold'⟩
    · exact ⟨hsample.trans hsample'.symm, hperiod.trans hperiod'.symm⟩
    · exact absurd (heq.symm.trans ht) ht'
    · exact absurd (heq.trans ht') ht
    · exact hcs.agree k k' r r' hold hold' heq

/-- Two targets whose samples look alike are merged. -/
theorem merge {k₁ k₂ : Nat} {r₁ r₂ : ClassRecord κ} {d₁ d₂ : Nat} (h₁ : cs[k₁]? = some r₁)
    (h₂ : cs[k₂]? = some r₂) (hdegree : cx.degree s r₁.sample = cx.degree s r₂.sample)
    (h : cx.Forced s₀ s (cx.walker s r₁.sample d₁) (cx.walker s r₂.sample d₂)) :
    cx.RecordsSound s₀ s (cs.merge r₁ r₂ d₁ d₂) := by
  have hr₁ := hcs.record k₁ r₁ h₁
  have hr₂ := hcs.record k₂ r₂ h₂
  have hpos : 0 < Nat.gcd r₁.period r₂.period := Nat.gcd_pos_of_pos_left _ hr₁.period_pos
  have hdvd : Nat.gcd r₁.period r₂.period ∣ cx.degree s r₁.sample :=
    (Nat.gcd_dvd_left _ _).trans hr₁.period_dvd
  have hturn : ∀ z, cx.Forced s₀ s (cx.walker s r₁.sample z)
      (cx.walker s r₂.sample (z + (d₂ - d₁))) := by
    intro z
    have hz := Forced.turn hcx hs hr₁.sample.pos hdegree h (z - d₁)
    rwa [add_sub_cancel, add_sub_left_comm] at hz
  -- The first sample has both periods, one of its own and one of the other sample.
  have hperiodic : cx.SelfLike s₀ s r₁.sample (Nat.gcd r₁.period r₂.period : Nat) := by
    rw [← Int.gcd_natCast_natCast]
    exact hr₁.periodic.gcd hcx hs hr₁.sample (hr₂.periodic.transfer hturn)
  refine of_replaced hcs r₁.target r₁.sample (Nat.gcd r₁.period r₂.period) ?_
    (hcs.target k₁ r₁ h₁) ?_
  · intro k r hr
    rw [Classes.merge, Std.TreeMap.getElem?_map, hr]
    exact ⟨_, rfl⟩
  · intro k r' hr'
    rw [Classes.merge, Std.TreeMap.getElem?_map] at hr'
    obtain ⟨r, hr, rfl⟩ := Option.map_eq_some_iff.mp hr'
    have hlooks := (hcs.record k r hr).looks
    split
    · rename_i ht
      -- A class of the second target is turned on to the first sample.
      rw [(hcs.agree k k₂ r r₂ hr h₂ ht).1] at hlooks
      obtain ⟨c, hc, hclass, hd, hlike⟩ := hlooks
      refine Or.inl ⟨rfl, rfl, rfl, .of_looks hcx hs hr₁.sample hpos hdvd hperiodic ?_⟩
      refine ⟨c, hc, hclass, hd.trans hdegree.symm, fun z => (hlike z).trans ?_⟩
      have hz := (hturn (z - (r.shift + d₂ - d₁))).symm
      rwa [show z - (r.shift + d₂ - d₁) + ((d₂ : Int) - d₁) = z - r.shift by ring] at hz
    · split
      · rename_i ht
        obtain ⟨hsample, -⟩ := hcs.agree k k₁ r r₁ hr h₁ ht
        rw [hsample] at hlooks
        refine Or.inl ⟨ht, hsample, rfl, ?_⟩
        rw [hsample]
        exact .of_looks hcx hs hr₁.sample hpos hdvd hperiodic hlooks
      · rename_i ht
        exact Or.inr ⟨ht, hr⟩

/-- The period of a target is narrowed, because two directions of its sample look alike. -/
theorem narrow {k : Nat} {r : ClassRecord κ} {d : Int} (hr : cs[k]? = some r)
    (h : cx.SelfLike s₀ s r.sample d) :
    cx.RecordsSound s₀ s (cs.narrow r.target r.period d) := by
  have hsound := hcs.record k r hr
  have hpos : 0 < reduceGcd r.period d := Nat.gcd_pos_of_pos_left _ hsound.period_pos
  have hdvd : reduceGcd r.period d ∣ cx.degree s r.sample :=
    (Nat.gcd_dvd_left _ _).trans hsound.period_dvd
  have hperiodic : cx.SelfLike s₀ s r.sample (reduceGcd r.period d : Nat) :=
    hsound.periodic.gcd hcx hs hsound.sample h
  refine of_replaced hcs r.target r.sample (reduceGcd r.period d) ?_ (hcs.target k r hr) ?_
  · intro k' r' hr'
    rw [Classes.narrow, Std.TreeMap.getElem?_map, hr']
    exact ⟨_, rfl⟩
  · intro k' r'' hr''
    rw [Classes.narrow, Std.TreeMap.getElem?_map] at hr''
    obtain ⟨r', hr', rfl⟩ := Option.map_eq_some_iff.mp hr''
    split
    · rename_i ht
      obtain ⟨hsample, -⟩ := hcs.agree k' k r' r hr' hr ht
      have hlooks := (hcs.record k' r' hr').looks
      rw [hsample] at hlooks
      refine Or.inl ⟨ht, hsample, rfl, ?_⟩
      rw [hsample]
      exact .of_looks hcx hs hsound.sample hpos hdvd hperiodic hlooks
    · rename_i ht
      exact Or.inr ⟨ht, hr'⟩

/-- Two walkers that are forced to look alike are given the same canonical form. -/
theorem identify {cs' : Classes κ} {w₁ w₂ : Walker κ} {r₁ r₂ : ClassRecord κ}
    (h : cx.Forced s₀ s w₁ w₂) (hw₁ : cx.Reached s₀ s w₁.cell) (hw₂ : cx.Reached s₀ s w₂.cell)
    (hs₁ : cx.Stands s w₁) (hs₂ : cx.Stands s w₂)
    (hdegree : cx.degree s w₁.cell = cx.degree s w₂.cell)
    (hr₁ : cs[cx.classOf s w₁.cell]? = some r₁) (hr₂ : cs[cx.classOf s w₂.cell]? = some r₂)
    (hcs' : cs.identify r₁ w₁.spin r₂ w₂.spin = some cs') : cx.RecordsSound s₀ s cs' := by
  have hsound₁ := hcs.record _ r₁ hr₁
  have hsound₂ := hcs.record _ r₂ hr₂
  have hd₁ := (hsound₁.looks.of_class hcx hs hw₁ rfl).1
  have hd₂ := (hsound₂.looks.of_class hcx hs hw₂ rfl).1
  have hforced := ((hsound₁.forced hcx hs hw₁ hs₁).symm.trans h).trans
    (hsound₂.forced hcx hs hw₂ hs₂)
  unfold Classes.identify at hcs'
  simp only at hcs'
  split at hcs'
  · cases hcs'
    exact merge hcx hs hcs hr₁ hr₂ (hd₁.symm.trans (hdegree.trans hd₂)) hforced
  · rename_i htarget
    obtain ⟨hsample, -⟩ := hcs.agree _ _ _ _ hr₁ hr₂ (not_ne_iff.mp htarget)
    split at hcs'
    · cases hcs'
      refine narrow hcx hs hcs hr₂ fun z => ?_
      rw [hsample] at hforced
      have hz := Forced.turn hcx hs hsound₂.sample.pos rfl hforced (z - r₁.residue w₁.spin)
      rwa [add_sub_cancel, add_sub_left_comm] at hz
    · cases hcs'

end RecordsSound

end CellComplex

end Mosaic
