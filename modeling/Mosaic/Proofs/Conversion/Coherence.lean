import Mosaic.Proofs.Conversion.Soundness

/-!
# Conversion — records that fit together

What an analysis does to the records can be told without asking what is forced: whatever walkers are
identified, the samples have edges, the periods divide the numbers of these, and records of one
target agree (`Surveying.Coherent`).  Moreover a target is its own target, unturned, and its sample
is one of its own cells (`Surveying.Rooted`).

This also holds when walkers are identified that need not look alike, so it is what remains of the
soundness of records when directions are merged after an analysis.
-/

namespace Mosaic

/-- What becomes of a record when the target of `r₂`, turned by `d`, is joined to that of `r₁` and
both have the period `p` from then on. -/
def ClassRecord.join {κ : Type} (r r₁ r₂ : ClassRecord κ) (p : Nat) (d : Int) : ClassRecord κ :=
  if r.target = r₂.target then ⟨r₁.target, cyclicIndex (r.shift + d) p, p, r₁.sample⟩
  else if r.target = r₁.target then { r with shift := cyclicIndex r.shift p, period := p }
  else r

namespace ClassRecord

variable {κ : Type} {r r₁ r₂ : ClassRecord κ} {p : Nat} {d : Int}

theorem join_target : (r.join r₁ r₂ p d).target =
    if r.target = r₂.target then r₁.target else r.target := by
  unfold join
  split
  · rfl
  · split <;> rfl

/-- A record that has neither target stays as it is. -/
theorem join_of_ne (h₁ : r.target ≠ r₁.target) (h₂ : r.target ≠ r₂.target) :
    r.join r₁ r₂ p d = r := by
  rw [join, if_neg h₂, if_neg h₁]

/-- The records that are joined have the period, the sample and the target of the first one. -/
theorem join_of_or (h : r.target = r₁.target ∨ r.target = r₂.target)
    (hagree : r.target = r₁.target → r.sample = r₁.sample) :
    (r.join r₁ r₂ p d).target = r₁.target ∧ (r.join r₁ r₂ p d).sample = r₁.sample ∧
      (r.join r₁ r₂ p d).period = p := by
  unfold join
  split
  · exact ⟨rfl, rfl, rfl⟩
  · rename_i hne
    have heq := h.resolve_right hne
    rw [if_pos heq]
    exact ⟨heq, hagree heq, rfl⟩

theorem join_period (h : r.target = r₁.target ∨ r.target = r₂.target) :
    (r.join r₁ r₂ p d).period = p := by
  unfold join
  split
  · rfl
  · rw [if_pos (h.resolve_right ‹_›)]

/-- The first target is not turned. -/
theorem join_shift_eq_zero (hshift : r.shift = 0) (h : r.target = r₁.target)
    (hd : r₁.target = r₂.target → d = 0) : (r.join r₁ r₂ p d).shift = 0 := by
  unfold join
  split
  · rename_i heq
    simp [hshift, hd (h.symm.trans heq), cyclicIndex, gmod]
  · simp [hshift, cyclicIndex, gmod]

/-- A record is turned by as much as any other one of the same target. -/
theorem join_shift (hp : 0 < p) (h : r.target = r₁.target ∨ r.target = r₂.target) :
    ((r.join r₁ r₂ p d).shift : Int) ≡ r.shift + (if r.target = r₂.target then d else 0)
      [ZMOD p] := by
  unfold join
  split
  · exact cyclicIndex_modEq _ hp
  · rename_i hne
    rw [if_pos (h.resolve_right hne), add_zero]
    exact cyclicIndex_modEq (r.shift : Int) hp

/-- Shifts are reduced. -/
theorem join_shift_lt (hp : 0 < p) (h : r.target = r₁.target ∨ r.target = r₂.target) :
    (r.join r₁ r₂ p d).shift < p := by
  unfold join
  split
  · exact cyclicIndex_lt _ hp
  · rename_i hne
    rw [if_pos (h.resolve_right hne)]
    exact cyclicIndex_lt (r.shift : Int) hp

end ClassRecord

/-- The period that is left of those of two targets when residues `d` apart are identified. -/
def ClassRecord.joinPeriod {κ : Type} (r₁ r₂ : ClassRecord κ) (d : Int) : Nat :=
  reduceGcd (Nat.gcd r₁.period r₂.period) (if r₁.target = r₂.target then d else 0)

/-- By how much the second target is turned then. -/
def ClassRecord.joinTurn {κ : Type} (r₁ r₂ : ClassRecord κ) (d : Int) : Int :=
  if r₁.target = r₂.target then 0 else d

namespace Classes

variable {κ : Type} {cs cs' : Classes κ} {r₁ r₂ : ClassRecord κ} {s₁ s₂ : Nat}

theorem identify_eq_none : cs.identify r₁ s₁ r₂ s₂ = none ↔
    r₁.target = r₂.target ∧ r₁.residue s₁ = r₂.residue s₂ := by
  unfold identify
  simp only
  split
  · rename_i htarget
    simp [htarget]
  · rename_i htarget
    split
    · rename_i hresidue
      simp [hresidue]
    · rename_i hresidue
      simp [not_ne_iff.mp htarget, not_ne_iff.mp hresidue]

/-- Identifying classes joins all records. -/
theorem identify_join
    (hsample : ∀ (k : Nat) (r : ClassRecord κ), cs[k]? = some r → r.target = r₁.target →
      r.sample = r₁.sample)
    (hperiod : r₁.target = r₂.target → r₁.period = r₂.period)
    (h : cs.identify r₁ s₁ r₂ s₂ = some cs') (k : Nat) :
    cs'[k]? = (cs[k]?).map (·.join r₁ r₂ (r₁.joinPeriod r₂ (r₂.residue s₂ - r₁.residue s₁))
      (r₁.joinTurn r₂ (r₂.residue s₂ - r₁.residue s₁))) := by
  unfold identify at h
  simp only at h
  rw [ClassRecord.joinPeriod, ClassRecord.joinTurn]
  split at h
  · rename_i htarget
    cases h
    rw [if_neg htarget, if_neg htarget, merge, Std.TreeMap.getElem?_map]
    refine congrArg (Option.map · _) (funext fun r => ?_)
    rw [ClassRecord.join, add_sub_assoc, reduceGcd, Int.natAbs_zero, Nat.gcd_zero_right]
  · rename_i htarget
    have htarget := not_ne_iff.mp htarget
    split at h
    · cases h
      rw [if_pos htarget, if_pos htarget, hperiod htarget, Nat.gcd_self, narrow,
        Std.TreeMap.getElem?_map]
      cases hr : cs[k]? with
      | none => rfl
      | some r =>
          simp only [Option.map_some, ClassRecord.join, add_zero]
          split
          · rename_i hr'
            rw [← hsample k r hr (hr'.trans htarget.symm), htarget, ← hr']
          · rename_i hr'
            rw [if_neg (htarget ▸ hr')]
    · cases h

/-- Records of one target share the sample and the period, and a target is its own target,
unturned. -/
structure Fitting (cs : Classes κ) : Prop where
  agree : ∀ {k k' : Nat} {r r' : ClassRecord κ}, cs[k]? = some r → cs[k']? = some r' →
    r.target = r'.target → r.sample = r'.sample ∧ r.period = r'.period
  root : ∀ {k : Nat} {r : ClassRecord κ}, cs[k]? = some r →
    ∃ r' : ClassRecord κ, cs[r.target]? = some r' ∧ r'.target = r.target ∧ r'.shift = 0

theorem insert_cases {k k' : Nat} {r r' : ClassRecord κ} (h : (cs.insert k' r')[k]? = some r) :
    (k = k' ∧ r = r') ∨ cs[k]? = some r := by
  rw [Std.TreeMap.getElem?_insert] at h
  split at h
  · rename_i heq
    exact Or.inl ⟨(Std.compare_eq_iff_eq.mp heq).symm, (Option.some.inj h).symm⟩
  · exact Or.inr h

/-- A record is joined to the first one, or it has neither target and stays as it is. -/
theorem join_cases {k k₁ p : Nat} {d : Int} {r : ClassRecord κ} (hcs : cs.Fitting)
    (h₁ : cs[k₁]? = some r₁) (hjoin : ∀ k : Nat, cs'[k]? = (cs[k]?).map (·.join r₁ r₂ p d))
    (hr : cs'[k]? = some r) :
    (r.target = r₁.target ∧ r.sample = r₁.sample ∧ r.period = p) ∨
      (r.target ≠ r₁.target ∧ r.target ≠ r₂.target ∧ cs[k]? = some r) := by
  rw [hjoin] at hr
  obtain ⟨r', hr', rfl⟩ := Option.map_eq_some_iff.mp hr
  by_cases h : r'.target = r₁.target ∨ r'.target = r₂.target
  · exact Or.inl (ClassRecord.join_of_or h fun heq => (hcs.agree hr' h₁ heq).1)
  · rw [not_or] at h
    rw [ClassRecord.join_of_ne h.1 h.2]
    exact Or.inr ⟨h.1, h.2, hr'⟩

namespace Fitting

/-- No record that is there has a class as its target that is not recorded. -/
theorem target_ne {k k' : Nat} {r : ClassRecord κ} (hcs : cs.Fitting) (hnone : cs[k']? = none)
    (hr : cs[k]? = some r) : r.target ≠ k' := by
  rintro rfl
  obtain ⟨R, hR, -⟩ := hcs.root hr
  rw [hnone] at hR
  cases hR

/-- A class that is met for the first time is its own target. -/
theorem insert {k' : Nat} (hcs : cs.Fitting) (hnone : cs[k']? = none) (period : Nat) (c : κ) :
    Fitting (cs.insert k' ⟨k', 0, period, c⟩) := by
  constructor
  case agree =>
    intro j j' r r' hr hr' htarget
    rcases insert_cases hr with ⟨-, rfl⟩ | hr <;> rcases insert_cases hr' with ⟨-, rfl⟩ | hr'
    · exact ⟨rfl, rfl⟩
    · exact absurd htarget.symm (hcs.target_ne hnone hr')
    · exact absurd htarget (hcs.target_ne hnone hr)
    · exact hcs.agree hr hr' htarget
  case root =>
    intro j r hr
    rcases insert_cases hr with ⟨-, rfl⟩ | hr
    · exact ⟨_, Std.TreeMap.getElem?_insert_self, rfl, rfl⟩
    · obtain ⟨R, hR, hroot⟩ := hcs.root hr
      refine ⟨R, ?_, hroot⟩
      rw [Std.TreeMap.getElem?_insert, if_neg, hR]
      exact fun heq => hcs.target_ne hnone hr (Std.compare_eq_iff_eq.mp heq).symm

/-- Joining records keeps them in order, whatever turn they are joined with. -/
theorem join {k₁ p : Nat} {d : Int} (hcs : cs.Fitting) (h₁ : cs[k₁]? = some r₁)
    (hd : r₁.target = r₂.target → d = 0)
    (hjoin : ∀ k : Nat, cs'[k]? = (cs[k]?).map (·.join r₁ r₂ p d)) : cs'.Fitting := by
  constructor
  case agree =>
    intro j j' r r' hr hr' htarget
    rcases join_cases hcs h₁ hjoin hr with ⟨ht, hsample, hperiod⟩ | ⟨ht, -, hr⟩ <;>
      rcases join_cases hcs h₁ hjoin hr' with ⟨ht', hsample', hperiod'⟩ | ⟨ht', -, hr'⟩
    · exact ⟨hsample.trans hsample'.symm, hperiod.trans hperiod'.symm⟩
    · exact absurd (htarget.symm.trans ht) ht'
    · exact absurd (htarget.trans ht') ht
    · exact hcs.agree hr hr' htarget
  case root =>
    intro j r hr
    rcases join_cases hcs h₁ hjoin hr with ⟨ht, -, -⟩ | ⟨ht₁, ht₂, hr⟩
    · obtain ⟨R, hR, htarget, hshift⟩ := hcs.root h₁
      refine ⟨R.join r₁ r₂ p d, ?_, ?_, ClassRecord.join_shift_eq_zero hshift htarget hd⟩
      · rw [ht, hjoin, hR, Option.map_some]
      · rw [ClassRecord.join_target, htarget, ht]
        split <;> rfl
    · obtain ⟨R, hR, htarget, hshift⟩ := hcs.root hr
      refine ⟨R, ?_, htarget, hshift⟩
      rw [hjoin, hR, Option.map_some, ClassRecord.join_of_ne] <;> rwa [htarget]

/-- Periods are divided. -/
theorem join_period_dvd {k k₁ k₂ p : Nat} {d : Int} {r : ClassRecord κ} (hcs : cs.Fitting)
    (h₁ : cs[k₁]? = some r₁) (h₂ : cs[k₂]? = some r₂) (hp₁ : p ∣ r₁.period) (hp₂ : p ∣ r₂.period)
    (hr : cs[k]? = some r) : (r.join r₁ r₂ p d).period ∣ r.period := by
  by_cases hor : r.target = r₁.target ∨ r.target = r₂.target
  · rw [ClassRecord.join_period hor]
    rcases hor with htarget | htarget
    · exact (hcs.agree hr h₁ htarget).2 ▸ hp₁
    · exact (hcs.agree hr h₂ htarget).2 ▸ hp₂
  · rw [not_or] at hor
    rw [ClassRecord.join_of_ne hor.1 hor.2]

/-- The target of the first record is its own target, so what is its own target now was so. -/
theorem join_root {k k₁ p : Nat} {d : Int} {r : ClassRecord κ} (hcs : cs.Fitting)
    (h₁ : cs[k₁]? = some r₁) (hr : cs[k]? = some r) (htarget : (r.join r₁ r₂ p d).target = k) :
    r.target = k := by
  rw [ClassRecord.join_target] at htarget
  split at htarget
  · obtain ⟨R, hR, hroot, -⟩ := hcs.root h₁
    rw [htarget, hr] at hR
    cases hR
    exact hroot.trans htarget
  · exact htarget

end Fitting

end Classes

namespace ClassRecord

variable {κ : Type} {r₁ r₂ : ClassRecord κ} {d : Int}

theorem joinPeriod_dvd_left : r₁.joinPeriod r₂ d ∣ r₁.period :=
  (Nat.gcd_dvd_left _ _).trans (Nat.gcd_dvd_left _ _)

theorem joinPeriod_dvd_right : r₁.joinPeriod r₂ d ∣ r₂.period :=
  (Nat.gcd_dvd_left _ _).trans (Nat.gcd_dvd_right _ _)

theorem joinTurn_eq_zero (h : r₁.target = r₂.target) : r₁.joinTurn r₂ d = 0 := if_pos h

end ClassRecord

namespace Surveying

variable {α σ κ : Type} (cx : CellComplex α σ κ)

/-- Samples have edges, periods divide the numbers of these, and records of one target agree. -/
structure Coherent (s : Survey σ κ) : Prop where
  sample_pos : ∀ {k : Nat} {r : ClassRecord κ}, s.classes[k]? = some r →
    0 < cx.degree s.source r.sample
  period_pos : ∀ {k : Nat} {r : ClassRecord κ}, s.classes[k]? = some r → 0 < r.period
  period_dvd : ∀ {k : Nat} {r : ClassRecord κ}, s.classes[k]? = some r →
    r.period ∣ cx.degree s.source r.sample
  agree : ∀ {k k' : Nat} {r r' : ClassRecord κ}, s.classes[k]? = some r →
    s.classes[k']? = some r' → r.target = r'.target → r.sample = r'.sample ∧ r.period = r'.period

/-- Moreover, a target is its own target, unturned, and its sample is one of its own cells. -/
structure Rooted (s₀ : σ) (s : Survey σ κ) : Prop extends Coherent cx s where
  reachable : cx.Reachable s₀ s.source
  sample_class : ∀ {k : Nat} {r : ClassRecord κ}, s.classes[k]? = some r →
    cx.classOf s.source r.sample = r.target
  root : ∀ {k : Nat} {r : ClassRecord κ}, s.classes[k]? = some r →
    ∃ r' : ClassRecord κ, s.classes[r.target]? = some r' ∧ r'.target = r.target ∧ r'.shift = 0

variable {cx} {s₀ : σ} {s t u : Survey σ κ} {c : κ} {w w' v v' : Walker κ}

/-- Sound records fit together. -/
theorem Sound.coherent (hs : Sound cx s₀ s) : Coherent cx s where
  sample_pos hr := (hs.records.record _ _ hr).sample.pos
  period_pos hr := (hs.records.record _ _ hr).period_pos
  period_dvd hr := (hs.records.record _ _ hr).period_dvd
  agree hr hr' := hs.records.agree _ _ _ _ hr hr'

instance : CoeOut (Sound cx s₀ s) (Coherent cx s) := ⟨Sound.coherent⟩

/-- The records of `s` are joined, or nothing changes. -/
inductive Joined (s : Survey σ κ) (r₁ r₂ : ClassRecord κ) : Survey σ κ → Prop where
  | same : Joined s r₁ r₂ s
  | joined {p n : Nat} {d : Int} {cs : Classes κ} (first : p ∣ r₁.period) (second : p ∣ r₂.period)
      (turn : r₁.target = r₂.target → d = 0)
      (records : ∀ k : Nat, cs[k]? = (s.classes[k]?).map (·.join r₁ r₂ p d)) :
      Joined s r₁ r₂ ⟨s.source, cs, n⟩

namespace Rooted

/-- The first cell is reached, and nothing is recorded yet. -/
theorem start (h : onSource cx.start ⟨s₀, ∅, 0⟩ = .ok c t) : Rooted cx s₀ t := by
  obtain ⟨hstart, hclasses, -⟩ := onSource_ok h
  have hnone (k : Nat) : t.classes[k]? = none := by rw [hclasses]; simp
  refine ⟨⟨?_, ?_, ?_, ?_⟩, ⟨c, t.source, hstart, .refl _⟩, ?_, ?_⟩ <;> intros <;> simp_all

/-- Counting changes anew does not matter. -/
theorem uncounted (hs : Rooted cx s₀ s) (n : Nat) : Rooted cx s₀ { s with changes := n } :=
  ⟨⟨hs.sample_pos, hs.period_pos, hs.period_dvd, hs.agree⟩, hs.reachable, hs.sample_class, hs.root⟩

variable (hcx : cx.Lawful s₀)

include hcx

/-- The complex is walked on. -/
theorem later (hs : Rooted cx s₀ s) (h : cx.Later s.source t.source)
    (hclasses : t.classes = s.classes) : Rooted cx s₀ t := by
  have hstable {k : Nat} {r : ClassRecord κ} (hr : s.classes[k]? = some r) :=
    hcx.later_stable hs.reachable h (hs.sample_pos hr)
  refine ⟨⟨?_, ?_, ?_, ?_⟩, hs.reachable.later h, ?_, ?_⟩ <;> rw [hclasses]
  case refine_1 => exact fun hr => (hstable hr).1 ▸ hs.sample_pos hr
  case refine_2 => exact hs.period_pos
  case refine_3 => exact fun hr => (hstable hr).1 ▸ hs.period_dvd hr
  case refine_4 => exact hs.agree
  case refine_5 => exact fun hr => (hstable hr).2.trans (hs.sample_class hr)
  case refine_6 => exact hs.root

/-- Across an edge that there is lies another one. -/
theorem cross (hs : Rooted cx s₀ s) (hw : cx.Stands s.source w)
    (h : Surveying.cross cx w s = .ok v t) : Rooted cx s₀ t ∧ cx.Stands t.source v := by
  obtain ⟨hstep, hclasses, -⟩ := cross_ok h
  exact ⟨hs.later hcx (.of_step hstep) hclasses, hcx.step_lt hs.reachable hw hstep⟩

omit hcx

/-- Records of one target agree, and a target is its own target. -/
theorem fitting (hs : Rooted cx s₀ s) : s.classes.Fitting := ⟨hs.agree, hs.root⟩

/-- A class that is met for the first time has the cell as its sample. -/
theorem record {r : ClassRecord κ} (hs : Rooted cx s₀ s) (hc : 0 < cx.degree s.source c)
    (h : Surveying.record cx c s = .ok r t) : Rooted cx s₀ t := by
  rcases record_ok h with ⟨-, rfl⟩ | ⟨hnone, rfl, rfl⟩
  · exact hs
  have hfitting := hs.fitting.insert hnone (Nat.max (cx.degree s.source c) 1) c
  rw [CellComplex.max_degree hc] at hfitting ⊢
  constructor
  case toCoherent =>
    refine ⟨fun hr => ?_, fun hr => ?_, fun hr => ?_, hfitting.agree⟩ <;>
      rcases Classes.insert_cases hr with ⟨-, rfl⟩ | hr
    · exact hc
    · exact hs.sample_pos hr
    · exact hc
    · exact hs.period_pos hr
    · exact dvd_rfl
    · exact hs.period_dvd hr
  case reachable => exact hs.reachable
  case sample_class =>
    intro k r hr
    rcases Classes.insert_cases hr with ⟨-, rfl⟩ | hr
    · rfl
    · exact hs.sample_class hr
  case root => exact hfitting.root

/-- Joining records keeps them in order, whatever turn they are joined with. -/
theorem joined {k : Nat} {r₁ r₂ : ClassRecord κ} (hs : Rooted cx s₀ s)
    (h₁ : s.classes[k]? = some r₁) (h : Joined s r₁ r₂ t) : Rooted cx s₀ t := by
  cases h with
  | same => exact hs
  | @joined p n d cs hp₁ _ hd hcs =>
      have hp : 0 < p := Nat.pos_of_dvd_of_pos hp₁ (hs.period_pos h₁)
      have hfitting := hs.fitting.join h₁ hd hcs
      have hcases {k : Nat} {r : ClassRecord κ} (hr : cs[k]? = some r) :=
        Classes.join_cases hs.fitting h₁ hcs hr
      constructor
      case toCoherent =>
        refine ⟨fun hr => ?_, fun hr => ?_, fun hr => ?_, hfitting.agree⟩
        · rcases hcases hr with ⟨-, hsample, -⟩ | ⟨-, -, hr⟩
          · exact hsample ▸ hs.sample_pos h₁
          · exact hs.sample_pos hr
        · rcases hcases hr with ⟨-, -, rfl⟩ | ⟨-, -, hr⟩
          · exact hp
          · exact hs.period_pos hr
        · rcases hcases hr with ⟨-, hsample, rfl⟩ | ⟨-, -, hr⟩
          · exact hsample ▸ hp₁.trans (hs.period_dvd h₁)
          · exact hs.period_dvd hr
      case reachable => exact hs.reachable
      case sample_class =>
        intro k r hr
        rcases hcases hr with ⟨ht, hsample, -⟩ | ⟨-, -, hr⟩
        · exact hsample ▸ ht ▸ hs.sample_class h₁
        · exact hs.sample_class hr
      case root => exact hfitting.root

end Rooted

/-- Identifying classes joins the records of the two, unless they have the same form already. -/
theorem Coherent.joined {k₁ k₂ a b : Nat} {r₁ r₂ : ClassRecord κ} (hs : Coherent cx s)
    (h₁ : s.classes[k₁]? = some r₁) (h₂ : s.classes[k₂]? = some r₂)
    (h : match s.classes.identify r₁ a r₂ b with
      | some classes => t = { s with classes, changes := s.changes + 1 }
      | none => t = s) : Joined s r₁ r₂ t := by
  split at h
  · rename_i classes hclasses
    subst h
    exact .joined ClassRecord.joinPeriod_dvd_left ClassRecord.joinPeriod_dvd_right
      ClassRecord.joinTurn_eq_zero
      (Classes.identify_join (fun k r hr htarget => (hs.agree hr h₁ htarget).1)
        (fun htarget => (hs.agree h₁ h₂ htarget).2) hclasses)
  · subst h
    exact .same

namespace Rooted

theorem identify {x : Unit} (hs : Rooted cx s₀ s) (hw : 0 < cx.degree s.source w.cell)
    (h : Surveying.identify cx w w' s = .ok x t) : Rooted cx s₀ t := by
  obtain ⟨r, r', s₁, s₂, hr, hr', hdegree, ht⟩ := identify_ok h
  have hsource := (record_source hr).1
  have hs₂ := (hs.record hw hr).record (hsource.symm ▸ hdegree ▸ hw) hr'
  have hk := (record_advances hr').records (record_source hr').2 _ r (record_getElem? hr)
  exact hs₂.joined hk (hs₂.toCoherent.joined hk (record_getElem? hr') ht)

/-- The counterpart of a walker in the sample is there. -/
theorem toSample (hs : Rooted cx s₀ s) (hw : cx.Stands s.source w)
    (h : Surveying.toSample cx w s = .ok v t) : Rooted cx s₀ t ∧ cx.Stands t.source v := by
  obtain ⟨r, hr, rfl⟩ := toSample_ok h
  have ht := hs.record hw.pos hr
  exact ⟨ht, CellComplex.walker_stands (ht.sample_pos (record_getElem? hr)) _⟩

variable (hcx : cx.Lawful s₀)

include hcx

/-- Cells that are there stay so. -/
theorem pos_later (hs : Rooted cx s₀ s) (h : Advances cx s t) (hc : 0 < cx.degree s.source c) :
    0 < cx.degree t.source c :=
  (hcx.later_stable hs.reachable h.later hc).1.symm ▸ hc

variable [BEq κ] [Hashable κ]

/-- One more edge. -/
theorem examineEdge {agenda agenda' : Agenda κ} {j : Nat} (hs : Rooted cx s₀ s)
    (hw : 0 < cx.degree s.source w.cell) (hw' : 0 < cx.degree s.source w'.cell)
    (h : Surveying.examineEdge cx w w' agenda j s = .ok agenda' t) : Rooted cx s₀ t ∧
      ∃ a, 0 < cx.degree t.source a ∧ agenda' = agenda.add a := by
  obtain ⟨a, b, r, c, o, p, q, s₁, s₂, s₃, s₄, s₅, s₆, s₇, s₈, s₉, ha, hb, hab, hr, hc, hac, ho, hp,
    hq, hpq, rfl⟩ := examineEdge_ok h
  have hadv₁ := cross_advances ha
  obtain ⟨hs₁, hstand₁⟩ := hs.cross hcx (CellComplex.walker_stands hw _) ha
  have hadv₂ := cross_advances hb
  obtain ⟨hs₂, -⟩ := hs₁.cross hcx (CellComplex.walker_stands (hs.pos_later hcx hadv₁ hw') _) hb
  have hadv₃ := hadv₂.trans (identify_advances hab)
  have hs₃ := hs₂.identify (hs₁.pos_later hcx hadv₂ hstand₁.pos) hab
  have hw₃ := hs.pos_later hcx (hadv₁.trans hadv₃) hw
  have hs₄ := hs₃.record hw₃ hr
  have hadv₄ := record_advances hr
  have hadv₅ := (hadv₃.trans hadv₄).trans (cross_advances hc)
  obtain ⟨hs₅, -⟩ := hs₄.cross hcx (CellComplex.walker_stands (hs₃.pos_later hcx hadv₄ hw₃) _) hc
  have hs₆ := hs₅.identify (hs₁.pos_later hcx hadv₅ hstand₁.pos) hac
  have hadv₆ := hadv₅.trans (identify_advances hac)
  have hstand₆ := hstand₁.later hcx hs₁.reachable hadv₆.later
  obtain ⟨hs₇, hstand₇⟩ := hs₆.toSample hstand₆ ho
  have hadv₇ := toSample_advances ho
  obtain ⟨hs₈, hstand₈⟩ := hs₇.cross hcx (hstand₆.later hcx hs₆.reachable hadv₇.later) hp
  have hadv₈ := cross_advances hp
  obtain ⟨hs₉, -⟩ := hs₈.cross hcx (hstand₇.later hcx hs₇.reachable hadv₈.later) hq
  have hadv₉ := (hadv₇.trans hadv₈).trans (cross_advances hq)
  have ht := hs₉.identify (hs₈.pos_later hcx (cross_advances hq) hstand₈.pos) hpq
  exact ⟨ht, a.cell, hs₆.pos_later hcx (hadv₉.trans (identify_advances hpq)) hstand₆.pos, rfl⟩

/-- The edges of a cell, compared with its sample. -/
theorem examine {r : ClassRecord κ} {agenda agenda' : Agenda κ} {k : Nat} (hs : Rooted cx s₀ s)
    (hagenda : ∀ x ∈ agenda.cells, 0 < cx.degree s.source x) (hc : 0 < cx.degree s.source c)
    (hr : s.classes[k]? = some r) (h : Surveying.examine cx c r agenda s = .ok agenda' t) :
    Rooted cx s₀ t ∧ ∀ x ∈ agenda'.cells, 0 < cx.degree t.source x := by
  have hsample := hs.sample_pos hr
  have hkept := foldlM_ok (P := fun _ a u => Advances cx s u ∧ Rooted cx s₀ u ∧
      ∀ x ∈ a.cells, 0 < cx.degree u.source x) ?_ ⟨.refl s, hs, hagenda⟩ (examine_ok h)
  · exact hkept.2
  · rintro l j a u a' u' ⟨hadv, hu, ha⟩ hedge
    obtain ⟨hu', x, hx, rfl⟩ := hu.examineEdge hcx (hs.pos_later hcx hadv hc)
      (hs.pos_later hcx hadv hsample) hedge
    have hadv' := examineEdge_advances hedge
    refine ⟨hadv.trans hadv', hu', fun y hy => ?_⟩
    rcases Agenda.mem_of_mem_add hy with hy | rfl
    · exact hu.pos_later hcx hadv' (ha y hy)
    · exact hx

/-- One more cell of a pass. -/
theorem passStep {p q : Pass κ} (hs : Rooted cx s₀ s)
    (hp : ∀ x ∈ p.agenda.cells, 0 < cx.degree s.source x)
    (h : Surveying.passStep cx p s = .ok (.inl q) t) :
    Rooted cx s₀ t ∧ ∀ x ∈ q.agenda.cells, 0 < cx.degree t.source x := by
  cases passStep_ok h with
  | skipped hc hr =>
      exact ⟨hs.record (hp _ (Array.mem_of_getElem? hc)) hr,
        fun x hx => hs.pos_later hcx (record_advances hr) (hp x hx)⟩
  | examined hc hr hx =>
      have hadv := record_advances hr
      have hpos := hp _ (Array.mem_of_getElem? hc)
      exact (hs.record hpos hr).examine hcx (fun x hx => hs.pos_later hcx hadv (hp x hx))
        (hs.pos_later hcx hadv hpos) (record_getElem? hr) hx

theorem pass {x y : Agenda κ × Nat} (hs : Rooted cx s₀ s)
    (hx : ∀ c ∈ x.1.cells, 0 < cx.degree s.source c)
    (h : Surveying.pass cx x.1 x.2 s = .ok y t) :
    Rooted cx s₀ t ∧ ∀ c ∈ y.1.cells, 0 < cx.degree t.source c := by
  obtain ⟨q, hrounds, hq, -⟩ := pass_ok h
  rw [← hq]
  exact hrounds.keeps (P := fun p u => Rooted cx s₀ u ∧ ∀ c ∈ p.agenda.cells,
    0 < cx.degree u.source c) (fun _ _ _ _ _ hu hstep => hu.1.passStep hcx hu.2 hstep) ⟨hs, hx⟩

/-- **After an analysis every target is its own target.** -/
theorem analyse {budget : Nat} (h : Surveying.analyse cx budget ⟨s₀, ∅, 0⟩ = .ok () t) :
    Rooted cx s₀ t := by
  unfold Surveying.analyse at h
  obtain ⟨c₀, s₁, hstart, h⟩ := bind_ok.mp h
  obtain ⟨x, s₂, hrounds, hround⟩ := descend_ok h
  have hfirst : ∀ c ∈ (Agenda.ofCell c₀).cells, 0 < cx.degree s₁.source c := by
    intro c hc
    obtain rfl : c = c₀ := by simpa [Agenda.ofCell] using hc
    exact hcx.start_pos (onSource_ok hstart).1
  obtain ⟨hs₂, hx⟩ := hrounds.keeps
    (P := fun x u => Rooted cx s₀ u ∧ ∀ c ∈ x.1.cells, 0 < cx.degree u.source c)
    (fun x u y u' _ hu hround => by
      obtain ⟨next, hpass, hy⟩ := round_ok.mp hround
      split at hy
      · cases hy
      · cases hy
        exact (hu.1.uncounted 0).pass hcx hu.2 hpass)
    ⟨start hstart, hfirst⟩
  obtain ⟨next, hpass, -⟩ := round_ok.mp hround
  exact ((hs₂.uncounted 0).pass hcx hx hpass).1

end Rooted

end Surveying

end Mosaic
