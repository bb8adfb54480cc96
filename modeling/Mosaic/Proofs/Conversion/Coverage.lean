import Mosaic.Proofs.Conversion.LeastCongruence

/-!
# Conversion — every target has an examined cell

A class may be recorded without any of its cells being listed: what lies across an edge of a sample
is identified with what lies across the same edge of another cell, and only the latter is listed.
But then the two classes have one target, so every target that there is at the end is that of a
listed cell (`Surveying.Covers`).  The last pass examines a cell for every target of a listed one
(`Surveying.Covered`); cells that it passes over do not matter.

What lies beyond a neighbour is the cell itself, since steps are undone by steps back.  Otherwise
the class of what lies there might have no listed cell.
-/

namespace Mosaic

/-- The target of a class. -/
def Classes.targetOf {κ : Type} (cs : Classes κ) (k : Nat) : Option Nat := (cs[k]?).map (·.target)

theorem Classes.targetOf_insert {κ : Type} (cs : Classes κ) (k k' : Nat) (r : ClassRecord κ) :
    targetOf (cs.insert k r) k' = if k = k' then some r.target else cs.targetOf k' := by
  simp only [targetOf, Std.TreeMap.getElem?_insert, Std.compare_eq_iff_eq]
  split <;> rfl

/-- Identifying classes maps targets to targets, and maps those of the two walkers to the same. -/
theorem Classes.targetOf_identify {κ : Type} {cs cs' : Classes κ} {r₁ r₂ : ClassRecord κ}
    {s₁ s₂ : Nat} (h : cs.identify r₁ s₁ r₂ s₂ = some cs') :
    ∃ φ : Nat → Nat, φ r₁.target = φ r₂.target ∧
      ∀ k, cs'.targetOf k = (cs.targetOf k).map φ := by
  unfold identify at h
  simp only at h
  split at h
  · cases h
    refine ⟨fun k => if k = r₂.target then r₁.target else k, by simp, fun k => ?_⟩
    simp only [targetOf, merge, Std.TreeMap.getElem?_map, Option.map_map]
    refine congrArg (Option.map · _) (funext fun r => ?_)
    simp only [Function.comp_apply]
    split
    · rfl
    · split <;> rfl
  · rename_i htarget
    split at h
    · cases h
      refine ⟨id, not_ne_iff.mp htarget, fun k => ?_⟩
      simp only [targetOf, narrow, Std.TreeMap.getElem?_map, Option.map_map]
      refine congrArg (Option.map · _) (funext fun r => ?_)
      simp only [Function.comp_apply, id]
      split <;> rfl
    · cases h

namespace Surveying

variable {α σ κ : Type} {cx : CellComplex α σ κ} {s₀ : σ} {s t u : Survey σ κ} {c : κ}
  {w w' v : Walker κ} {C : κ → Prop}

variable (cx) in
/-- The target of the class of a cell. -/
def targetAt (s : Survey σ κ) (c : κ) : Option Nat := s.classes.targetOf (cx.classOf s.source c)

theorem targetAt_eq_some_iff {k : Nat} : targetAt cx s c = some k ↔
    ∃ r : ClassRecord κ, s.classes[cx.classOf s.source c]? = some r ∧ r.target = k := by
  rw [targetAt, Classes.targetOf, Option.map_eq_some_iff]

variable (cx) in
/-- All targets are targets of cells of `C`, which are there. -/
structure Covers (s₀ : σ) (s : Survey σ κ) (C : κ → Prop) : Prop where
  reachable : cx.Reachable s₀ s.source
  pos : ∀ c, C c → 0 < cx.degree s.source c
  covered : ∀ k T, s.classes.targetOf k = some T → ∃ c, C c ∧ targetAt cx s c = some T

namespace Covers

theorem mono {D : κ → Prop} (h : Covers cx s₀ s C) (hCD : ∀ c, C c → D c)
    (hpos : ∀ c, D c → 0 < cx.degree s.source c) : Covers cx s₀ s D := by
  refine ⟨h.reachable, hpos, fun k T hk => ?_⟩
  obtain ⟨c, hc, htarget⟩ := h.covered k T hk
  exact ⟨c, hCD c hc, htarget⟩

/-- One more cell. -/
theorem insert (h : Covers cx s₀ s C) (hc : 0 < cx.degree s.source c) :
    Covers cx s₀ s fun x => C x ∨ x = c := by
  refine h.mono (fun x hx => Or.inl hx) fun x hx => ?_
  rcases hx with hx | rfl
  · exact h.pos x hx
  · exact hc

variable (hcx : cx.Lawful s₀)

include hcx

theorem cross (h : Covers cx s₀ s C) (hv : cross cx w s = .ok v t) : Covers cx s₀ t C := by
  obtain ⟨hstep, hclasses, -⟩ := cross_ok hv
  have hlater := CellComplex.Later.of_step hstep
  have hstable := fun c hc => hcx.later_stable h.reachable hlater (h.pos c hc)
  refine ⟨h.reachable.later hlater, fun c hc => ?_, fun k T hk => ?_⟩
  · rw [(hstable c hc).1]
    exact h.pos c hc
  · rw [hclasses] at hk
    obtain ⟨c, hc, htarget⟩ := h.covered k T hk
    refine ⟨c, hc, ?_⟩
    rw [targetAt, (hstable c hc).2, hclasses]
    exact htarget

omit hcx

/-- A cell of `C` is recorded. -/
theorem record {r : ClassRecord κ} (h : Covers cx s₀ s C) (hc : C c)
    (hr : record cx c s = .ok r t) : Covers cx s₀ t C := by
  rcases record_ok hr with ⟨-, rfl⟩ | ⟨hnone, -, rfl⟩
  · exact h
  · refine ⟨h.reachable, h.pos, fun k T hT => ?_⟩
    simp only [targetAt, Classes.targetOf_insert] at hT ⊢
    split at hT
    · exact ⟨c, hc, by rw [if_pos rfl, hT]⟩
    · obtain ⟨x, hx, htarget⟩ := h.covered k T hT
      refine ⟨x, hx, ?_⟩
      have hne : cx.classOf s.source c ≠ cx.classOf s.source x := by
        intro heq
        rw [targetAt, Classes.targetOf, ← heq, hnone] at htarget
        cases htarget
      rw [if_neg hne]
      exact htarget

/-- A walker is identified with one in a cell of `C`. -/
theorem identify {x : Unit} (h : Covers cx s₀ s C) (hw : C w.cell)
    (hx : identify cx w w' s = .ok x t) : Covers cx s₀ t C := by
  obtain ⟨r, r', s₁, s₂, hr, hr', hdegree, ht⟩ := identify_ok hx
  have h₁ := h.record hw hr
  have hsource := (record_source hr).1
  have hsource' := (record_source hr').1
  have hpos : 0 < cx.degree s₁.source w'.cell := by
    rw [hsource, ← hdegree]
    exact h.pos _ hw
  -- Until the walkers are identified, the class of the second one may have a target of its own.
  have h₂ := (h₁.insert hpos).record (Or.inr rfl) hr'
  have htarget : targetAt cx s₂ w.cell = some r.target := by
    refine targetAt_eq_some_iff.mpr ⟨r, ?_, rfl⟩
    rw [hsource', hsource]
    exact (record_advances hr').records (record_source hr').2 _ r (record_getElem? hr)
  have htarget' : targetAt cx s₂ w'.cell = some r'.target :=
    targetAt_eq_some_iff.mpr ⟨r', hsource' ▸ record_getElem? hr', rfl⟩
  obtain ⟨φ, hφ, hsame, hmap⟩ : ∃ φ : Nat → Nat, φ r.target = φ r'.target ∧
      t.source = s₂.source ∧ ∀ k, t.classes.targetOf k = (s₂.classes.targetOf k).map φ := by
    split at ht
    · rename_i classes hclasses
      subst ht
      obtain ⟨φ, hφ, hmap⟩ := Classes.targetOf_identify hclasses
      exact ⟨φ, hφ, rfl, hmap⟩
    · rename_i hnone
      subst ht
      refine ⟨id, ?_, rfl, fun k => by simp⟩
      unfold Classes.identify at hnone
      simp only at hnone
      split at hnone
      · cases hnone
      · rename_i heq
        exact not_ne_iff.mp heq
  have hafter (c : κ) : targetAt cx t c = (targetAt cx s₂ c).map φ := by
    rw [targetAt, targetAt, hmap, hsame]
  refine ⟨hsame ▸ h₂.reachable, fun c hc => ?_, fun k T hT => ?_⟩
  · rw [hsame]
    exact h₂.pos c (Or.inl hc)
  · rw [hmap] at hT
    obtain ⟨T₀, hT₀, rfl⟩ := Option.map_eq_some_iff.mp hT
    obtain ⟨c, hc | rfl, hcT⟩ := h₂.covered k T₀ hT₀
    · exact ⟨c, hc, by rw [hafter, hcT, Option.map_some]⟩
    · obtain rfl : T₀ = r'.target := Option.some.inj (hcT.symm.trans htarget')
      exact ⟨w.cell, hw, by rw [hafter, htarget, Option.map_some, hφ]⟩

include hcx

variable [BEq κ] [Hashable κ]

/-- One more edge.  Beyond the neighbour lies the cell itself. -/
theorem examineEdge {agenda agenda' : Agenda κ} {j : Nat} (hinv : cx.Involutive s₀)
    (h : Covers cx s₀ s C) (hw : C w.cell) (hx : examineEdge cx w w' agenda j s = .ok agenda' t) :
    ∃ a, agenda' = agenda.add a ∧ Covers cx s₀ t fun x => C x ∨ x = a := by
  obtain ⟨a, b, r, c, o, p, q, s₁, s₂, s₃, s₄, s₅, s₆, s₇, s₈, s₉, ha, hb, hab, hr, hc, hac, ho, hp,
    hq, hpq, rfl⟩ := examineEdge_ok hx
  have hstand := CellComplex.walker_stands (h.pos _ hw) (w.spin + j)
  have hstep := (cross_ok ha).1
  obtain ⟨_, hback⟩ : ∃ u, cx.step a.cell a.spin s₇.source =
      .ok ((cx.turned s.source w j).cell, (cx.turned s.source w j).spin) u := by
    have h₃ := (cross_advances hb).trans (identify_advances hab)
    have h₆ := ((record_advances hr).trans (cross_advances hc)).trans (identify_advances hac)
    exact hinv h.reachable hstand hstep ((h₃.trans h₆).trans (toSample_advances ho)).later
  have hp' : p.cell = w.cell :=
    (congrArg Prod.fst (EStateM.Result.ok.inj (hback.symm.trans (cross_ok hp).1)).1).symm
  have h₁ := h.cross hcx ha
  have h₁' := h₁.insert (hcx.step_lt h.reachable hstand hstep).pos
  have h₃ := (h₁'.cross hcx hb).identify (Or.inr rfl) hab
  have h₆ := ((h₃.record (Or.inl hw) hr).cross hcx hc).identify (Or.inr rfl) hac
  obtain ⟨r', hr', -⟩ := toSample_ok ho
  have h₉ := ((h₆.record (Or.inr rfl) hr').cross hcx hp).cross hcx hq
  exact ⟨a.cell, rfl, h₉.identify (Or.inl (hp' ▸ hw)) hpq⟩

variable [LawfulBEq κ] [LawfulHashable κ]

/-- The edges of a listed cell. -/
theorem examine {r : ClassRecord κ} {agenda agenda' : Agenda κ} (hinv : cx.Involutive s₀)
    (h : Covers cx s₀ s (· ∈ agenda.cells)) (hc : c ∈ agenda.cells) (hs : Sound cx s₀ s)
    (hr : s.classes[cx.classOf s.source c]? = some r) (hagenda : Listed cx s₀ s.source agenda)
    (hx : examine cx c r agenda s = .ok agenda' t) : Covers cx s₀ t (· ∈ agenda'.cells) := by
  obtain ⟨hforced, hdegree⟩ := hs.forced_sample hcx (hagenda.reached c hc) hr
  obtain ⟨i, hi⟩ := Array.getElem?_of_mem hc
  have hpart := foldlM_ok (P := fun l a u => Partway cx s₀ s agenda
      (cx.turned s.source ⟨c, 0⟩ r.shift) ⟨r.sample, 0⟩ r.period l a u ∧
      Covers cx s₀ u (· ∈ a.cells)) ?_
    ⟨⟨hs, .refl s, hagenda, fun _ _ hi => hi, fun _ j hj => by cases hj⟩, h⟩ (examine_ok hx)
  · exact hpart.2
  · rintro l j a u a' u' ⟨hu, hcovers⟩ hedge
    have hu' := hu.examineEdge hcx hs.reachable hforced hdegree hr hedge
    obtain ⟨x, rfl, hcovers'⟩ :=
      hcovers.examineEdge hcx hinv (Array.mem_of_getElem? (hu.grows i c hi)) hedge
    refine ⟨hu', hcovers'.mono (fun y hy => ?_) fun y hy => (hu'.listed.reached y hy).pos⟩
    rcases hy with hy | rfl
    · obtain ⟨k, hk⟩ := Array.getElem?_of_mem hy
      exact Array.mem_of_getElem? (Agenda.getElem?_add hk)
    · exact hu.listed.mem_add y

end Covers

/-! ### Passes -/

variable [BEq κ] [Hashable κ]

variable (cx) in
/-- A pass that began with `p` in `s` has come to `q` in `t`.  The targets of the cells before are
analysed, and for every target that is analysed a cell has been examined. -/
structure Covered (s₀ : σ) (p : Pass κ) (s : Survey σ κ) (q : Pass κ) (t : Survey σ κ) : Prop where
  visited : Visited cx s₀ p s q t
  covers : Covers cx s₀ t (· ∈ q.agenda.cells)
  seen : t.changes = s.changes → ∀ (i : Nat) (c : κ), i < q.next → q.agenda.cells[i]? = some c →
    ∃ T, targetAt cx t c = some T ∧ q.analysed.contains T = true
  analysed : t.changes = s.changes → ∀ T, q.analysed.contains T = true →
    ∃ c ∈ q.agenda.cells, targetAt cx t c = some T ∧ Examined cx t q.agenda c

variable (cx) in
/-- Every target is that of a listed cell that has been examined. -/
def Represented (s : Survey σ κ) (a : Agenda κ) : Prop :=
  ∀ k T, s.classes.targetOf k = some T →
    ∃ c ∈ a.cells, targetAt cx s c = some T ∧ Examined cx s a c

variable (hcx : cx.Lawful s₀)

include hcx

omit [BEq κ] [Hashable κ] in
/-- The target of a cell stays until a change is counted. -/
theorem targetAt_advance {T : Nat} (hs : cx.Reachable s₀ s.source) (hst : Advances cx s t)
    (hchanges : t.changes = s.changes) (hc : 0 < cx.degree s.source c)
    (h : targetAt cx s c = some T) : targetAt cx t c = some T := by
  obtain ⟨r, hr, rfl⟩ := targetAt_eq_some_iff.mp h
  refine targetAt_eq_some_iff.mpr ⟨r, ?_, rfl⟩
  rw [(hcx.later_stable hs hst.later hc).2]
  exact hst.records hchanges _ r hr

/-- What has been seen stays so until a change is counted. -/
theorem Covered.still_seen {p q : Pass κ} (ht : Covered cx s₀ p s q t) (hst : Advances cx t u)
    (hchanges : u.changes = s.changes) {i : Nat} {c : κ} (hi : i < q.next)
    (hc : q.agenda.cells[i]? = some c) :
    ∃ T, targetAt cx u c = some T ∧ q.analysed.contains T = true := by
  have h₁ := ht.visited.advances.changes
  have h₂ := hst.changes
  obtain ⟨T, hT, hanalysed⟩ := ht.seen (by omega) i c hi hc
  exact ⟨T, targetAt_advance hcx ht.visited.sound.reachable hst (by omega)
    (ht.covers.pos c (Array.mem_of_getElem? hc)) hT, hanalysed⟩

/-- The cells that have been examined stay so until a change is counted. -/
theorem Covered.still_analysed {p q : Pass κ} {a : Agenda κ} (ht : Covered cx s₀ p s q t)
    (hst : Advances cx t u)
    (hgrows : ∀ (i : Nat) (x : κ), q.agenda.cells[i]? = some x → a.cells[i]? = some x)
    (hchanges : u.changes = s.changes) {T : Nat} (hT : q.analysed.contains T = true) :
    ∃ c ∈ a.cells, targetAt cx u c = some T ∧ Examined cx u a c := by
  have h₁ := ht.visited.advances.changes
  have h₂ := hst.changes
  have hreach := ht.visited.sound.reachable
  obtain ⟨c, hc, htarget, hexamined⟩ := ht.analysed (by omega) T hT
  have hpos := ht.covers.pos c hc
  obtain ⟨i, hi⟩ := Array.getElem?_of_mem hc
  exact ⟨c, Array.mem_of_getElem? (hgrows i c hi),
    targetAt_advance hcx hreach hst (by omega) hpos htarget,
    hexamined.advance hcx hreach hpos hst (by omega) hgrows⟩

variable [LawfulBEq κ] [LawfulHashable κ] (hinv : cx.Involutive s₀)

include hinv

/-- One more cell. -/
theorem Covered.passStep {p q q' : Pass κ} (hrounds : Rounds (passStep cx) p s q t)
    (ht : Covered cx s₀ p s q t) (h : passStep cx q t = .ok (.inl q') u) :
    Covered cx s₀ p s q' u := by
  have hvisited := ht.visited.passStep hcx hrounds h
  cases passStep_ok h with
  | @skipped c r _ hc hr htarget hbudget =>
      have hadv := record_advances hr
      refine ⟨hvisited, ht.covers.record (Array.mem_of_getElem? hc) hr,
        fun hchanges i x hi hx => ?_,
        fun hchanges T hT => ht.still_analysed hcx hadv (fun _ _ h => h) hchanges hT⟩
      rcases getElem?_of_grows hc (fun _ _ h => h) hi hx with ⟨hlt, hx⟩ | rfl
      · exact ht.still_seen hcx hadv hchanges hlt hx
      · refine ⟨r.target, targetAt_eq_some_iff.mpr ⟨r, ?_, rfl⟩, htarget⟩
        exact (record_source hr).1 ▸ record_getElem? hr
  | @examined c r t' _ agenda hc hr hx analysed ha budget =>
      have hmem := Array.mem_of_getElem? hc
      have hadv := record_advances hr
      obtain ⟨ht', hreached, hr', hlisted, hpart⟩ := ht.visited.partway hcx hc hr hx
      have hcovers := (ht.covers.record hmem hr).examine hcx hinv hmem ht' hr' hlisted hx
      have hadv' := hadv.trans hpart.advances
      have hquiet (hchanges : u.changes = s.changes) : u.changes = t'.changes := by
        have h₁ := ht.visited.advances.changes
        have h₂ := hadv.changes
        have h₃ := hpart.advances.changes
        omega
      have hself (hchanges : u.changes = s.changes) : targetAt cx u c = some r.target :=
        targetAt_advance hcx ht'.reachable hpart.advances (hquiet hchanges) hreached.pos
          (targetAt_eq_some_iff.mpr ⟨r, hr', rfl⟩)
      refine ⟨hvisited, hcovers, fun hchanges i x hi hix => ?_, fun hchanges T hT => ?_⟩
      · rcases getElem?_of_grows hc hpart.grows hi hix with ⟨hlt, hx⟩ | rfl
        · obtain ⟨T, hT, hanalysed⟩ := ht.still_seen hcx hadv' hchanges hlt hx
          exact ⟨T, hT, by rw [ha, hanalysed, Bool.or_true]⟩
        · exact ⟨r.target, hself hchanges, by rw [ha, beq_self_eq_true, Bool.true_or]⟩
      · rw [ha, Bool.or_eq_true, beq_iff_eq] at hT
        rcases hT with rfl | hT
        · obtain ⟨i, hi⟩ := Array.getElem?_of_mem hmem
          exact ⟨c, Array.mem_of_getElem? (hpart.grows i c hi), hself hchanges,
            hpart.examined hcx ht'.reachable hreached.pos hr' (hquiet hchanges)⟩
        · exact ht.still_analysed hcx hadv' hpart.grows hchanges hT

theorem Covered.rounds {a : Agenda κ} {budget : Nat} {q : Pass κ} (hs : Sound cx s₀ s)
    (hagenda : Listed cx s₀ s.source a) (hcovers : Covers cx s₀ s (· ∈ a.cells))
    (h : Rounds (Surveying.passStep cx) ⟨0, Std.HashSet.emptyWithCapacity, a, budget⟩ s q t) :
    Covered cx s₀ ⟨0, Std.HashSet.emptyWithCapacity, a, budget⟩ s q t := by
  refine h.keeps (P := Covered cx s₀ ⟨0, Std.HashSet.emptyWithCapacity, a, budget⟩ s)
    (fun _ _ _ _ hrounds hq hstep => hq.passStep hcx hinv hrounds hstep)
    ⟨.rounds hcx hs hagenda rfl .refl, hcovers, fun _ i _ hi => ?_, fun _ T hT => ?_⟩
  · exact absurd hi (Nat.not_lt_zero i)
  · simp at hT

/-- A pass keeps all targets covered, and if it changes nothing it examines a cell for each. -/
theorem pass_covered {x : Agenda κ × Nat} {a : Agenda κ} {rest : Nat} (hs : Sound cx s₀ s)
    (hagenda : Listed cx s₀ s.source x.1) (hcovers : Covers cx s₀ s (· ∈ x.1.cells))
    (h : pass cx x.1 x.2 s = .ok (a, rest) t) :
    Covers cx s₀ t (· ∈ a.cells) ∧ (t.changes = s.changes → Represented cx t a) := by
  obtain ⟨q, hrounds, rfl, hnone⟩ := pass_ok h
  have hcovered := Covered.rounds hcx hinv hs hagenda hcovers hrounds
  refine ⟨hcovered.covers, fun hchanges k T hk => ?_⟩
  obtain ⟨c, hc, htarget⟩ := hcovered.covers.covered k T hk
  obtain ⟨i, hi⟩ := Array.getElem?_of_mem hc
  have hlt := (Array.getElem?_eq_some_iff.mp hi).1
  obtain ⟨T', hT', hanalysed⟩ := hcovered.seen hchanges i c
    (Nat.lt_of_lt_of_le hlt (Array.getElem?_eq_none_iff.mp hnone)) hi
  obtain rfl : T' = T := Option.some.inj (hT'.symm.trans htarget)
  exact hcovered.analysed hchanges T' hanalysed

theorem round_covered {x y : Agenda κ × Nat} (hs : Sound cx s₀ s ∧ Listed cx s₀ s.source x.1)
    (hcovers : Covers cx s₀ s (· ∈ x.1.cells)) (h : round cx x s = .ok (.inl y) t) :
    Covers cx s₀ t (· ∈ y.1.cells) := by
  obtain ⟨⟨a, rest⟩, hpass, hy⟩ := round_ok.mp h
  split at hy
  · cases hy
  · cases hy
    exact (pass_covered hcx hinv (s := { s with changes := 0 }) ⟨hs.1.reachable, hs.1.records⟩
      hs.2 ⟨hcovers.reachable, hcovers.pos, hcovers.covered⟩ hpass).1

/-- **After an analysis every target is that of an examined cell.** -/
theorem LastPass.represented {budget : Nat} {x : Agenda κ × Nat} {s₁ t : Survey σ κ}
    {a : Agenda κ} (h : LastPass cx budget ⟨s₀, ∅, 0⟩ x s₁ a t) : Represented cx t a := by
  obtain ⟨start, s₂, s₃, rest, hstart, hrounds, rfl, hpass, hchanges⟩ := h
  obtain ⟨hs₂, hreached⟩ := Sound.start hcx hstart
  have hlisted := Listed.ofCell (onSource_ok hstart).1 hreached
  have hcovers₂ : Covers cx s₀ s₂ (· ∈ (Agenda.ofCell start).cells) := by
    refine ⟨hs₂.reachable, fun c hc => (hlisted.reached c hc).pos, fun k T hk => ?_⟩
    rw [(onSource_ok hstart).2.1] at hk
    simp [Classes.targetOf] at hk
  obtain ⟨⟨hs₃, hagenda⟩, hcovers₃⟩ := hrounds.keeps
    (P := fun x s => (Sound cx s₀ s ∧ Listed cx s₀ s.source x.1) ∧
      Covers cx s₀ s (· ∈ x.1.cells))
    (fun _ _ _ _ _ hs hround =>
      ⟨round_visited hcx hs.1 hround, round_covered hcx hinv hs.1 hs.2 hround⟩)
    ⟨⟨hs₂, hlisted⟩, hcovers₂⟩
  exact (pass_covered hcx hinv (s := { s₃ with changes := 0 }) ⟨hs₃.reachable, hs₃.records⟩
    hagenda ⟨hcovers₃.reachable, hcovers₃.pos, hcovers₃.covered⟩ hpass).2 hchanges

end Surveying

end Mosaic
