import Mosaic.Proofs.Conversion.Walk
import Mosaic.Proofs.Descent

/-!
# Conversion — what an analysis does

For every computation of an analysis, what it has done when it answers (`cross_ok`, `record_ok`,
`identify_ok`, `examineEdge_ok`).  All of them advance the survey (`Surveying.Advances`): the
complex is walked on, and as long as no change is counted, records are only added.
-/

namespace Mosaic

namespace Agenda

variable {κ : Type} [BEq κ] [Hashable κ] {a : Agenda κ} {c x : κ}

/-- The agenda has one more cell at most. -/
theorem mem_of_mem_add (h : x ∈ (a.add c).cells) : x ∈ a.cells ∨ x = c := by
  unfold add at h
  split at h
  · exact Or.inl h
  · exact Array.mem_push.mp h

/-- The cells listed before keep their places. -/
theorem getElem?_add {i : Nat} (h : a.cells[i]? = some x) : (a.add c).cells[i]? = some x := by
  obtain ⟨hi, hx⟩ := Array.getElem?_eq_some_iff.mp h
  unfold add
  split
  · exact h
  · rw [Array.getElem?_push_lt hi, hx]

end Agenda

namespace Surveying

variable {α σ κ : Type} (cx : CellComplex α σ κ)

/-- The complex is walked on, and no record changes without being counted. -/
structure Advances (s t : Survey σ κ) : Prop where
  later : cx.Later s.source t.source
  changes : s.changes ≤ t.changes
  records : t.changes = s.changes → ∀ (k : Nat) (r : ClassRecord κ),
    s.classes[k]? = some r → t.classes[k]? = some r

variable {cx} {s t u : Survey σ κ} {c : κ} {w v : Walker κ}

namespace Advances

theorem refl (s : Survey σ κ) : Advances cx s s := ⟨.refl _, Nat.le_refl _, fun _ _ _ h => h⟩

theorem trans (h : Advances cx s t) (h' : Advances cx t u) : Advances cx s u where
  later := h.later.trans h'.later
  changes := Nat.le_trans h.changes h'.changes
  records hu k r hr := by
    have hs := h.changes
    have ht := h'.changes
    exact h'.records (by omega) k r (h.records (by omega) k r hr)

end Advances

/-! ### Single computations -/

theorem degree_ok {n : Nat} :
    degree cx c s = .ok n t ↔ n = cx.degree s.source c ∧ t = s := by
  change EStateM.Result.ok _ s = _ ↔ _
  simp [eq_comm]

/-- A turn explores nothing. -/
theorem turn_ok {d : Int} : turn cx w d s = .ok v t ↔ v = cx.turned s.source w d ∧ t = s := by
  change EStateM.Result.ok _ s = _ ↔ _
  simp [CellComplex.turned, CellComplex.walker, eq_comm]

/-- What is asked of the source leaves the classes. -/
theorem onSource_ok {β : Type} {f : EStateM (MapError α) σ β} {b : β}
    (h : onSource f s = .ok b t) : f s.source = .ok b t.source ∧ t.classes = s.classes ∧
      t.changes = s.changes := by
  obtain ⟨source, classes, changes⟩ := s
  unfold onSource at h
  cases hf : f source with
  | ok b' source' =>
      simp only [hf] at h
      cases h
      exact ⟨rfl, rfl, rfl⟩
  | error e source' =>
      simp only [hf] at h
      cases h

/-- A walker that crosses an edge arrives where the complex says. -/
theorem cross_ok (h : cross cx w s = .ok v t) :
    cx.step w.cell w.spin s.source = .ok (v.cell, v.spin) t.source ∧ t.classes = s.classes ∧
      t.changes = s.changes := by
  unfold cross at h
  obtain ⟨⟨c, i⟩, u, hstep, h⟩ := bind_ok.mp h
  obtain ⟨rfl, rfl⟩ := pure_ok.mp h
  exact onSource_ok hstep

/-- The record of a class is there, or a new one is made. -/
theorem record_ok {r : ClassRecord κ} (h : record cx c s = .ok r t) :
    (s.classes[cx.classOf s.source c]? = some r ∧ t = s) ∨
    (s.classes[cx.classOf s.source c]? = none ∧
      r = ⟨cx.classOf s.source c, 0, Nat.max (cx.degree s.source c) 1, c⟩ ∧
      t = { s with classes := s.classes.insert (cx.classOf s.source c) r }) := by
  unfold record at h
  obtain ⟨s', u, hget, h⟩ := bind_ok.mp h
  cases hget
  cases hk : s.classes[cx.classOf s.source c]? with
  | some r' =>
      simp only [hk] at h
      obtain ⟨rfl, rfl⟩ := pure_ok.mp h
      exact Or.inl ⟨rfl, rfl⟩
  | none =>
      simp only [hk] at h
      cases h
      exact Or.inr ⟨rfl, rfl, rfl⟩

/-- A class that is recorded is looked up without a change. -/
theorem record_eq_ok {r : ClassRecord κ} (hr : s.classes[cx.classOf s.source c]? = some r) :
    record cx c s = .ok r s := by
  unfold record
  refine bind_ok.mpr ⟨s, s, rfl, ?_⟩
  rw [hr]
  rfl

/-- To look for the record of a cell explores nothing. -/
theorem record_source {r : ClassRecord κ} (h : record cx c s = .ok r t) :
    t.source = s.source ∧ t.changes = s.changes := by
  rcases record_ok h with ⟨-, rfl⟩ | ⟨-, -, rfl⟩ <;> exact ⟨rfl, rfl⟩

/-- The record of a cell is that of its class. -/
theorem record_getElem? {r : ClassRecord κ} (h : record cx c s = .ok r t) :
    t.classes[cx.classOf s.source c]? = some r := by
  rcases record_ok h with ⟨hr, rfl⟩ | ⟨-, -, rfl⟩
  · exact hr
  · exact Std.TreeMap.getElem?_insert_self

/-- A class that is recorded keeps its record. -/
theorem record_eq {r r' : ClassRecord κ} (h : record cx c s = .ok r t)
    (hr' : s.classes[cx.classOf s.source c]? = some r') : r = r' := by
  rcases record_ok h with ⟨hr, -⟩ | ⟨hnone, -, -⟩
  · exact Option.some.inj (hr.symm.trans hr')
  · rw [hnone] at hr'
    cases hr'

/-- Identifying two walkers whose classes are recorded. -/
theorem identify_eq {w₁ w₂ : Walker κ} {r₁ r₂ : ClassRecord κ}
    (h₁ : s.classes[cx.classOf s.source w₁.cell]? = some r₁)
    (h₂ : s.classes[cx.classOf s.source w₂.cell]? = some r₂) : identify cx w₁ w₂ s =
      if cx.degree s.source w₁.cell = cx.degree s.source w₂.cell then
        .ok () (match s.classes.identify r₁ w₁.spin r₂ w₂.spin with
          | some classes => { s with classes, changes := s.changes + 1 }
          | none => s)
      else
        .error (.degreeMismatch (cx.degree s.source w₁.cell) (cx.degree s.source w₂.cell)) s := by
  have hdegree (c : κ) : degree cx c s = .ok (cx.degree s.source c) s := degree_ok.mpr ⟨rfl, rfl⟩
  by_cases heq : cx.degree s.source w₁.cell = cx.degree s.source w₂.cell
  · simp only [identify, bind, EStateM.bind, record_eq_ok h₁, record_eq_ok h₂, hdegree, heq, ne_eq,
      not_true_eq_false, if_false, if_true]
    rfl
  · simp only [identify, bind, EStateM.bind, record_eq_ok h₁, record_eq_ok h₂, hdegree, heq, ne_eq,
      not_false_eq_true, if_false, if_true]
    rfl

/-- Two walkers that are identified have cells of one degree, and their records are joined or were
so before. -/
theorem identify_ok {w' : Walker κ} {x : Unit} (h : identify cx w w' s = .ok x t) :
    ∃ r r' s₁ s₂, record cx w.cell s = .ok r s₁ ∧ record cx w'.cell s₁ = .ok r' s₂ ∧
      cx.degree s.source w.cell = cx.degree s.source w'.cell ∧
      match s₂.classes.identify r w.spin r' w'.spin with
      | some classes => t = { s₂ with classes, changes := s₂.changes + 1 }
      | none => t = s₂ := by
  unfold identify at h
  obtain ⟨r, s₁, hr, h⟩ := bind_ok.mp h
  obtain ⟨r', s₂, hr', h⟩ := bind_ok.mp h
  obtain ⟨n, s₃, hn, h⟩ := bind_ok.mp h
  obtain ⟨rfl, rfl⟩ := degree_ok.mp hn
  obtain ⟨n', s₄, hn', h⟩ := bind_ok.mp h
  obtain ⟨rfl, rfl⟩ := degree_ok.mp hn'
  have hs : s₄.source = s.source := (record_source hr').1.trans (record_source hr).1
  rw [hs] at h
  refine ⟨r, r', s₁, s₄, hr, hr', ?_⟩
  split at h
  · cases h
  · rename_i hdegree
    cases h
    refine ⟨not_ne_iff.mp hdegree, ?_⟩
    dsimp only
    cases s₄.classes.identify r w.spin r' w'.spin <;> rfl

/-- A walker is taken to the sample of its class, as far turned as the record says. -/
theorem toSample_ok (h : toSample cx w s = .ok v t) :
    ∃ r, record cx w.cell s = .ok r t ∧
      v = cx.turned t.source ⟨r.sample, w.spin⟩ (-(r.shift : Int)) := by
  unfold toSample at h
  obtain ⟨r, s₁, hr, h⟩ := bind_ok.mp h
  obtain ⟨rfl, rfl⟩ := turn_ok.mp h
  exact ⟨r, hr, rfl⟩

/-- Crossing an edge undoes no identification. -/
theorem cross_advances (h : cross cx w s = .ok v t) : Advances cx s t := by
  obtain ⟨hstep, hclasses, hchanges⟩ := cross_ok h
  exact ⟨.of_step hstep, Nat.le_of_eq hchanges.symm, fun _ k r hr => hclasses ▸ hr⟩

/-- Neither does a new record. -/
theorem record_advances {r : ClassRecord κ} (h : record cx c s = .ok r t) : Advances cx s t := by
  rcases record_ok h with ⟨-, rfl⟩ | ⟨hnone, -, rfl⟩
  · exact .refl _
  · refine ⟨.refl _, Nat.le_refl _, fun _ k r' hr' => ?_⟩
    have hk : k ≠ cx.classOf s.source c := by
      rintro rfl
      rw [hnone] at hr'
      cases hr'
    simpa [Std.TreeMap.getElem?_insert, Ne.symm hk] using hr'

theorem toSample_advances (h : toSample cx w s = .ok v t) : Advances cx s t := by
  obtain ⟨r, hr, -⟩ := toSample_ok h
  exact record_advances hr

/-- Identifications add up. -/
theorem identify_advances {w' : Walker κ} {x : Unit} (h : identify cx w w' s = .ok x t) :
    Advances cx s t := by
  obtain ⟨r, r', s₁, s₂, hr, hr', -, ht⟩ := identify_ok h
  have hs := (record_advances hr).trans (record_advances hr')
  split at ht
  · subst ht
    refine hs.trans ⟨.refl _, Nat.le_succ _, fun hsucc => ?_⟩
    exact absurd hsucc (Nat.succ_ne_self _)
  · subst ht
    exact hs

/-! ### Canonical forms -/

variable (cx) in
/-- The records of the two walkers have the same target, and their directions the same residue. -/
def SameForm (s : Survey σ κ) (w w' : Walker κ) : Prop :=
  ∃ r r' : ClassRecord κ, s.classes[cx.classOf s.source w.cell]? = some r ∧
    s.classes[cx.classOf s.source w'.cell]? = some r' ∧ r.target = r'.target ∧
    r.residue w.spin = r'.residue w'.spin

namespace SameForm

variable {w' w'' : Walker κ}

/-- Whether two walkers have the same form does not depend on their order. -/
theorem symm (h : SameForm cx s w w') : SameForm cx s w' w := by
  obtain ⟨r, r', hr, hr', htarget, hresidue⟩ := h
  exact ⟨r', r, hr', hr, htarget.symm, hresidue.symm⟩

theorem trans (h : SameForm cx s w w') (h' : SameForm cx s w' w'') : SameForm cx s w w'' := by
  obtain ⟨r₁, r₂, hr₁, hr₂, htarget, hresidue⟩ := h
  obtain ⟨r₂', r₃, hr₂', hr₃, htarget', hresidue'⟩ := h'
  obtain rfl : r₂ = r₂' := Option.some.inj (hr₂.symm.trans hr₂')
  exact ⟨r₁, r₃, hr₁, hr₃, htarget.trans htarget', hresidue.trans hresidue'⟩

/-- Canonical forms that are the same stay so until a change is counted. -/
theorem advance {s₀ : σ} (hcx : cx.Lawful s₀) (hs : cx.Reachable s₀ s.source)
    (ht : Advances cx s t) (hchanges : t.changes = s.changes) (hw : 0 < cx.degree s.source w.cell)
    (hw' : 0 < cx.degree s.source w'.cell) (h : SameForm cx s w w') : SameForm cx t w w' := by
  obtain ⟨r, r', hr, hr', hform⟩ := h
  refine ⟨r, r', ?_, ?_, hform⟩
  · rw [(hcx.later_stable hs ht.later hw).2]
    exact ht.records hchanges _ r hr
  · rw [(hcx.later_stable hs ht.later hw').2]
    exact ht.records hchanges _ r' hr'

end SameForm

/-- Walkers are identified without a change only if they have the same canonical form. -/
theorem sameForm_of_identify {w' : Walker κ} {x : Unit} (h : identify cx w w' s = .ok x t)
    (hchanges : t.changes = s.changes) : SameForm cx t w w' := by
  obtain ⟨r, r', s₁, s₂, hr, hr', -, ht⟩ := identify_ok h
  obtain ⟨hsource, hcount⟩ := record_source hr
  obtain ⟨hsource', hcount'⟩ := record_source hr'
  have hk := (record_advances hr').records hcount' _ r (record_getElem? hr)
  have hk' := record_getElem? hr'
  split at ht
  · subst ht
    simp only at hchanges
    omega
  · rename_i hnone
    subst ht
    rw [hsource] at hk'
    rw [← hsource, ← hsource'] at hk hk'
    unfold Classes.identify at hnone
    simp only at hnone
    split at hnone
    · cases hnone
    · rename_i htarget
      split at hnone
      · cases hnone
      · rename_i hresidue
        exact ⟨r, r', hk, hk', not_ne_iff.mp htarget, not_ne_iff.mp hresidue⟩

/-! ### Examining cells -/

variable [BEq κ] [Hashable κ]

/-- What has been done when an edge has been examined. -/
theorem examineEdge_ok {agenda agenda' : Agenda κ} {j : Nat} {w' : Walker κ}
    (h : examineEdge cx w w' agenda j s = .ok agenda' t) :
    ∃ a b r c o p q s₁ s₂ s₃ s₄ s₅ s₆ s₇ s₈ s₉,
      cross cx (cx.turned s.source w j) s = .ok a s₁ ∧
      cross cx (cx.turned s₁.source w' j) s₁ = .ok b s₂ ∧
      identify cx a b s₂ = .ok () s₃ ∧
      record cx w.cell s₃ = .ok r s₄ ∧
      cross cx (cx.turned s₄.source w ((j : Int) + r.period)) s₄ = .ok c s₅ ∧
      identify cx a c s₅ = .ok () s₆ ∧
      toSample cx a s₆ = .ok o s₇ ∧
      cross cx a s₇ = .ok p s₈ ∧
      cross cx o s₈ = .ok q s₉ ∧
      identify cx p q s₉ = .ok () t ∧
      agenda' = agenda.add a.cell := by
  unfold examineEdge at h
  obtain ⟨_, _, hturn, h⟩ := bind_ok.mp h
  obtain ⟨rfl, rfl⟩ := turn_ok.mp hturn
  obtain ⟨a, s₁, ha, h⟩ := bind_ok.mp h
  obtain ⟨_, _, hturn', h⟩ := bind_ok.mp h
  obtain ⟨rfl, rfl⟩ := turn_ok.mp hturn'
  obtain ⟨b, s₂, hb, h⟩ := bind_ok.mp h
  obtain ⟨⟨⟩, s₃, hab, h⟩ := bind_ok.mp h
  obtain ⟨r, s₄, hr, h⟩ := bind_ok.mp h
  obtain ⟨_, _, hturn'', h⟩ := bind_ok.mp h
  obtain ⟨rfl, rfl⟩ := turn_ok.mp hturn''
  obtain ⟨c, s₅, hc, h⟩ := bind_ok.mp h
  obtain ⟨⟨⟩, s₆, hac, h⟩ := bind_ok.mp h
  obtain ⟨o, s₇, ho, h⟩ := bind_ok.mp h
  obtain ⟨p, s₈, hp, h⟩ := bind_ok.mp h
  obtain ⟨q, s₉, hq, h⟩ := bind_ok.mp h
  obtain ⟨⟨⟩, s₁₀, hpq, h⟩ := bind_ok.mp h
  obtain ⟨rfl, rfl⟩ := pure_ok.mp h
  exact ⟨a, b, r, c, o, p, q, _, _, _, _, _, _, _, _, _, ha, hb, hab, hr, hc, hac, ho, hp, hq, hpq,
    rfl⟩

theorem examineEdge_advances {agenda agenda' : Agenda κ} {j : Nat} {w' : Walker κ}
    (h : examineEdge cx w w' agenda j s = .ok agenda' t) : Advances cx s t := by
  obtain ⟨a, b, r, c, o, p, q, s₁, s₂, s₃, s₄, s₅, s₆, s₇, s₈, s₉, ha, hb, hab, hr, hc, hac, ho, hp,
    hq, hpq, -⟩ := examineEdge_ok h
  have h₃ := ((cross_advances ha).trans (cross_advances hb)).trans (identify_advances hab)
  have h₆ := ((record_advances hr).trans (cross_advances hc)).trans (identify_advances hac)
  have h₉ := ((toSample_advances ho).trans (cross_advances hp)).trans (cross_advances hq)
  exact ((h₃.trans h₆).trans h₉).trans (identify_advances hpq)

/-- An examination goes through the edges of the cell, beside those of the sample. -/
theorem examine_ok {r : ClassRecord κ} {agenda agenda' : Agenda κ}
    (h : examine cx c r agenda s = .ok agenda' t) :
    (List.range (cx.degree s.source c)).foldlM
      (examineEdge cx (cx.turned s.source ⟨c, 0⟩ r.shift) ⟨r.sample, 0⟩) agenda s =
        .ok agenda' t := by
  unfold examine at h
  obtain ⟨_, _, hturn, h⟩ := bind_ok.mp h
  obtain ⟨rfl, rfl⟩ := turn_ok.mp hturn
  obtain ⟨_, _, hdegree, h⟩ := bind_ok.mp h
  obtain ⟨rfl, rfl⟩ := degree_ok.mp hdegree
  exact h

/-- The outcomes of a step of a pass. -/
inductive PassOutcome (cx : CellComplex α σ κ) (p : Pass κ) (s : Survey σ κ) :
    Pass κ ⊕ (Agenda κ × Nat) → Survey σ κ → Prop where
  | ended (h : p.agenda.cells[p.next]? = none) : PassOutcome cx p s (.inr (p.agenda, p.budget)) s
  | skipped {c : κ} {r : ClassRecord κ} {t : Survey σ κ} (hc : p.agenda.cells[p.next]? = some c)
      (hr : record cx c s = .ok r t) (ht : p.analysed.contains r.target = true)
      (hb : p.budget = 0) : PassOutcome cx p s (.inl { p with next := p.next + 1 }) t
  | examined {c : κ} {r : ClassRecord κ} {t u : Survey σ κ} {agenda : Agenda κ}
      (hc : p.agenda.cells[p.next]? = some c) (hr : record cx c s = .ok r t)
      (hx : examine cx c r p.agenda t = .ok agenda u) {analysed : Std.HashSet Nat}
      (ha : ∀ k, analysed.contains k = (r.target == k || p.analysed.contains k)) (budget : Nat) :
      PassOutcome cx p s (.inl ⟨p.next + 1, analysed, agenda, budget⟩) u

/-- What a round of a pass has done. -/
theorem passStep_ok {p : Pass κ} {x : Pass κ ⊕ (Agenda κ × Nat)}
    (h : passStep cx p s = .ok x t) : PassOutcome cx p s x t := by
  unfold passStep at h
  cases hc : p.agenda.cells[p.next]? with
  | none =>
      simp only [hc] at h
      obtain ⟨rfl, rfl⟩ := pure_ok.mp h
      exact .ended hc
  | some c =>
      simp only [hc] at h
      obtain ⟨r, s₁, hr, h⟩ := bind_ok.mp h
      split at h
      · rename_i ht
        split at h
        · rename_i hb
          obtain ⟨rfl, rfl⟩ := pure_ok.mp h
          exact .skipped hc hr ht hb
        · obtain ⟨agenda, s₂, hx, h⟩ := bind_ok.mp h
          obtain ⟨rfl, rfl⟩ := pure_ok.mp h
          refine .examined hc hr hx (fun k => ?_) _
          cases hk : r.target == k with
          | false => rw [Bool.false_or]
          | true => rw [← beq_iff_eq.mp hk, ht, Bool.true_or]
      · obtain ⟨agenda, s₂, hx, h⟩ := bind_ok.mp h
        obtain ⟨rfl, rfl⟩ := pure_ok.mp h
        exact .examined hc hr hx (fun k => Std.HashSet.contains_insert) _

/-- A cell whose target has not been analysed. -/
theorem passStep_of_fresh {p : Pass κ} {r : ClassRecord κ} {agenda : Agenda κ}
    (hc : p.agenda.cells[p.next]? = some c) (hr : record cx c s = .ok r t)
    (htarget : p.analysed.contains r.target = false)
    (hx : examine cx c r p.agenda t = .ok agenda u) :
    passStep cx p s = .ok (.inl ⟨p.next + 1, p.analysed.insert r.target, agenda, p.budget⟩) u := by
  simp only [passStep, hc, bind, EStateM.bind, hr, htarget, hx, pure, EStateM.pure,
    Bool.false_eq_true, if_false]

/-- A cell whose target has been analysed, while the budget lasts. -/
theorem passStep_of_budget {p : Pass κ} {r : ClassRecord κ} {agenda : Agenda κ} {b : Nat}
    (hc : p.agenda.cells[p.next]? = some c) (hr : record cx c s = .ok r t)
    (htarget : p.analysed.contains r.target = true) (hb : p.budget = b + 1)
    (hx : examine cx c r p.agenda t = .ok agenda u) :
    passStep cx p s = .ok (.inl ⟨p.next + 1, p.analysed, agenda, b⟩) u := by
  simp only [passStep, hc, bind, EStateM.bind, hr, htarget, hb, hx, pure, EStateM.pure, if_true,
    Nat.add_sub_cancel, if_neg (Nat.succ_ne_zero b)]

/-- A pass ends when the agenda does. -/
theorem passStep_of_ended {p : Pass κ} (hc : p.agenda.cells[p.next]? = none) :
    passStep cx p s = .ok (.inr (p.agenda, p.budget)) s := by
  simp only [passStep, hc, pure, EStateM.pure]

/-- A pass ends after rounds that went on, when all listed cells have been visited. -/
theorem pass_ok {agenda agenda' : Agenda κ} {budget budget' : Nat}
    (h : pass cx agenda budget s = .ok (agenda', budget') t) :
    ∃ p, Rounds (passStep cx) ⟨0, Std.HashSet.emptyWithCapacity, agenda, budget⟩ s p t ∧
      p.agenda = agenda' ∧ agenda'.cells[p.next]? = none := by
  obtain ⟨p, u, hrounds, hstep⟩ := descend_ok h
  cases passStep_ok hstep with
  | ended hnone => exact ⟨p, hrounds, rfl, hnone⟩

/-- A pass that has changed nothing is the last one. -/
theorem round_ok {x : Agenda κ × Nat} {y : (Agenda κ × Nat) ⊕ Unit} :
    round cx x s = .ok y t ↔ ∃ next, pass cx x.1 x.2 { s with changes := 0 } = .ok next t ∧
      y = if t.changes = 0 then .inr () else .inl next := by
  unfold round
  constructor
  · intro h
    obtain ⟨_, _, hmod, h⟩ := bind_ok.mp h
    cases hmod
    obtain ⟨next, _, hpass, h⟩ := bind_ok.mp h
    obtain ⟨_, _, hget, h⟩ := bind_ok.mp h
    cases hget
    obtain ⟨rfl, rfl⟩ := pure_ok.mp h
    exact ⟨next, hpass, rfl⟩
  · rintro ⟨next, hpass, rfl⟩
    exact bind_ok.mpr ⟨(), _, rfl, bind_ok.mpr ⟨next, t, hpass, bind_ok.mpr ⟨t, t, rfl, rfl⟩⟩⟩

end Surveying

end Mosaic
