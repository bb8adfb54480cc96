import Mosaic.Proofs.Conversion.Soundness

/-!
# Conversion — what a pass has compared

A pass keeps the records sound, and it lists only cells that walks from the first cell come to
(`Surveying.Listed`).  A pass that counts no change has compared every cell that it examined, edge
by edge, with the sample of its class and with itself a period on (`Surveying.Examined`).
-/

namespace Mosaic.Surveying

variable {α σ κ : Type} {cx : CellComplex α σ κ} {s₀ : σ} {s t u : Survey σ κ} {c : κ}
  {w w' v : Walker κ} (hcx : cx.Lawful s₀)

include hcx in
theorem Compared.advance {period j : Nat} (hs : cx.Reachable s₀ s.source) (hst : Advances cx s t)
    (hchanges : t.changes = s.changes) (h : Compared cx s w w' period j v) :
    Compared cx t w w' period j v := by
  obtain ⟨hcross, ⟨b, hb, hform⟩, ⟨b', hb', hform'⟩, r, hr, hbeyond⟩ := h
  have hturned (d : Int) : cx.turned t.source w d = cx.turned s.source w d :=
    CellComplex.turned_later (w := w) hcx hs hst.later hcross.1.pos d
  have hturned' : cx.turned t.source w' j = cx.turned s.source w' j :=
    CellComplex.turned_later (w := w') hcx hs hst.later hb.1.pos j
  have hv := hcross.2.1.pos
  have hsample : cx.turned t.source ⟨r.sample, v.spin⟩ (-(r.shift : Int)) =
      cx.turned s.source ⟨r.sample, v.spin⟩ (-(r.shift : Int)) := by
    obtain ⟨_, _, _, hcross', _⟩ := hbeyond
    exact CellComplex.turned_later (w := ⟨r.sample, v.spin⟩) hcx hs hst.later hcross'.1.pos _
  refine ⟨?_, ⟨b, ?_, ?_⟩, ⟨b', ?_, ?_⟩, r, ?_, ?_⟩
  · rw [hturned]
    exact hcross.later hcx hs hst.later
  · rw [hturned']
    exact hb.later hcx hs hst.later
  · exact hform.advance hcx hs hst hchanges hv hb.2.1.pos
  · rw [hturned]
    exact hb'.later hcx hs hst.later
  · exact hform'.advance hcx hs hst hchanges hv hb'.2.1.pos
  · rw [(hcx.later_stable hs hst.later hv).2]
    exact hst.records hchanges _ r hr
  · rw [hsample]
    exact hbeyond.advance hcx hs hst hchanges

variable [BEq κ] [Hashable κ]

variable (cx) in
/-- Listed are the first cell and others that are reached. -/
structure Listed (s₀ s : σ) (a : Agenda κ) : Prop where
  reached : ∀ c ∈ a.cells, cx.Reached s₀ s c
  cells : ∀ c, a.listed.contains c = true → c ∈ a.cells
  start : ∀ c s₁, cx.start s₀ = .ok c s₁ → c ∈ a.cells

variable (cx) in
/-- What lies across the edges of the cell is listed, and has been compared with what lies there
from the sample of its class. -/
def Examined (s : Survey σ κ) (a : Agenda κ) (c : κ) : Prop :=
  ∃ r : ClassRecord κ, s.classes[cx.classOf s.source c]? = some r ∧
    ∀ j < cx.degree s.source c, ∃ v, v.cell ∈ a.cells ∧
      Compared cx s (cx.turned s.source ⟨c, 0⟩ r.shift) ⟨r.sample, 0⟩ r.period j v

variable (cx) in
/-- The edges `l` of a cell have been examined on the way from `s` to `t`. -/
structure Partway (s₀ : σ) (s : Survey σ κ) (agenda : Agenda κ) (w w' : Walker κ) (period : Nat)
    (l : List Nat) (a : Agenda κ) (t : Survey σ κ) : Prop where
  sound : Sound cx s₀ t
  advances : Advances cx s t
  listed : Listed cx s₀ t.source a
  grows : ∀ (i : Nat) (c : κ), agenda.cells[i]? = some c → a.cells[i]? = some c
  compared : t.changes = s.changes → ∀ j ∈ l, ∃ v, v.cell ∈ a.cells ∧
    Compared cx t w w' period j v

namespace Listed

variable {a : Agenda κ}

include hcx in
theorem later (hs : cx.Reachable s₀ s.source) (hst : cx.Later s.source t.source)
    (h : Listed cx s₀ s.source a) : Listed cx s₀ t.source a :=
  ⟨fun c hc => (h.reached c hc).later hcx hs hst, h.cells, h.start⟩

theorem mem_add (h : Listed cx s₀ s.source a) (c : κ) : c ∈ (a.add c).cells := by
  unfold Agenda.add
  split
  · rename_i hc
    exact h.cells c hc
  · exact Array.mem_push_self

variable [LawfulBEq κ] [LawfulHashable κ]

theorem add (h : Listed cx s₀ s.source a) (hc : cx.Reached s₀ s.source c) :
    Listed cx s₀ s.source (a.add c) := by
  refine ⟨fun x hx => ?_, fun x hx => ?_, fun x s₁ hx => ?_⟩
  · rcases Agenda.mem_of_mem_add hx with hx | rfl
    · exact h.reached x hx
    · exact hc
  · unfold Agenda.add at hx ⊢
    split at hx
    · rename_i hlisted
      rw [if_pos hlisted]
      exact h.cells x hx
    · rename_i hlisted
      rw [if_neg hlisted]
      rw [Std.HashSet.contains_insert, Bool.or_eq_true, beq_iff_eq] at hx
      rcases hx with rfl | hx
      · exact Array.mem_push_self
      · exact Array.mem_push_of_mem _ (h.cells x hx)
  · obtain ⟨i, hi⟩ := Array.getElem?_of_mem (h.start x s₁ hx)
    exact Array.mem_of_getElem? (Agenda.getElem?_add hi)

theorem ofCell (h : cx.start s₀ = .ok c s.source) (hc : cx.Reached s₀ s.source c) :
    Listed cx s₀ s.source (Agenda.ofCell c) := by
  refine ⟨fun x hx => ?_, fun x hx => ?_, fun x s₁ hx => ?_⟩
  · obtain rfl := Array.mem_singleton.mp hx
    exact hc
  · rw [Agenda.ofCell, Std.HashSet.contains_insert, Bool.or_eq_true, beq_iff_eq] at hx
    rcases hx with rfl | hx
    · exact Array.mem_singleton.mpr rfl
    · simp at hx
  · rw [h] at hx
    cases hx
    exact Array.mem_singleton.mpr rfl

end Listed

variable [LawfulBEq κ] [LawfulHashable κ]

include hcx

/-- One more edge. -/
theorem Partway.examineEdge {agenda a a' : Agenda κ} {l : List Nat} {j : Nat} {r : ClassRecord κ}
    (hs : cx.Reachable s₀ s.source) (hforced : cx.Forced s₀ s.source w w')
    (hdegree : cx.degree s.source w.cell = cx.degree s.source w'.cell)
    (hr : s.classes[cx.classOf s.source w.cell]? = some r)
    (ht : Partway cx s₀ s agenda w w' r.period l a t)
    (h : examineEdge cx w w' a j t = .ok a' u) :
    Partway cx s₀ s agenda w w' r.period (l ++ [j]) a' u := by
  have hpos := hforced.stands.pos
  have hpos' := hforced.symm.stands.pos
  obtain ⟨hd, hclass⟩ := hcx.later_stable hs ht.advances.later hpos
  have hd' := (hcx.later_stable hs ht.advances.later hpos').1
  have hadv := examineEdge_advances h
  obtain ⟨hu, v, hv, rfl, hcompared⟩ := ht.sound.examineEdge hcx (hforced.later ht.advances.later)
    (hd.trans (hdegree.trans hd'.symm)) h
  have hlisted := ht.listed.later hcx ht.sound.reachable hadv.later
  refine ⟨hu, ht.advances.trans hadv, hlisted.add hv,
    fun i c hi => Agenda.getElem?_add (ht.grows i c hi), fun hchanges => ?_⟩
  have hst := ht.advances.changes
  have htu := hadv.changes
  intro k hk
  rcases List.mem_append.mp hk with hk | hk
  · obtain ⟨x, hx, hx'⟩ := ht.compared (by omega) k hk
    obtain ⟨i, hi⟩ := Array.getElem?_of_mem hx
    exact ⟨x, Array.mem_of_getElem? (Agenda.getElem?_add hi),
      hx'.advance hcx ht.sound.reachable hadv (by omega)⟩
  · obtain rfl := List.mem_singleton.mp hk
    refine ⟨v, hlisted.mem_add v.cell, hcompared r ?_ (by omega)⟩
    rw [hclass]
    exact ht.advances.records (by omega) _ r hr

omit [LawfulBEq κ] [LawfulHashable κ] [BEq κ] [Hashable κ] in
/-- A cell looks like the sample of its class when turned by the shift. -/
theorem Sound.forced_sample {r : ClassRecord κ} (hs : Sound cx s₀ s)
    (hc : cx.Reached s₀ s.source c) (hr : s.classes[cx.classOf s.source c]? = some r) :
    cx.Forced s₀ s.source (cx.turned s.source ⟨c, 0⟩ r.shift) ⟨r.sample, 0⟩ ∧
      cx.degree s.source c = cx.degree s.source r.sample := by
  have hrecord := hs.records.record _ r hr
  obtain ⟨hdegree, hlike⟩ := hrecord.looks.of_class hcx hs.reachable hc rfl
  have h₀ := hlike r.shift
  have hzero : cx.walker s.source r.sample 0 = ⟨r.sample, 0⟩ :=
    CellComplex.Stands.eq_walker (w := ⟨r.sample, 0⟩) hrecord.sample.pos
  rw [sub_self, hzero] at h₀
  rw [CellComplex.turned_first]
  exact ⟨h₀, hdegree⟩

/-- The edges of a cell. -/
theorem Sound.examine {r : ClassRecord κ} {agenda agenda' : Agenda κ} (hs : Sound cx s₀ s)
    (hc : cx.Reached s₀ s.source c) (hr : s.classes[cx.classOf s.source c]? = some r)
    (hagenda : Listed cx s₀ s.source agenda) (h : examine cx c r agenda s = .ok agenda' t) :
    Partway cx s₀ s agenda (cx.turned s.source ⟨c, 0⟩ r.shift) ⟨r.sample, 0⟩ r.period
      (List.range (cx.degree s.source c)) agenda' t := by
  obtain ⟨hforced, hdegree⟩ := hs.forced_sample hcx hc hr
  -- The walkers stay what they are; classes that are merged meanwhile do not matter.
  exact foldlM_ok (fun l j a u a' u' hu hedge => hu.examineEdge hcx hs.reachable hforced hdegree hr
    hedge) ⟨hs, .refl s, hagenda, fun _ _ hi => hi, fun _ j hj => by cases hj⟩ (examine_ok h)

omit [LawfulBEq κ] [LawfulHashable κ] in
/-- A cell all of whose edges have been examined without a change. -/
theorem Partway.examined {r : ClassRecord κ} {agenda a : Agenda κ} (hs : cx.Reachable s₀ s.source)
    (hc : 0 < cx.degree s.source c) (hr : s.classes[cx.classOf s.source c]? = some r)
    (h : Partway cx s₀ s agenda (cx.turned s.source ⟨c, 0⟩ r.shift) ⟨r.sample, 0⟩ r.period
      (List.range (cx.degree s.source c)) a t) (hchanges : t.changes = s.changes) :
    Examined cx t a c := by
  obtain ⟨hd, hclass⟩ := hcx.later_stable hs h.advances.later hc
  refine ⟨r, ?_, fun j hj => ?_⟩
  · rw [hclass]
    exact h.advances.records hchanges _ r hr
  · rw [CellComplex.turned_later (w := ⟨c, 0⟩) hcx hs h.advances.later hc]
    exact h.compared hchanges j (List.mem_range.mpr (hd ▸ hj))

omit [LawfulBEq κ] [LawfulHashable κ] in
theorem Examined.advance {a a' : Agenda κ} (hs : cx.Reachable s₀ s.source)
    (hc : 0 < cx.degree s.source c) (hst : Advances cx s t) (hchanges : t.changes = s.changes)
    (ha : ∀ (i : Nat) (x : κ), a.cells[i]? = some x → a'.cells[i]? = some x)
    (h : Examined cx s a c) : Examined cx t a' c := by
  obtain ⟨r, hr, hedges⟩ := h
  obtain ⟨hd, hclass⟩ := hcx.later_stable hs hst.later hc
  refine ⟨r, ?_, fun j hj => ?_⟩
  · rw [hclass]
    exact hst.records hchanges _ r hr
  · obtain ⟨v, hv, hcompared⟩ := hedges j (hd ▸ hj)
    obtain ⟨i, hi⟩ := Array.getElem?_of_mem hv
    rw [CellComplex.turned_later (w := ⟨c, 0⟩) hcx hs hst.later hc]
    exact ⟨v, Array.mem_of_getElem? (ha i _ hi), hcompared.advance hcx hs hst hchanges⟩

/-! ### Passes -/

omit hcx [LawfulBEq κ] [LawfulHashable κ]

variable (cx) in
/-- The pass has come to a cell whose target is analysed already, and the budget is spent. -/
def Skips (p : Pass κ) (s : Survey σ κ) : Prop :=
  ∃ c r t, p.agenda.cells[p.next]? = some c ∧ record cx c s = .ok r t ∧
    p.analysed.contains r.target = true ∧ p.budget = 0

variable (cx) in
/-- The pass from here on passes over none of the listed cells. -/
def Unskipped (p : Pass κ) (s : Survey σ κ) : Prop :=
  ∀ q t, Rounds (passStep cx) p s q t → ¬ Skips cx q t

variable (cx) in
/-- A pass that began with `p` in `s` has come to `q` in `t`.  The cells before have been examined
unless they were passed over. -/
structure Visited (s₀ : σ) (p : Pass κ) (s : Survey σ κ) (q : Pass κ) (t : Survey σ κ) : Prop where
  sound : Sound cx s₀ t
  advances : Advances cx s t
  listed : Listed cx s₀ t.source q.agenda
  examined : Unskipped cx p s → t.changes = s.changes → ∀ (i : Nat) (c : κ), i < q.next →
    q.agenda.cells[i]? = some c → Examined cx t q.agenda c

variable [LawfulBEq κ] [LawfulHashable κ]

include hcx

omit hcx [LawfulBEq κ] [LawfulHashable κ] in
/-- The cells up to place `n` of an agenda that has grown. -/
theorem getElem?_of_grows {a a' : Agenda κ} {n i : Nat} {x : κ} (hc : a.cells[n]? = some c)
    (hgrows : ∀ (i : Nat) (x : κ), a.cells[i]? = some x → a'.cells[i]? = some x) (hi : i < n + 1)
    (hx : a'.cells[i]? = some x) : (i < n ∧ a.cells[i]? = some x) ∨ x = c := by
  have hn := (Array.getElem?_eq_some_iff.mp hc).1
  obtain ⟨y, hy⟩ : ∃ y, a.cells[i]? = some y :=
    ⟨_, Array.getElem?_eq_getElem (Nat.lt_of_le_of_lt (Nat.le_of_lt_succ hi) hn)⟩
  obtain rfl : y = x := Option.some.inj ((hgrows i y hy).symm.trans hx)
  rcases Nat.lt_succ_iff_lt_or_eq.mp hi with hlt | rfl
  · exact Or.inl ⟨hlt, hy⟩
  · exact Or.inr (Option.some.inj (hy.symm.trans hc))

/-- The cell that a pass has come to is examined. -/
theorem Visited.partway {p q : Pass κ} {r : ClassRecord κ} {agenda : Agenda κ}
    {t' : Survey σ κ} (ht : Visited cx s₀ p s q t) (hc : q.agenda.cells[q.next]? = some c)
    (hr : record cx c t = .ok r u) (hx : examine cx c r q.agenda u = .ok agenda t') :
    Sound cx s₀ u ∧ cx.Reached s₀ u.source c ∧ u.classes[cx.classOf u.source c]? = some r ∧
      Listed cx s₀ u.source q.agenda ∧
      Partway cx s₀ u q.agenda (cx.turned u.source ⟨c, 0⟩ r.shift) ⟨r.sample, 0⟩ r.period
        (List.range (cx.degree u.source c)) agenda t' := by
  have hreached := ht.listed.reached _ (Array.mem_of_getElem? hc)
  have hadv := record_advances hr
  have hu := ht.sound.record hcx hreached hr
  have hreached' := hreached.later hcx ht.sound.reachable hadv.later
  have hr' : u.classes[cx.classOf u.source c]? = some r := (record_source hr).1 ▸ record_getElem? hr
  have hlisted := ht.listed.later hcx ht.sound.reachable hadv.later
  exact ⟨hu, hreached', hr', hlisted, hu.examine hcx hreached' hr' hlisted hx⟩

/-- One more cell. -/
theorem Visited.passStep {p q q' : Pass κ} (hrounds : Rounds (passStep cx) p s q t)
    (ht : Visited cx s₀ p s q t) (h : passStep cx q t = .ok (.inl q') u) :
    Visited cx s₀ p s q' u := by
  cases passStep_ok h with
  | @skipped c r _ hc hr htarget hbudget =>
      have hreached := ht.listed.reached _ (Array.mem_of_getElem? hc)
      have hadv := record_advances hr
      refine ⟨ht.sound.record hcx hreached hr, ht.advances.trans hadv,
        ht.listed.later hcx ht.sound.reachable hadv.later, fun hskip => ?_⟩
      exact absurd ⟨c, r, u, hc, hr, htarget, hbudget⟩ (hskip q t hrounds)
  | @examined c r t' _ agenda hc hr hx _ _ _ =>
      have hadv := record_advances hr
      obtain ⟨ht', hreached', hr', -, hpart⟩ := ht.partway hcx hc hr hx
      refine ⟨hpart.sound, ht.advances.trans (hadv.trans hpart.advances), hpart.listed,
        fun hskip hchanges i x hi hix => ?_⟩
      have h₁ := ht.advances.changes
      have h₂ := hadv.changes
      have h₃ := hpart.advances.changes
      rcases getElem?_of_grows hc hpart.grows hi hix with ⟨hlt, hx⟩ | rfl
      · exact (ht.examined hskip (by omega) i x hlt hx).advance hcx ht.sound.reachable
          (ht.listed.reached x (Array.mem_of_getElem? hx)).pos (hadv.trans hpart.advances)
          (by omega) hpart.grows
      · exact hpart.examined hcx ht'.reachable hreached'.pos hr' (by omega)

theorem Visited.rounds {p q : Pass κ} (hs : Sound cx s₀ s)
    (hagenda : Listed cx s₀ s.source p.agenda) (hnext : p.next = 0)
    (h : Rounds (Surveying.passStep cx) p s q t) : Visited cx s₀ p s q t :=
  h.keeps (P := Visited cx s₀ p s) (fun _ _ _ _ hrounds hq hstep => hq.passStep hcx hrounds hstep)
    ⟨hs, .refl s, hagenda, fun _ _ i _ hi => by omega⟩

end Mosaic.Surveying
