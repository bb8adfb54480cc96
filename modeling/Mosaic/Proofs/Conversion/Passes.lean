import Mosaic.Proofs.Conversion.Operations

/-!
# Conversion — the course of an analysis

What an analysis does is told cell by cell and pass by pass.

* `Visit`, `Surveying.Visiting`: a listed cell is examined because its target has not been analysed
  in this pass, or at the expense of the budget, or it is passed over.
* `Surveying.Visits`, `Surveying.Passes`: visits one after the other, and passes that have changed
  something and are followed by another one.
* `Surveying.Ending`: all passes of an analysis, and how it ends.  There is no other reason to end
  than that nothing has been changed, or that a step across an edge or an identification fails.

All of it is made of steps (`Visits.progress`, `Passes.progress`).
-/

namespace Mosaic

/-- What is done about a listed cell. -/
inductive Visit where
  | free (target : Nat)
  | paid
  | passed
  deriving DecidableEq, Repr

namespace Visit

/-- The target that is analysed, if it is free of charge. -/
def target? : Visit → Option Nat
  | free k => some k
  | paid => none
  | passed => none

/-- What the visit costs. -/
def cost : Visit → Nat
  | free _ => 0
  | paid => 1
  | passed => 0

end Visit

/-- The visits of a pass, and how many changes it has counted. -/
structure PassLog where
  visits : List Visit
  changes : Nat

namespace PassLog

/-- The targets that are analysed free of charge. -/
def targets (l : PassLog) : List Nat := l.visits.filterMap Visit.target?

/-- How much of the budget is spent. -/
def cost (l : PassLog) : Nat := (l.visits.map Visit.cost).sum

end PassLog

/-- The beginning of a pass. -/
def Pass.start {κ : Type} [BEq κ] [Hashable κ] (x : Agenda κ × Nat) : Pass κ :=
  ⟨0, Std.HashSet.emptyWithCapacity, x.1, x.2⟩

namespace Surveying

variable {α σ κ : Type} (cx : CellComplex α σ κ) [BEq κ] [Hashable κ]

/-- The next listed cell is visited, which leads to `x`. -/
inductive Visiting (p : Pass κ) (s : Survey σ κ) :
    Visit → EStateM.Result (MapError α) (Survey σ κ) (Pass κ) → Prop where
  | free {c : κ} {r : ClassRecord κ} {t : Survey σ κ} {x}
      (hc : p.agenda.cells[p.next]? = some c) (hr : record cx c s = .ok r t)
      (hfresh : p.analysed.contains r.target = false)
      (hx : (do return ⟨p.next + 1, p.analysed.insert r.target, ← examine cx c r p.agenda,
        p.budget⟩ : Surveying α σ κ (Pass κ)) t = x) : Visiting p s (.free r.target) x
  | paid {c : κ} {r : ClassRecord κ} {t : Survey σ κ} {b : Nat} {x}
      (hc : p.agenda.cells[p.next]? = some c) (hr : record cx c s = .ok r t)
      (hdone : p.analysed.contains r.target = true) (hb : p.budget = b + 1)
      (hx : (do return ⟨p.next + 1, p.analysed, ← examine cx c r p.agenda, b⟩ :
        Surveying α σ κ (Pass κ)) t = x) : Visiting p s .paid x
  | passed {c : κ} {r : ClassRecord κ} {t : Survey σ κ}
      (hc : p.agenda.cells[p.next]? = some c) (hr : record cx c s = .ok r t)
      (hdone : p.analysed.contains r.target = true) (hb : p.budget = 0) :
      Visiting p s .passed (.ok { p with next := p.next + 1 } t)

/-- Visits that have succeeded. -/
inductive Visits (p : Pass κ) (s : Survey σ κ) : List Visit → Pass κ → Survey σ κ → Prop where
  | nil : Visits p s [] p s
  | snoc {vs : List Visit} {v : Visit} {q q' : Pass κ} {t u : Survey σ κ} (h : Visits p s vs q t)
      (hv : Visiting cx q t v (.ok q' u)) : Visits p s (vs ++ [v]) q' u

/-- Passes that have counted changes, so that there is another one. -/
inductive Passes (x : Agenda κ × Nat) (s : Survey σ κ) :
    List PassLog → Agenda κ × Nat → Survey σ κ → Prop where
  | nil : Passes x s [] x s
  | snoc {ls : List PassLog} {vs : List Visit} {y : Agenda κ × Nat} {p : Pass κ} {t u : Survey σ κ}
      (h : Passes x s ls y t) (hv : Visits cx (.start y) { t with changes := 0 } vs p u)
      (hend : p.agenda.cells[p.next]? = none) (hchanges : u.changes ≠ 0) :
      Passes x s (ls ++ [⟨vs, u.changes⟩]) (p.agenda, p.budget) u

/-- The passes of a whole analysis, and what it comes to. -/
inductive Ending (budget : Nat) (s₀ : σ) :
    List PassLog → EStateM.Result (MapError α) (Survey σ κ) Unit → Prop where
  | unstarted {e : MapError α} {s : σ} (hstart : cx.start s₀ = .error e s) :
      Ending budget s₀ [] (.error e ⟨s, ∅, 0⟩)
  | settled {c : κ} {s : σ} {ls : List PassLog} {vs : List Visit} {x : Agenda κ × Nat}
      {t u : Survey σ κ} {p : Pass κ} (hstart : cx.start s₀ = .ok c s)
      (h : Passes cx (.ofCell c, budget) ⟨s, ∅, 0⟩ ls x t)
      (hv : Visits cx (.start x) { t with changes := 0 } vs p u)
      (hend : p.agenda.cells[p.next]? = none) (hchanges : u.changes = 0) :
      Ending budget s₀ (ls ++ [⟨vs, u.changes⟩]) (.ok () u)
  | failed {c : κ} {s : σ} {ls : List PassLog} {vs : List Visit} {x : Agenda κ × Nat}
      {t u w : Survey σ κ} {p : Pass κ} {v : Visit} {e : MapError α}
      (hstart : cx.start s₀ = .ok c s) (h : Passes cx (.ofCell c, budget) ⟨s, ∅, 0⟩ ls x t)
      (hv : Visits cx (.start x) { t with changes := 0 } vs p u)
      (hfail : Visiting cx p u v (.error e w)) :
      Ending budget s₀ (ls ++ [⟨vs ++ [v], w.changes⟩]) (.error e w)

variable {cx} {there : σ → κ → Prop} {deg : Nat → Nat} {s₀ : σ} {s t u : Survey σ κ}
  {p q : Pass κ} {v : Visit} {vs : List Visit}

/-! ### Visits -/

variable (cx) in
/-- A step of a pass visits the next listed cell. -/
theorem passStep_visiting {c : κ} (s : Survey σ κ) (hc : p.agenda.cells[p.next]? = some c) :
    ∃ v x, Visiting cx p s v x ∧ passStep cx p s = match x with
      | .ok q u => .ok (.inl q) u
      | .error e u => .error e u := by
  obtain ⟨t, hr⟩ := exists_record cx s c
  cases hdone : p.analysed.contains (recordOf cx s c).target with
  | false =>
      refine ⟨_, _, .free hc hr hdone rfl, ?_⟩
      simp only [passStep, hc, bind, EStateM.bind, hr, hdone, pure, EStateM.pure,
        Bool.false_eq_true, if_false]
      cases examine cx c (recordOf cx s c) p.agenda t <;> rfl
  | true =>
      cases hb : p.budget with
      | zero =>
          refine ⟨_, _, .passed hc hr hdone hb, ?_⟩
          simp only [passStep, hc, bind, EStateM.bind, hr, hdone, hb, pure, EStateM.pure, if_true]
      | succ b =>
          refine ⟨_, _, .paid hc hr hdone hb rfl, ?_⟩
          simp only [passStep, hc, bind, EStateM.bind, hr, hdone, hb, pure, EStateM.pure, if_true,
            Nat.add_sub_cancel, if_neg (Nat.succ_ne_zero b)]
          cases examine cx c (recordOf cx s c) p.agenda t <;> rfl

/-- What a visit takes: its target is not analysed yet and is so from then on, or it costs a part of
the budget, or nothing. -/
structure Accounted (cx : CellComplex α σ κ) (there : σ → κ → Prop) (p q : Pass κ) (v : Visit) :
    Prop where
  next : q.next = p.next + 1
  budget : p.budget = q.budget + v.cost
  analysed : match v.target? with
    | some k => p.analysed.contains k = false ∧ q.analysed = p.analysed.insert k ∧
        ∃ s c, there s c ∧ cx.classOf s c = k
    | none => q.analysed = p.analysed

theorem Visiting.exists_cell {x} (h : Visiting cx p s v x) :
    ∃ c, p.agenda.cells[p.next]? = some c := by
  cases h <;> exact ⟨_, ‹_›⟩

/-- What is analysed free of charge has not been analysed yet. -/
theorem Visiting.fresh {x} (h : Visiting cx p s v x) {k : Nat} (hk : v.target? = some k) :
    p.analysed.contains k = false := by
  cases h with
  | free _ _ hfresh => exact Option.some.inj hk ▸ hfresh
  | paid => cases hk
  | passed => cases hk

theorem Visiting.cost_le {x} (h : Visiting cx p s v x) : v.cost ≤ p.budget := by
  cases h with
  | free => exact Nat.zero_le _
  | paid _ _ _ hb => rw [hb]; exact Nat.le_add_left 1 _
  | passed => exact Nat.zero_le _

section

variable (hcx : cx.Surveyable s₀ there deg)

include hcx

/-- A visit is made of steps. -/
theorem Visiting.works {x} (h : Visiting cx p s v x) (hs : Tidy cx there deg s)
    (ha : OnMap there p.agenda s) :
    Works cx there (fun q t => OnMap there q.agenda t ∧ Accounted cx there p q v) s x := by
  have hcl := hcx.toClassified
  -- Up to the examination, all cases are the same.
  have hexamine {c : κ} {r : ClassRecord κ} {t : Survey σ κ} {f : Agenda κ → Pass κ}
      (hc : p.agenda.cells[p.next]? = some c) (hr : record cx c s = .ok r t)
      (hagenda : ∀ a, (f a).agenda = a) (haccount : ∀ a, Accounted cx there p (f a) v) :
      Works cx there (fun q t => OnMap there q.agenda t ∧ Accounted cx there p q v) s
        ((do return f (← examine cx c r p.agenda) : Surveying α σ κ (Pass κ)) t) := by
    have hthere := ha c (Array.mem_of_getElem? hc)
    have hst : Worked cx there s t := .single (.recorded hthere hr)
    have ht := hs.record hcl hthere hr
    refine Works.trans hst ((examine_works hcx ht (ha.worked hcl hst) (hst.stays hcl hthere)
      (ht.sample_there (record_getElem? hr))).bind fun a u hu ha => .pure ⟨?_, haccount a⟩)
    rw [hagenda]
    exact ha
  have htarget {c : κ} {r : ClassRecord κ} {t : Survey σ κ} (hc : p.agenda.cells[p.next]? = some c)
      (hr : record cx c s = .ok r t) : ∃ s c, there s c ∧ cx.classOf s c = r.target := by
    have ht := hs.record hcl (ha c (Array.mem_of_getElem? hc)) hr
    exact ⟨_, _, ht.sample_there (record_getElem? hr), ht.sample_class (record_getElem? hr)⟩
  cases h with
  | free hc hr hfresh hx =>
      rw [← hx]
      exact hexamine hc hr (fun _ => rfl) fun _ => ⟨rfl, rfl, hfresh, rfl, htarget hc hr⟩
  | paid hc hr hdone hb hx =>
      rw [← hx]
      exact hexamine hc hr (fun _ => rfl) fun _ => ⟨rfl, hb, rfl⟩
  | passed hc hr hdone hb =>
      have hst : Worked cx there s _ := .single (.recorded (ha _ (Array.mem_of_getElem? hc)) hr)
      exact ⟨hst, ha.worked hcl hst, rfl, rfl, rfl⟩

end

/-! ### Passes -/

/-- What visits have come to since the beginning of a pass. -/
structure Progress (cx : CellComplex α σ κ) (there : σ → κ → Prop) (x : Agenda κ × Nat)
    (s : Survey σ κ) (vs : List Visit) (q : Pass κ) (t : Survey σ κ) : Prop where
  worked : Worked cx there s t
  onMap : OnMap there q.agenda t
  budget : x.2 = q.budget + (vs.map Visit.cost).sum
  size : q.analysed.size = (vs.filterMap Visit.target?).length
  contains : ∀ k ∈ vs.filterMap Visit.target?, q.analysed.contains k = true
  nodup : (vs.filterMap Visit.target?).Nodup
  classes : ∀ k ∈ vs.filterMap Visit.target?, ∃ s c, there s c ∧ cx.classOf s c = k

section

variable {x : Agenda κ × Nat}

theorem Progress.start (ha : OnMap there x.1 s) : Progress cx there x s [] (.start x) s where
  worked := .refl
  onMap := ha
  budget := rfl
  size := by simp [Pass.start]
  contains := by simp
  nodup := by simp
  classes := by simp

/-- One more visit.  A target that is analysed free of charge has not been so before. -/
theorem Progress.visit (h : Progress cx there x s vs p t) (hw : Worked cx there t u)
    (hq : OnMap there q.agenda u) (haccount : Accounted cx there p q v) :
    Progress cx there x s (vs ++ [v]) q u := by
  have hworked := h.worked.trans hw
  have hbudget : x.2 = q.budget + ((vs ++ [v]).map Visit.cost).sum := by
    simp [h.budget, haccount.budget]
    omega
  have hanalysed := haccount.analysed
  have htargets : (vs ++ [v]).filterMap Visit.target? =
      vs.filterMap Visit.target? ++ v.target?.toList := by
    cases htarget : v.target? <;> simp [htarget]
  cases htarget : v.target? with
  | none =>
      simp only [htarget, Option.toList_none, List.append_nil] at hanalysed htargets
      refine ⟨hworked, hq, hbudget, ?_, ?_, ?_, ?_⟩ <;> rw [htargets]
      · rw [hanalysed, h.size]
      · rw [hanalysed]
        exact h.contains
      · exact h.nodup
      · exact h.classes
  | some k =>
      simp only [htarget, Option.toList_some] at hanalysed htargets
      obtain ⟨hfresh, hinsert, hclass⟩ := hanalysed
      have hnot : k ∉ vs.filterMap Visit.target? := by
        intro hk
        rw [h.contains k hk] at hfresh
        cases hfresh
      refine ⟨hworked, hq, hbudget, ?_, ?_, ?_, ?_⟩ <;> rw [htargets]
      · simp [hinsert, Std.HashSet.size_insert, ← Std.HashSet.contains_iff_mem, hfresh, h.size]
      · intro j hj
        rw [hinsert, Std.HashSet.contains_insert]
        rcases List.mem_append.mp hj with hj | hj
        · simp [h.contains j hj]
        · simp [List.mem_singleton.mp hj]
      · refine List.nodup_append.mpr ⟨h.nodup, List.nodup_singleton k, ?_⟩
        rintro a ha b hb rfl
        exact hnot (List.mem_singleton.mp hb ▸ ha)
      · intro j hj
        rcases List.mem_append.mp hj with hj | hj
        · exact h.classes j hj
        · exact List.mem_singleton.mp hj ▸ hclass

variable (hcx : cx.Surveyable s₀ there deg) (hs : Tidy cx there deg s) (ha : OnMap there x.1 s)

include hcx hs ha

theorem Visits.progress (h : Visits cx (.start x) s vs q t) : Progress cx there x s vs q t := by
  induction h with
  | nil => exact .start ha
  | snoc _ hv ih =>
      obtain ⟨hw, hq, haccount⟩ := hv.works hcx (hs.worked hcx.toClassified ih.worked) ih.onMap
      exact ih.visit hw hq haccount

/-- No more targets are analysed than there are classes. -/
theorem Visits.length_le (h : Visits cx (.start x) s vs q t) :
    (vs.filterMap Visit.target?).length ≤ cx.classBound := by
  have hprogress := h.progress hcx hs ha
  obtain ⟨F, hF, hclasses⟩ := hcx.classes
  refine le_trans ?_ hF
  rw [← List.toFinset_card_of_nodup hprogress.nodup]
  refine Finset.card_le_card fun k hk => ?_
  obtain ⟨s, c, hc, rfl⟩ := hprogress.classes k (List.mem_toFinset.mp hk)
  exact hclasses s c hc

/-- A visit lowers the rank of a pass. -/
theorem Visits.lowers (h : Visits cx (.start x) s vs p t) (hv : Visiting cx p t v (.ok q u)) :
    Below (cx.classBound + 1 - q.analysed.size + q.budget, q.agenda.cells.size - q.next)
      (cx.classBound + 1 - p.analysed.size + p.budget, p.agenda.cells.size - p.next) := by
  have hp := h.progress hcx hs ha
  have hq := (h.snoc hv).progress hcx hs ha
  have hlength := (h.snoc hv).length_le hcx hs ha
  obtain ⟨hw, -, haccount⟩ := hv.works hcx (hs.worked hcx.toClassified hp.worked) hp.onMap
  have hbudget := haccount.budget
  rw [List.filterMap_append, List.length_append] at hlength
  have hsize := hq.size
  rw [List.filterMap_append, List.length_append, ← hp.size] at hsize
  rw [← hp.size] at hlength
  cases v with
  | free k =>
      simp [Visit.target?, Visit.cost] at hsize hlength hbudget
      exact Or.inl (by simp only [hsize, hbudget]; omega)
  | paid =>
      simp [Visit.target?, Visit.cost] at hsize hbudget
      exact Or.inl (by simp only [hsize, hbudget]; omega)
  | passed =>
      obtain ⟨c, hc⟩ := hv.exists_cell
      have hnext := (Array.getElem?_eq_some_iff.mp hc).1
      cases hv
      exact Or.inr ⟨rfl, by simp only; omega⟩

/-- **A pass ends when all listed cells have been visited, or because a visit fails.** -/
theorem pass_ends : ∃ vs p t, Visits cx (.start x) s vs p t ∧
    ((p.agenda.cells[p.next]? = none ∧ pass cx x.1 x.2 s = .ok (p.agenda, p.budget) t) ∨
      ∃ v e u, Visiting cx p t v (.error e u) ∧ pass cx x.1 x.2 s = .error e u) := by
  have hstart : ∃ vs, Visits cx (.start x) s vs (.start x) s := ⟨[], .nil⟩
  obtain ⟨p, t, -, ⟨vs, hvisits⟩, hend⟩ : ∃ p t, Rounds (passStep cx) (.start x) s p t ∧
      (∃ vs, Visits cx (.start x) s vs p t) ∧
      ((∃ b u, passStep cx p t = .ok (.inr b) u ∧ pass cx x.1 x.2 s = .ok b u) ∨
        ∃ e u, passStep cx p t = .error e u ∧ pass cx x.1 x.2 s = .error e u) := by
    refine descend_ends (I := fun p t => ∃ vs, Visits cx (.start x) s vs p t) ?_ hstart
    rintro p q t u ⟨vs, hvisits⟩ hstep
    cases hc : p.agenda.cells[p.next]? with
    | none =>
        rw [passStep_of_ended hc] at hstep
        cases hstep
    | some c =>
        obtain ⟨v, y, hv, hy⟩ := passStep_visiting cx t hc
        rw [hstep] at hy
        cases y with
        | error e w => cases hy
        | ok q' u' =>
            cases hy
            exact ⟨⟨_, hvisits.snoc hv⟩, hvisits.lowers hcx hs ha hv⟩
  refine ⟨vs, p, t, hvisits, ?_⟩
  cases hc : p.agenda.cells[p.next]? with
  | none =>
      rcases hend with ⟨b, u, hstep, hpass⟩ | ⟨e, u, hstep, -⟩
      · rw [passStep_of_ended hc] at hstep
        cases hstep
        exact Or.inl ⟨rfl, hpass⟩
      · rw [passStep_of_ended hc] at hstep
        cases hstep
  | some c =>
      obtain ⟨v, y, hv, hy⟩ := passStep_visiting cx t hc
      rcases hend with ⟨b, u, hstep, -⟩ | ⟨e, u, hstep, hpass⟩
      · rw [hstep] at hy
        cases y <;> cases hy
      · rw [hstep] at hy
        cases y with
        | ok q' u' => cases hy
        | error e' u' =>
            cases hy
            exact Or.inr ⟨v, e, u, hv, hpass⟩

end

/-! ### Several passes -/

section

variable {x y : Agenda κ × Nat} {ls : List PassLog}

/-- What passes have come to, apart from their changes. -/
structure Course (cx : CellComplex α σ κ) (there : σ → κ → Prop) (deg : Nat → Nat)
    (x : Agenda κ × Nat) (ls : List PassLog) (y : Agenda κ × Nat) (t : Survey σ κ) : Prop where
  tidy : Tidy cx there deg t
  onMap : OnMap there y.1 t
  budget : x.2 = y.2 + (ls.map PassLog.cost).sum
  nodup : ∀ l ∈ ls, l.targets.Nodup
  changed : ∀ l ∈ ls, l.changes ≠ 0

theorem Passes.course (hcx : cx.Surveyable s₀ there deg) (hs : Tidy cx there deg s)
    (ha : OnMap there x.1 s) (h : Passes cx x s ls y t) : Course cx there deg x ls y t := by
  induction h with
  | nil => exact ⟨hs, ha, by simp, by simp, by simp⟩
  | snoc _ hv _ hchanges ih =>
      have hprogress := hv.progress hcx (ih.tidy.recounted 0) ih.onMap
      refine ⟨(ih.tidy.recounted 0).worked hcx.toClassified hprogress.worked, hprogress.onMap, ?_,
        fun l hl => ?_, fun l hl => ?_⟩
      · simp [ih.budget, hprogress.budget, PassLog.cost]
        omega
      · rcases List.mem_append.mp hl with hl | hl
        · exact ih.nodup l hl
        · exact List.mem_singleton.mp hl ▸ hprogress.nodup
      · rcases List.mem_append.mp hl with hl | hl
        · exact ih.changed l hl
        · exact List.mem_singleton.mp hl ▸ hchanges

theorem Passes.surveyed (hcx : cx.Surveyable s₀ there deg) (hs : Surveyed cx there s₀ s)
    (ha : OnMap there x.1 s) (h : Passes cx x s ls y t) : Surveyed cx there s₀ t := by
  have hs' := hs.tidy hcx.toClassified
  induction h with
  | nil => exact hs
  | snoc h hv _ _ ih =>
      have hcourse := h.course hcx hs' ha
      exact (ih.recounted 0).worked
        (hv.progress hcx (hcourse.tidy.recounted 0) hcourse.onMap).worked

end

end Surveying

end Mosaic
