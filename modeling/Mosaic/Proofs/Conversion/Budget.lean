import Mathlib.Algebra.Order.BigOperators.Group.List
import Mosaic.Proofs.Conversion.Passes

/-!
# Conversion — an analysis ends, and what it costs

A new class raises the sum of the periods of all targets by as many as it has edges, at least one;
identifying walkers lowers that sum.  So the changes of an analysis are paid for by the degrees of
the classes that it meets (`Surveying.Spends`).

A pass that is followed by another one has met a new class or has lowered that sum, of which there
is an end (`Passes.lowers`); a pass analyses each target once and spends the budget on other cells
(`pass_ends`).  So the loops of an analysis go on until there is nothing to be done, and are never
stopped for want of progress (`analyse_ending`).
-/

namespace Mosaic

namespace Classes

variable {κ : Type} {cs cs' : Classes κ} {k : Nat} {r : ClassRecord κ}

/-- Sum over all records. -/
def total (f : Nat → ClassRecord κ → Nat) (cs : Classes κ) : Nat :=
  (cs.toList.map fun x => f x.1 x.2).sum

/-- Sum of the degrees of the classes met, each counted as at least one. -/
def degreeSum (deg : Nat → Nat) (cs : Classes κ) : Nat :=
  (cs.keys.map fun k => Nat.max (deg k) 1).sum

theorem mem_toList : (k, r) ∈ cs.toList ↔ cs[k]? = some r :=
  Std.TreeMap.mem_toList_iff_getElem?_eq_some

theorem nodup_toList (cs : Classes κ) : cs.toList.Nodup := by
  refine List.Nodup.of_map Prod.fst ?_
  rw [Std.TreeMap.map_fst_toList_eq_keys]
  exact Std.TreeMap.nodup_keys

theorem totalPeriod_eq (cs : Classes κ) :
    cs.totalPeriod = cs.total fun k r => if k = r.target then r.period else 0 := by
  rw [totalPeriod, total, Std.TreeMap.foldl_eq_foldl_toList, List.sum_eq_foldl, List.foldl_map]
  refine congrArg (List.foldl · 0 cs.toList) (funext fun n => funext fun x => ?_)
  split <;> rfl

theorem degreeSum_eq (deg : Nat → Nat) (cs : Classes κ) :
    cs.degreeSum deg = cs.total fun k _ => Nat.max (deg k) 1 := by
  rw [degreeSum, total, ← Std.TreeMap.map_fst_toList_eq_keys, List.map_map]
  rfl

theorem size_eq (cs : Classes κ) : cs.size = cs.total fun _ _ => 1 := by
  simp [total]

theorem totalPeriod_empty : (∅ : Classes κ).totalPeriod = 0 := rfl

theorem degreeSum_empty (deg : Nat → Nat) : (∅ : Classes κ).degreeSum deg = 0 := rfl

/-- One more record. -/
theorem total_insert (f : Nat → ClassRecord κ → Nat) (hnone : cs[k]? = none) :
    total f (cs.insert k r) = f k r + cs.total f := by
  have hperm := Std.TreeMap.toList_insert_perm (t := cs) (k := k) (v := r)
  have hfilter : cs.toList.filter (fun x => decide ¬(k == x.1) = true) = cs.toList := by
    rw [List.filter_eq_self]
    rintro ⟨k', r'⟩ hmem
    rw [mem_toList] at hmem
    simp only [decide_eq_true_eq, beq_iff_eq]
    rintro rfl
    rw [hnone] at hmem
    cases hmem
  rw [hfilter] at hperm
  rw [total, total, (hperm.map _).sum_eq, List.map_cons, List.sum_cons]

/-- Other records of the same classes. -/
theorem total_map (f : Nat → ClassRecord κ → Nat) {g : ClassRecord κ → ClassRecord κ}
    (h : ∀ k : Nat, cs'[k]? = (cs[k]?).map g) : cs'.total f = cs.total fun k r => f k (g r) := by
  have hperm : cs'.toList.Perm (cs.map fun _ r => g r).toList := by
    refine (List.perm_ext_iff_of_nodup (nodup_toList _) (nodup_toList _)).mpr fun ⟨k, r⟩ => ?_
    rw [mem_toList, mem_toList, h, Std.TreeMap.getElem?_map]
  rw [total, total, (hperm.map _).sum_eq, Std.TreeMap.toList_map, List.map_map]
  rfl

end Classes

/-- Different directions of one target are identified. -/
theorem ClassRecord.joinPeriod_lt {κ : Type} {r₁ r₂ : ClassRecord κ} {s₁ s₂ : Nat}
    (htarget : r₁.target = r₂.target) (h₁ : 0 < r₁.period) (h₂ : 0 < r₂.period)
    (hperiod : r₁.period = r₂.period) (hne : r₁.residue s₁ ≠ r₂.residue s₂) :
    r₁.joinPeriod r₂ (r₂.residue s₂ - r₁.residue s₁) < r₂.period := by
  have hlt₁ : r₁.residue s₁ < r₁.period := cyclicIndex_lt _ h₁
  have hlt₂ : r₂.residue s₂ < r₂.period := cyclicIndex_lt _ h₂
  rw [joinPeriod, if_pos htarget]
  calc Nat.gcd (Nat.gcd r₁.period r₂.period) ((r₂.residue s₂ : Int) - r₁.residue s₁).natAbs
      ≤ ((r₂.residue s₂ : Int) - r₁.residue s₁).natAbs :=
        Nat.le_of_dvd (by omega) (Nat.gcd_dvd_right _ _)
    _ < r₂.period := by omega

namespace Surveying

variable {α σ κ : Type} {cx : CellComplex α σ κ} {there : σ → κ → Prop} {deg : Nat → Nat} {s₀ : σ}
  {s t u : Survey σ κ} {c : κ}

/-! ### Steps -/

/-- Identifying two walkers that have not had the same canonical form lowers the sum of periods. -/
theorem Tidy.totalPeriod_lt {k₁ k₂ : Nat} {r₁ r₂ : ClassRecord κ} {s₁ s₂ : Nat} {cs : Classes κ}
    (hs : Tidy cx there deg s) (h₁ : s.classes[k₁]? = some r₁) (h₂ : s.classes[k₂]? = some r₂)
    (h : s.classes.identify r₁ s₁ r₂ s₂ = some cs) : cs.totalPeriod < s.classes.totalPeriod := by
  have hjoin := Classes.identify_join (fun k r hr htarget => (hs.agree hr h₁ htarget).1)
    (fun htarget => (hs.agree h₁ h₂ htarget).2) h
  have hnot : ¬ (r₁.target = r₂.target ∧ r₁.residue s₁ = r₂.residue s₂) := by
    intro hsame
    rw [Classes.identify_eq_none.mpr hsame] at h
    cases h
  rw [Classes.totalPeriod_eq, Classes.totalPeriod_eq, Classes.total_map _ hjoin]
  refine List.sum_lt_sum _ _ ?_ ?_
  · rintro ⟨k, r⟩ hr
    rw [Classes.mem_toList] at hr
    dsimp only
    split
    · rename_i htarget
      rw [if_pos (hs.join_root h₁ hr htarget.symm).symm]
      exact Nat.le_of_dvd (hs.period_pos hr) (hs.join_period_dvd h₁ h₂
        ClassRecord.joinPeriod_dvd_left ClassRecord.joinPeriod_dvd_right hr)
    · exact Nat.zero_le _
  · -- The second target is one no more, or its period gets smaller.
    obtain ⟨R, hR, htarget, -⟩ := hs.root h₂
    refine ⟨(r₂.target, R), Classes.mem_toList.mpr hR, ?_⟩
    simp only [ClassRecord.join_target, htarget, if_true]
    split
    · rename_i hsame
      rw [ClassRecord.join_period (Or.inr htarget), (hs.agree hR h₂ htarget).2]
      exact ClassRecord.joinPeriod_lt hsame.symm (hs.period_pos h₁) (hs.period_pos h₂)
        (hs.agree h₁ h₂ hsame.symm).2 fun hresidue => hnot ⟨hsame.symm, hresidue⟩
    · exact hs.period_pos hR

/-- What steps from `s` to `t` have changed is paid for by the degrees of new classes, and by what
the sum of periods has lost. -/
structure Spends (deg : Nat → Nat) (s t : Survey σ κ) : Prop where
  size_le : s.classes.size ≤ t.classes.size
  same : t.classes.size = s.classes.size → t.classes.degreeSum deg = s.classes.degreeSum deg
  changes : t.changes + t.classes.totalPeriod + s.classes.degreeSum deg ≤
    s.changes + s.classes.totalPeriod + t.classes.degreeSum deg

namespace Spends

theorem refl (s : Survey σ κ) : Spends deg s s := ⟨Nat.le_refl _, fun _ => rfl, Nat.le_refl _⟩

theorem trans (h : Spends deg s t) (h' : Spends deg t u) : Spends deg s u where
  size_le := h.size_le.trans h'.size_le
  same hsize := by
    have hst := h.size_le
    have htu := h'.size_le
    rw [h'.same (by omega), h.same (by omega)]
  changes := by
    have hst := h.changes
    have htu := h'.changes
    omega

/-- A new class. -/
theorem record (hcx : cx.Classified there deg) (hc : there s.source c) {r : ClassRecord κ}
    (h : Surveying.record cx c s = .ok r t) : Spends deg s t := by
  rcases record_ok h with ⟨-, rfl⟩ | ⟨hnone, rfl, rfl⟩
  · exact .refl _
  constructor
  case size_le => simp [Classes.size_eq, Classes.total_insert _ hnone]
  case same => simp [Classes.size_eq, Classes.total_insert _ hnone]
  case changes =>
    simp only [Classes.degreeSum_eq, Classes.totalPeriod_eq, Classes.total_insert _ hnone, if_true,
      hcx.degree_eq hc]
    omega

end Spends

theorem Operated.spends (hcx : cx.Classified there deg) (hs : Tidy cx there deg s)
    (h : Operated cx there s t) : Spends deg s t := by
  cases h with
  | walked h => exact ⟨Nat.le_refl _, fun _ => rfl, Nat.le_refl _⟩
  | recorded hc h => exact .record hcx hc h
  | @identified w₁ w₂ _ hw₁ hw₂ h =>
      obtain ⟨r₁, r₂, s₁, s₂, hr₁, hr₂, -, hmatch⟩ := identify_ok h
      have hsource := (record_source hr₁).1
      have hw₂' : there s₁.source w₂.cell := hsource ▸ hw₂
      have hs₂ := (hs.record hcx hw₁ hr₁).record hcx hw₂' hr₂
      refine (Spends.record hcx hw₁ hr₁).trans ((Spends.record hcx hw₂' hr₂).trans ?_)
      have h₁ := (record_advances hr₂).records (record_source hr₂).2 _ r₁ (record_getElem? hr₁)
      have h₂ := record_getElem? hr₂
      split at hmatch
      · rename_i cs hidentify
        subst hmatch
        have hlt := hs₂.totalPeriod_lt h₁ h₂ hidentify
        have hjoin := Classes.identify_join (fun k r hr htarget => (hs₂.agree hr h₁ htarget).1)
          (fun htarget => (hs₂.agree h₁ h₂ htarget).2) hidentify
        have hsize : cs.size = s₂.classes.size := by
          rw [Classes.size_eq, Classes.size_eq, Classes.total_map _ hjoin]
        have hsum : cs.degreeSum deg = s₂.classes.degreeSum deg := by
          rw [Classes.degreeSum_eq, Classes.degreeSum_eq, Classes.total_map _ hjoin]
        exact ⟨hsize.ge, fun _ => hsum, by simp only [hsum]; omega⟩
      · subst hmatch
        exact .refl _

theorem Worked.spends (hcx : cx.Classified there deg) (hs : Tidy cx there deg s)
    (h : Worked cx there s t) : Spends deg s t := by
  induction h with
  | refl => exact .refl _
  | tail h hstep ih => exact ih.trans (hstep.spends hcx (hs.worked hcx h))

/-- There are no more records than classes. -/
theorem Tidy.size_le (hcx : cx.Surveyable s₀ there deg) (hs : Tidy cx there deg s) :
    s.classes.size ≤ cx.classBound := by
  obtain ⟨F, hF, hclasses⟩ := hcx.classes
  refine le_trans ?_ hF
  rw [← Std.TreeMap.length_keys, ← List.toFinset_card_of_nodup Std.TreeMap.nodup_keys]
  refine Finset.card_le_card fun k hk => ?_
  rw [List.mem_toFinset, Std.TreeMap.mem_keys] at hk
  obtain ⟨u, c, hc, rfl⟩ := hs.met (Std.TreeMap.getElem?_eq_some_getElem hk)
  exact hclasses u c hc

/-! ### Passes -/

variable [BEq κ] [Hashable κ] {x y : Agenda κ × Nat} {ls : List PassLog} {vs : List Visit}
  {p : Pass κ} {budget : Nat}

theorem round_eq (x : Agenda κ × Nat) (s : Survey σ κ) :
    round cx x s = match pass cx x.1 x.2 { s with changes := 0 } with
      | .ok next u => .ok (if u.changes = 0 then .inr () else .inl next) u
      | .error e u => .error e u := by
  rw [round]
  change EStateM.bind (pass cx x.1 x.2) _ { s with changes := 0 } = _
  rw [EStateM.bind]
  cases pass cx x.1 x.2 { s with changes := 0 } <;> rfl

section

variable (hcx : cx.Surveyable s₀ there deg)

include hcx

/-- A pass is the last one if it has changed nothing, or it fails. -/
theorem round_ends (ht : Tidy cx there deg t) (hx : OnMap there x.1 t) :
    ∃ vs p u, Visits cx (.start x) { t with changes := 0 } vs p u ∧
      ((p.agenda.cells[p.next]? = none ∧ round cx x t =
          .ok (if u.changes = 0 then .inr () else .inl (p.agenda, p.budget)) u) ∨
        ∃ v e w, Visiting cx p u v (.error e w) ∧ round cx x t = .error e w) := by
  obtain ⟨vs, p, u, hvisits, hend⟩ := pass_ends hcx (ht.recounted 0) (x := x) hx
  refine ⟨vs, p, u, hvisits, ?_⟩
  rw [round_eq]
  rcases hend with ⟨hnone, hpass⟩ | ⟨v, e, w, hv, hpass⟩
  · exact Or.inl ⟨hnone, by rw [hpass]⟩
  · exact Or.inr ⟨v, e, w, hv, by rw [hpass]⟩

theorem Visits.spends (ht : Tidy cx there deg t) (hx : OnMap there x.1 t)
    (h : Visits cx (.start x) { t with changes := 0 } vs p u) :
    Spends deg { t with changes := 0 } u :=
  (h.progress hcx (ht.recounted 0) hx).worked.spends hcx.toClassified (ht.recounted 0)

/-- A pass that is followed by another one has met a new class or has lowered the sum of periods. -/
theorem Visits.lowers_round (ht : Tidy cx there deg t) (hx : OnMap there x.1 t)
    (h : Visits cx (.start x) { t with changes := 0 } vs p u) (hchanges : u.changes ≠ 0) :
    Below (cx.classBound + 1 - u.classes.size, u.classes.totalPeriod)
      (cx.classBound + 1 - t.classes.size, t.classes.totalPeriod) := by
  have hspends := h.spends hcx ht hx
  have hsize := hspends.size_le
  have hu := (ht.recounted 0).worked hcx.toClassified (h.progress hcx (ht.recounted 0) hx).worked
  have hbound := hu.size_le hcx
  have hpaid := hspends.changes
  by_cases hsame : u.classes.size = t.classes.size
  · have hsum := hspends.same hsame
    simp only at hpaid hsum
    exact Or.inr ⟨by rw [hsame], by omega⟩
  · simp only at hsize
    exact Or.inl (by omega)

/-- The first cell is there. -/
theorem OnMap.first {c : κ} {source : σ} (h : cx.start s₀ = .ok c source) :
    OnMap there (Agenda.ofCell c) (⟨source, ∅, 0⟩ : Survey σ κ) := by
  intro y hy
  obtain rfl : y = c := by simpa [Agenda.ofCell] using hy
  exact hcx.start h

/-- A round that goes on is one more pass, and it has made progress. -/
theorem Passes.follows {z : Agenda κ × Nat} (hs : Tidy cx there deg s) (ha : OnMap there x.1 s)
    (h : Passes cx x s ls y t) (hround : round cx y t = .ok (.inl z) u) :
    (∃ ls', Passes cx x s ls' z u) ∧
      Below (cx.classBound + 1 - u.classes.size, u.classes.totalPeriod)
        (cx.classBound + 1 - t.classes.size, t.classes.totalPeriod) := by
  have hcourse := h.course hcx hs ha
  obtain ⟨vs, p, u', hvisits, ⟨hnone, hround'⟩ | ⟨v, e, w, -, hround'⟩⟩ :=
    round_ends hcx hcourse.tidy hcourse.onMap
  · rw [hround] at hround'
    split at hround'
    · cases hround'
    · rename_i hchanges
      cases hround'
      exact ⟨⟨_, h.snoc hvisits hnone hchanges⟩,
        hvisits.lowers_round hcx hcourse.tidy hcourse.onMap hchanges⟩
  · rw [hround] at hround'
    cases hround'

/-- The passes up to a round that returns, and that round. -/
theorem Passes.settles {c : κ} {source : σ} {b : Unit} (hstart : cx.start s₀ = .ok c source)
    (h : Passes cx (.ofCell c, budget) ⟨source, ∅, 0⟩ ls x t)
    (hround : round cx x t = .ok (.inr b) u) : ∃ ls', Ending cx budget s₀ ls' (.ok b u) := by
  have hcourse := h.course hcx (.start source 0) (OnMap.first hcx hstart)
  obtain ⟨vs, p, u', hvisits, ⟨hnone, hround'⟩ | ⟨v, e, w, -, hround'⟩⟩ :=
    round_ends hcx hcourse.tidy hcourse.onMap
  · rw [hround] at hround'
    split at hround'
    · rename_i hchanges
      cases hround'
      exact ⟨_, .settled hstart h hvisits hnone hchanges⟩
    · cases hround'
  · rw [hround] at hround'
    cases hround'

/-- The passes up to a round that fails, and the visits of that round. -/
theorem Passes.fails {c : κ} {source : σ} {e : MapError α} (hstart : cx.start s₀ = .ok c source)
    (h : Passes cx (.ofCell c, budget) ⟨source, ∅, 0⟩ ls x t)
    (hround : round cx x t = .error e u) : ∃ ls', Ending cx budget s₀ ls' (.error e u) := by
  have hcourse := h.course hcx (.start source 0) (OnMap.first hcx hstart)
  obtain ⟨vs, p, u', hvisits, ⟨-, hround'⟩ | ⟨v, e', w, hv, hround'⟩⟩ :=
    round_ends hcx hcourse.tidy hcourse.onMap
  · rw [hround] at hround'
    cases hround'
  · rw [hround] at hround'
    cases hround'
    exact ⟨_, .failed hstart h hvisits hv⟩

/-- **An analysis ends when a pass has changed nothing, or because a step fails**; it is never
stopped for want of progress. -/
theorem analyse_ending (budget : Nat) :
    ∃ ls, Ending cx budget s₀ ls (analyse cx budget ⟨s₀, ∅, 0⟩) := by
  cases hstart : cx.start s₀ with
  | error e s =>
      refine ⟨[], ?_⟩
      have hanalyse : analyse cx budget ⟨s₀, ∅, 0⟩ = .error e ⟨s, ∅, 0⟩ := by
        simp only [analyse, bind, EStateM.bind, onSource, hstart]
      rw [hanalyse]
      exact .unstarted hstart
  | ok c s =>
      obtain ⟨x, t, -, ⟨ls, hpasses⟩, hend⟩ : ∃ x t,
          Rounds (round cx) (.ofCell c, budget) ⟨s, ∅, 0⟩ x t ∧
          (∃ ls, Passes cx (.ofCell c, budget) ⟨s, ∅, 0⟩ ls x t) ∧
          ((∃ b u, round cx x t = .ok (.inr b) u ∧ analyse cx budget ⟨s₀, ∅, 0⟩ = .ok b u) ∨
            ∃ e u, round cx x t = .error e u ∧ analyse cx budget ⟨s₀, ∅, 0⟩ = .error e u) := by
        simp only [analyse, bind, EStateM.bind, onSource, hstart]
        exact descend_ends (I := fun x t => ∃ ls, Passes cx (.ofCell c, budget) ⟨s, ∅, 0⟩ ls x t)
          (fun ⟨_, hpasses⟩ hround =>
            hpasses.follows hcx (.start s 0) (OnMap.first hcx hstart) hround) ⟨[], .nil⟩
      rcases hend with ⟨b, u, hround, hanalyse⟩ | ⟨e, u, hround, hanalyse⟩
      · rw [hanalyse]
        exact hpasses.settles hcx hstart hround
      · rw [hanalyse]
        exact hpasses.fails hcx hstart hround

/-! ### The whole analysis -/

/-- The changes of passes are paid for by the degrees of the classes they have met. -/
theorem Passes.changes_le (hs : Tidy cx there deg s) (ha : OnMap there x.1 s)
    (h : Passes cx x s ls y t) : (ls.map PassLog.changes).sum + t.classes.totalPeriod +
      s.classes.degreeSum deg ≤ s.classes.totalPeriod + t.classes.degreeSum deg := by
  induction h with
  | nil => simp
  | snoc h hv _ _ ih =>
      have hcourse := h.course hcx hs ha
      have hspends := (hv.spends hcx hcourse.tidy hcourse.onMap).changes
      simp only [List.map_append, List.map_cons, List.map_nil, List.sum_append, List.sum_singleton]
      simp only at hspends
      omega

/-- What passes have come to when the last one has led to `w`. -/
structure Spent (deg : Nat → Nat) (budget : Nat) (ls : List PassLog) (w : Survey σ κ) : Prop where
  changes : (ls.map PassLog.changes).sum ≤ w.classes.degreeSum deg
  passes : ls.length ≤ w.classes.degreeSum deg + 1
  targets : ∀ l ∈ ls, l.targets.Nodup
  cost : (ls.map PassLog.cost).sum ≤ budget

/-- Passes that have changed something, and one more. -/
theorem Passes.spent {source : σ} {c : κ} {w : Survey σ κ} {l : PassLog}
    (hstart : cx.start s₀ = .ok c source) (h : Passes cx (.ofCell c, budget) ⟨source, ∅, 0⟩ ls x t)
    (hw : Spends deg { t with changes := 0 } w) (hl : l.changes = w.changes)
    (hcost : l.cost ≤ x.2) (hnodup : l.targets.Nodup) : Spent deg budget (ls ++ [l]) w := by
  have hc := OnMap.first hcx hstart
  have hcourse := h.course hcx (.start source 0) hc
  have hchanges : (ls.map PassLog.changes).sum + l.changes ≤ w.classes.degreeSum deg := by
    have hfirst := h.changes_le hcx (.start source 0) hc
    have hlast := hw.changes
    simp only [Classes.totalPeriod_empty, Classes.degreeSum_empty, ← hl] at hfirst hlast
    omega
  constructor
  case changes => simpa using hchanges
  case passes =>
    -- Every pass but the last one has changed something.
    have hlength : ls.length ≤ (ls.map PassLog.changes).sum := by
      rw [← List.length_map (f := PassLog.changes)]
      refine List.length_le_sum_of_one_le _ fun n hn => ?_
      obtain ⟨l', hl', rfl⟩ := List.mem_map.mp hn
      exact Nat.pos_of_ne_zero (hcourse.changed l' hl')
    rw [List.length_append, List.length_singleton]
    omega
  case targets =>
    intro l' hl'
    rcases List.mem_append.mp hl' with hl' | hl'
    · exact hcourse.nodup l' hl'
    · exact List.mem_singleton.mp hl' ▸ hnodup
  case cost =>
    have hbudget := hcourse.budget
    simp only at hbudget
    simp only [List.map_append, List.map_cons, List.map_nil, List.sum_append, List.sum_singleton]
    omega

theorem Ending.spent {res : EStateM.Result (MapError α) (Survey σ κ) Unit}
    (h : Ending cx budget s₀ ls res) : Spent deg budget ls (left res) := by
  have hcl := hcx.toClassified
  cases h with
  | unstarted => exact ⟨by simp, by simp, by simp, by simp⟩
  | @settled c source ls vs x t u p hstart h hv hend hchanges =>
      have hcourse := h.course hcx (.start source 0) (.first hcx hstart)
      have hprogress := hv.progress hcx (hcourse.tidy.recounted 0) hcourse.onMap
      refine h.spent hcx hstart (hv.spends hcx hcourse.tidy hcourse.onMap) rfl ?_ hprogress.nodup
      rw [hprogress.budget]
      exact Nat.le_add_left _ _
  | @failed c source ls vs x t u w p v e hstart h hv hfail =>
      have hcourse := h.course hcx (.start source 0) (.first hcx hstart)
      have hprogress := hv.progress hcx (hcourse.tidy.recounted 0) hcourse.onMap
      have hu := (hcourse.tidy.recounted 0).worked hcl hprogress.worked
      obtain ⟨w', hw', hclasses, hcount⟩ := hfail.works hcx hu hprogress.onMap
      have hspends : Spends deg { t with changes := 0 } w := by
        have hspends := (hv.spends hcx hcourse.tidy hcourse.onMap).trans (hw'.spends hcl hu)
        refine ⟨?_, ?_, ?_⟩ <;> rw [hclasses]
        · exact hspends.size_le
        · exact hspends.same
        · rw [hcount]
          exact hspends.changes
      refine h.spent hcx hstart hspends rfl ?_ ?_
      · have hcost := hfail.cost_le
        have hbudget := hprogress.budget
        simp only [PassLog.cost, List.map_append, List.map_cons, List.map_nil, List.sum_append,
          List.sum_singleton]
        omega
      · -- What is analysed last has not been analysed before.
        rw [PassLog.targets, List.filterMap_append]
        refine List.nodup_append.mpr ⟨hprogress.nodup, ?_, ?_⟩
        · cases htarget : v.target? <;> simp [htarget]
        · rintro k hk k' hk' rfl
          have htarget : v.target? = some k := by simpa using hk'
          have hfresh := hfail.fresh htarget
          rw [hprogress.contains k hk] at hfresh
          cases hfresh

/-- **An analysis ends within its budget.**  It goes on from pass to pass until one has changed
nothing, or something fails.  All changes together are at most as many as the classes that it has
met have edges, each class counted as having at least one, so there is at most one pass more.  A
pass examines no two cells of one target free of charge, and all other examinations are paid for by
the budget. -/
theorem analyse_within_budget (budget : Nat) :
    (∃ ls, Ending cx budget s₀ ls (analyse cx budget ⟨s₀, ∅, 0⟩)) ∧
    ∀ ls res, Ending cx budget s₀ ls res →
      (ls.map PassLog.changes).sum ≤ (left res).classes.degreeSum deg ∧
      ls.length ≤ (left res).classes.degreeSum deg + 1 ∧
      (∀ l ∈ ls, l.targets.Nodup) ∧
      (ls.map PassLog.cost).sum ≤ budget := by
  refine ⟨analyse_ending hcx budget, fun ls res h => ?_⟩
  obtain ⟨hchanges, hpasses, htargets, hcost⟩ : Spent deg budget ls (left res) := h.spent hcx
  exact ⟨hchanges, hpasses, htargets, hcost⟩

/-- All that an analysis does to its records is made of steps. -/
theorem analyse_surveyed (h : analyse cx budget ⟨s₀, ∅, 0⟩ = .ok () t) :
    Surveyed cx there s₀ t := by
  obtain ⟨ls, hending⟩ := analyse_ending hcx budget
  rw [h] at hending
  cases hending with
  | @settled c source ls vs x u _ p hstart hpasses hv =>
      have hcourse := hpasses.course hcx (.start source 0) (.first hcx hstart)
      have hu := hpasses.surveyed hcx (.started hstart) (.first hcx hstart)
      exact (hu.recounted 0).worked
        (hv.progress hcx (hcourse.tidy.recounted 0) hcourse.onMap).worked

end

/-- The row of two folded digons is analysed in two passes, one of which has changed something. -/
theorem folded_within_budget :
    folded.complex.Surveyable () (CellTable.Placed folded) folded.sidesOf ∧
    ∃ ls, Ending folded.complex 2 () ls (.ok () ⟨(), folded.after, 0⟩) ∧
      (ls.map PassLog.changes).sum ≤ 2 ∧ ls.length ≤ 3 ∧ (∀ l ∈ ls, l.targets.Nodup) ∧
      (ls.map PassLog.cost).sum ≤ 2 := by
  have hcx : folded.complex.Surveyable () (CellTable.Placed folded) folded.sidesOf :=
    CellTable.complex_surveyable (by decide)
  have hsum : folded.after.degreeSum folded.sidesOf = 2 := rfl
  obtain ⟨⟨ls, hending⟩, hbounds⟩ := analyse_within_budget hcx 2
  rw [folded.analysis] at hending
  obtain ⟨hchanges, hpasses, htargets, hcost⟩ := hbounds ls _ hending
  rw [left, hsum] at hchanges hpasses
  exact ⟨hcx, ls, hending, hchanges, hpasses, htargets, hcost⟩

end Surveying

end Mosaic
