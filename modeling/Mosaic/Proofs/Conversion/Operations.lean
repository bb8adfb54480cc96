import Mosaic.Proofs.Conversion.Forms
import Mosaic.Proofs.Conversion.Minimisation

/-!
# Conversion — an analysis is made of steps

Every computation of an analysis, whether it answers or fails, is a sequence of steps on the survey
(`Surveying.Worked`), and the cells that it hands on are there (`examineEdge_works`,
`examine_works`).  When it fails, the complex may have been walked on by the step that has failed,
but the records are those that the steps before it have left (`Surveying.Abandoned`).

So what steps keep is kept by an analysis, and its surveys are `Surveyed` (`analyse_surveyed`).
-/

namespace Mosaic.Surveying

variable {α σ κ β γ : Type} (cx : CellComplex α σ κ) (there : σ → κ → Prop)

/-- What a failure leaves behind: the records and the changes of some steps. -/
def Abandoned (s t : Survey σ κ) : Prop :=
  ∃ u, Worked cx there s u ∧ t.classes = u.classes ∧ t.changes = u.changes

/-- The computation has taken steps from `s`, and `P` holds if it has answered. -/
def Works (P : β → Survey σ κ → Prop) (s : Survey σ κ) :
    EStateM.Result (MapError α) (Survey σ κ) β → Prop :=
  Finishes (fun b t => Worked cx there s t ∧ P b t) (Abandoned cx there s)

variable {cx there} {deg : Nat → Nat} {s₀ : σ} {s t u : Survey σ κ} {c : κ} {w w' : Walker κ}

theorem Worked.trans (h : Worked cx there s t) (h' : Worked cx there t u) : Worked cx there s u :=
  Relation.ReflTransGen.trans h h'

/-- Work explores the complex. -/
theorem Worked.later (h : Worked cx there s t) : cx.Later s.source t.source := by
  induction h with
  | refl => exact .refl _
  | tail _ hstep ih =>
      cases hstep with
      | walked h => exact ih.trans (.single h)
      | recorded _ h => exact ih.trans (record_advances h).later
      | identified _ _ h => exact ih.trans (identify_advances h).later

/-- Steps lead from survey to survey. -/
theorem Surveyed.worked (hs : Surveyed cx there s₀ s) (h : Worked cx there s t) :
    Surveyed cx there s₀ t := by
  induction h with
  | refl => exact hs
  | tail _ hstep ih => exact .operated ih hstep

/-- Cells that are there stay so. -/
theorem Worked.stays (hcx : cx.Classified there deg) (h : Worked cx there s t)
    (hc : there s.source c) : there t.source c := (hcx.later h.later hc).1

namespace Works

variable {P : β → Survey σ κ → Prop}

theorem pure {b : β} (h : P b s) : Works cx there P s ((Pure.pure b : Surveying α σ κ β) s) :=
  Finishes.pure ⟨.refl, h⟩

/-- The steps from `t` go on those that have led there. -/
theorem trans {x : EStateM.Result (MapError α) (Survey σ κ) β} (ht : Worked cx there s t)
    (h : Works cx there P t x) : Works cx there P s x :=
  Finishes.imp h (fun _ _ ⟨hu, hb⟩ => ⟨ht.trans hu, hb⟩)
    fun _ ⟨v, hv, hleft⟩ => ⟨v, ht.trans hv, hleft⟩

/-- Work that is done one after the other. -/
theorem bind {P' : γ → Survey σ κ → Prop} {x : Surveying α σ κ β} {f : β → Surveying α σ κ γ}
    (hx : Works cx there P s (x s))
    (hf : ∀ b t, Worked cx there s t → P b t → Works cx there P' t (f b t)) :
    Works cx there P' s ((x >>= f) s) :=
  Finishes.bind hx fun b t ⟨ht, hb⟩ => Works.trans ht (hf b t ht hb)

/-- What is kept from element to element. -/
theorem foldlM {f : γ → β → Surveying α σ κ γ} {I : γ → Survey σ κ → Prop} {l : List β} {c : γ}
    (hf : ∀ b ∈ l, ∀ c t, Worked cx there s t → I c t → Works cx there I t (f c b t))
    (h : I c s) : Works cx there I s (l.foldlM f c s) :=
  Finishes.foldlM (fun b hb c t ⟨ht, hc⟩ => Works.trans ht (hf b hb c t ht hc)) ⟨.refl, h⟩

end Works

/-! ### Single computations -/

theorem degree_works : Works cx there (fun n t => n = cx.degree s.source c ∧ t = s) s
    (degree cx c s) := Finishes.pure ⟨.refl, rfl, rfl⟩

/-- A walker that turns stays on its cell. -/
theorem turn_works {d : Int} (hw : there s.source w.cell) :
    Works cx there (fun v t => there t.source v.cell) s (turn cx w d s) := Finishes.pure ⟨.refl, hw⟩

/-- The record of a cell has a sample that is there. -/
theorem record_works (hcx : cx.Classified there deg) (hs : Tidy cx there deg s)
    (hc : there s.source c) :
    Works cx there (fun r t => record cx c s = .ok r t ∧ there t.source r.sample) s
      (record cx c s) := by
  obtain ⟨t, ht⟩ := exists_record cx s c
  rw [ht]
  exact ⟨.single (.recorded hc ht), rfl, (hs.record hcx hc ht).sample_there (record_getElem? ht)⟩

/-- Two walkers are identified, or the degrees of their cells differ. -/
theorem identify_works (hcx : cx.Classified there deg) (hs : Tidy cx there deg s)
    (hw : there s.source w.cell) (hw' : there s.source w'.cell) :
    Works cx there (fun _ _ => True) s (identify cx w w' s) := by
  by_cases hdegree : cx.degree s.source w.cell = cx.degree s.source w'.cell
  · obtain ⟨t, ht, -⟩ := hs.identify hcx hw hw' hdegree
    rw [ht]
    exact ⟨.single (.identified hw hw' ht), trivial⟩
  · obtain ⟨t, ht, hworked, -⟩ := hs.identify_error hcx hw hw' hdegree
    rw [ht]
    exact ⟨t, hworked, rfl, rfl⟩

/-- A walker is taken to the sample of its class. -/
theorem toSample_works (hcx : cx.Classified there deg) (hs : Tidy cx there deg s)
    (hw : there s.source w.cell) :
    Works cx there (fun v t => there t.source v.cell) s (toSample cx w s) :=
  (record_works hcx hs hw).bind fun _ _ _ hr => turn_works hr.2

section

variable (hcx : cx.Surveyable s₀ there deg)

include hcx

/-- A walker that crosses an edge arrives at a cell. -/
theorem cross_works (hw : there s.source w.cell) :
    Works cx there (fun v t => there t.source v.cell) s (cross cx w s) := by
  obtain ⟨source, classes, changes⟩ := s
  refine Works.bind (P := fun x t => there t.source x.1) ?_ fun _ _ _ hx => .pure hx
  unfold onSource
  cases hstep : cx.step w.cell w.spin source with
  | ok r source' =>
      simp only [hstep]
      exact ⟨.single (.walked ⟨w.cell, w.spin, r, hstep⟩), hcx.step hw hstep⟩
  | error e source' =>
      simp only [hstep]
      exact ⟨⟨source, classes, changes⟩, .refl, rfl, rfl⟩

variable [BEq κ] [Hashable κ]

omit hcx in
variable (there) in
/-- The cells of the agenda are there. -/
def OnMap (a : Agenda κ) (s : Survey σ κ) : Prop := ∀ c ∈ a.cells, there s.source c

omit hcx in
/-- One more cell on the agenda. -/
theorem OnMap.add {a : Agenda κ} (ha : OnMap there a s) (hc : there s.source c) :
    OnMap there (a.add c) s := by
  intro x hx
  rcases Agenda.mem_of_mem_add hx with hx | rfl
  · exact ha x hx
  · exact hc

omit hcx in
/-- The cells of an agenda are still there after work. -/
theorem OnMap.worked (hcx : cx.Classified there deg) {a : Agenda κ} (ha : OnMap there a s)
    (h : Worked cx there s t) : OnMap there a t := fun x hx => h.stays hcx (ha x hx)

/-- The examination of an edge adds cells that are there to the agenda. -/
theorem examineEdge_works {a : Agenda κ} (hs : Tidy cx there deg s) (ha : OnMap there a s)
    (hw : there s.source w.cell) (hw' : there s.source w'.cell) (j : Nat) :
    Works cx there (OnMap there) s (examineEdge cx w w' a j s) := by
  have hcl := hcx.toClassified
  -- Across the edge of the cell, and across that of the sample.
  refine (turn_works hw).bind fun v s₁ h₁ hv => ?_
  refine (cross_works hcx hv).bind fun x s₂ h₂ hx => ?_
  refine (turn_works ((h₁.trans h₂).stays hcl hw')).bind fun v' s₃ h₃ hv' => ?_
  refine (cross_works hcx hv').bind fun b s₄ h₄ hb => ?_
  have hs₄ := (h₁.trans h₂).trans (h₃.trans h₄)
  refine (identify_works hcl (hs.worked hcl hs₄) ((h₃.trans h₄).stays hcl hx) hb).bind
    fun _ s₅ h₅ _ => ?_
  -- A period on.
  have hs₅ := hs₄.trans h₅
  refine (record_works hcl (hs.worked hcl hs₅) (hs₅.stays hcl hw)).bind fun r s₆ h₆ hr => ?_
  have hs₆ := hs₅.trans h₆
  refine (turn_works (hs₆.stays hcl hw)).bind fun v s₇ h₇ hv => ?_
  refine (cross_works hcx hv).bind fun b' s₈ h₈ hb' => ?_
  have hs₈ := hs₆.trans (h₇.trans h₈)
  have hx₈ := (((h₃.trans h₄).trans h₅).trans (h₆.trans (h₇.trans h₈))).stays hcl hx
  refine (identify_works hcl (hs.worked hcl hs₈) hx₈ hb').bind fun _ s₉ h₉ _ => ?_
  -- Beyond the neighbour, and beyond the sample of its class.
  have hs₉ := hs₈.trans h₉
  refine (toSample_works hcl (hs.worked hcl hs₉) (h₉.stays hcl hx₈)).bind fun o s₁₀ h₁₀ ho => ?_
  refine (cross_works hcx ((h₉.trans h₁₀).stays hcl hx₈)).bind fun y s₁₁ h₁₁ hy => ?_
  refine (cross_works hcx (h₁₁.stays hcl ho)).bind fun z s₁₂ h₁₂ hz => ?_
  have hs₁₂ := hs₉.trans (h₁₀.trans (h₁₁.trans h₁₂))
  refine (identify_works hcl (hs.worked hcl hs₁₂) (h₁₂.stays hcl hy) hz).bind
    fun _ s₁₃ h₁₃ _ => .pure ?_
  have hend := h₉.trans (h₁₀.trans (h₁₁.trans (h₁₂.trans h₁₃)))
  exact (ha.worked hcl (hs₁₂.trans h₁₃)).add (hend.stays hcl hx₈)

/-- One more cell. -/
theorem examine_works {a : Agenda κ} {r : ClassRecord κ} (hs : Tidy cx there deg s)
    (ha : OnMap there a s) (hc : there s.source c) (hr : there s.source r.sample) :
    Works cx there (OnMap there) s (examine cx c r a s) := by
  have hcl := hcx.toClassified
  have hw : there s.source (⟨c, 0⟩ : Walker κ).cell := hc
  refine (turn_works hw).bind fun w s₁ h₁ hw => ?_
  refine degree_works.bind fun n s₂ h₂ _ => ?_
  have hs₂ := h₁.trans h₂
  refine (Works.foldlM (I := OnMap there) (fun j _ a t ht ha => ?_) (ha.worked hcl hs₂))
  exact examineEdge_works hcx (hs.worked hcl (hs₂.trans ht)) ha ((h₂.trans ht).stays hcl hw)
    ((hs₂.trans ht).stays hcl hr) j

end

/-! ### Minimisation -/

/-- Work that is done for each item of a list. -/
theorem Works.forM {f : β → Surveying α σ κ Unit} {l : List β}
    (hf : ∀ b ∈ l, ∀ t, Worked cx there s t → Works cx there (fun _ _ => True) t (f b t)) :
    Works cx there (fun _ _ => True) s (l.forM f s) := by
  induction l generalizing s with
  | nil => exact .pure trivial
  | cons b l ih =>
      exact (hf b List.mem_cons_self s .refl).bind fun _ t ht _ =>
        ih fun b hb u hu => hf b (List.mem_cons_of_mem _ hb) u (ht.trans hu)

/-- The walker of an address stands on a cell. -/
theorem walkerAt_works (hs : Tidy cx there deg s) (a : Address) :
    Works cx there (fun v t => ∀ w ∈ v, there t.source w.cell) s (walkerAt cx a s) := by
  cases hr : s.classes[a.master]? with
  | none =>
      have hnone : walkerAt cx a s = .ok none s := bind_ok.mpr ⟨s, s, rfl, by rw [hr]; rfl⟩
      rw [hnone]
      exact ⟨.refl, by simp⟩
  | some r =>
      rw [walkerAt_ok hr]
      refine ⟨.refl, ?_⟩
      rintro w ⟨⟩
      exact hs.sample_there hr

theorem identifyAddresses_works (hcx : cx.Classified there deg) (hs : Tidy cx there deg s)
    (a b : Address) : Works cx there (fun _ _ => True) s (identifyAddresses cx a b s) := by
  refine (walkerAt_works hs a).bind fun v t ht hv => ?_
  refine (walkerAt_works (hs.worked hcx ht) b).bind fun v' u hu hv' => ?_
  cases v with
  | none => exact .pure trivial
  | some w =>
      cases v' with
      | none => exact .pure trivial
      | some w' =>
          exact identify_works hcx (hs.worked hcx (ht.trans hu)) (hu.stays hcx (hv w rfl))
            (hv' w' rfl)

/-- Minimisation is made of steps as well. -/
theorem minimise_works [Scalar α] (hcx : cx.Classified there deg) (hs : Tidy cx there deg s) :
    Works cx there (fun _ _ => True) s (minimise cx s) := by
  rw [minimise_eq, identifyRelated]
  refine Works.forM fun i _ t ht => Works.forM fun j _ u hu => ?_
  split
  case isFalse => exact .pure trivial
  cases (addresses s.classes)[i]? with
  | none => exact .pure trivial
  | some a =>
      cases (addresses s.classes)[j]? with
      | none => exact .pure trivial
      | some b => exact identifyAddresses_works hcx (hs.worked hcx (ht.trans hu)) a b

/-- What is true of every survey is true after minimisation. -/
theorem minimise_surveyed [Scalar α] (hcx : cx.Classified there deg) (hs : Surveyed cx there s₀ s)
    (h : minimise cx s = .ok () t) : Surveyed cx there s₀ t := by
  have hworks := minimise_works hcx (hs.tidy hcx)
  rw [h] at hworks
  exact hs.worked hworks.1

end Mosaic.Surveying
