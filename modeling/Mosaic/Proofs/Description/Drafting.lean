import Mosaic.Description.Draft
import Mosaic.Proofs.Descent

/-!
# Description — what a computation on the draft leaves

`Yields E x t Q`: the computation `x`, begun on a draft of the tiling `t`, answers only what `Q`
allows together with the tiling it leaves; and when it ends the load with the request to inspect a
tiling, that tiling satisfies `E`.  There is one rule for each way to build a computation.  Readings
of the text leave the tiling alone, so all that is asked of what follows them is to work for every
value that they may have read.
-/

namespace Mosaic.Drafting

variable {α β γ : Type} {E : Tiling α → Prop} {t : Tiling α} {Q R : β → Tiling α → Prop}

/-- What `x` answers and leaves, and what it lets out, when it begins with the tiling `t`. -/
def Yields (E : Tiling α → Prop) (x : Drafting α β) (t : Tiling α) (Q : β → Tiling α → Prop) :
    Prop :=
  ∀ text desk, desk.draft.tiling = t →
    (∀ b desk', x text desk = .ok b desk' → Q b desk'.draft.tiling) ∧
      ∀ i u desk', x text desk = .error (.inspection i u) desk' → E u

/-- Reading moves the cursor and leaves the draft. -/
theorem ofReader_ok {r : Reader β} {text : ByteArray} {desk desk' : Desk α} {b : β}
    (h : (ofReader r : Drafting α β) text desk = .ok b desk') :
    r text desk.offset = .ok b desk'.offset ∧ desk'.draft = desk.draft := by
  unfold ofReader at h
  split at h
  · cases h
    exact ⟨‹_›, rfl⟩
  · cases h

/-- A reader refuses a text only for what is in the text. -/
theorem ofReader_error {r : Reader β} {text : ByteArray} {desk desk' : Desk α} {i : Nat}
    {u : Tiling α} (h : (ofReader r : Drafting α β) text desk = .error (.inspection i u) desk') :
    False := by
  unfold ofReader at h
  split at h
  · cases h
  · cases h

namespace Yields

theorem mono {x : Drafting α β} (hx : Yields E x t Q) (hQR : ∀ b u, Q b u → R b u) :
    Yields E x t R := by
  intro text desk hdesk
  obtain ⟨hok, herror⟩ := hx text desk hdesk
  exact ⟨fun b desk' h => hQR _ _ (hok b desk' h), herror⟩

theorem pure {b : β} (h : Q b t) : Yields E (pure b) t Q := by
  rintro text desk rfl
  refine ⟨fun c desk' hc => ?_, fun i u desk' hc => ?_⟩
  · cases hc
    exact h
  · cases hc

/-- What is yielded one after the other. -/
theorem bind {x : Drafting α γ} {f : γ → Drafting α β}
    (hx : Yields E x t fun c u => Yields E (f c) u Q) : Yields E (x >>= f) t Q := by
  intro text desk hdesk
  obtain ⟨hok, herror⟩ := hx text desk hdesk
  refine ⟨fun b desk' h => ?_, fun i u desk' h => ?_⟩
  · obtain ⟨c, mid, hc, h⟩ := bind_ok.mp h
    exact (hok c mid hc text mid rfl).1 b desk' h
  · rcases bind_error.mp h with h | ⟨c, mid, hc, h⟩
    · exact herror i u desk' h
    · exact (hok c mid hc text mid rfl).2 i u desk' h

theorem ite {c : Prop} [Decidable c] {x y : Drafting α β} (hx : c → Yields E x t Q)
    (hy : ¬ c → Yields E y t Q) : Yields E (if c then x else y) t Q := by
  split
  · exact hx ‹c›
  · exact hy ‹¬ c›

/-- A reading of the text leaves the tiling alone. -/
theorem read {r : Reader β} (h : ∀ b, Q b t) : Yields E (ofReader r : Drafting α β) t Q := by
  rintro text desk rfl
  exact ⟨fun b desk' hb => (ofReader_ok hb).2 ▸ h b, fun i u desk' hu => (ofReader_error hu).elim⟩

/-- A reader that refuses the text answers nothing. -/
theorem refuse {r : Reader β} (hr : ∀ text i b j, r text i ≠ .ok b j) :
    Yields E (ofReader r : Drafting α β) t Q := by
  rintro text desk rfl
  refine ⟨fun b desk' hb => ?_, fun i u desk' hu => (ofReader_error hu).elim⟩
  exact absurd (ofReader_ok hb).1 (hr text desk.offset b desk'.offset)

theorem fail {fault : Fault} : Yields E (ofReader (Reader.fail fault) : Drafting α β) t Q :=
  refuse fun _ _ _ _ h => nomatch h

theorem failAt {place : Nat} {fault : Fault} :
    Yields E (ofReader (Reader.failAt place fault) : Drafting α β) t Q :=
  refuse fun _ _ _ _ h => nomatch h

/-- The draft is looked at. -/
theorem draft {Q : Draft α → Tiling α → Prop} (h : ∀ d, d.tiling = t → Q d t) :
    Yields E draft t Q := by
  rintro text desk rfl
  refine ⟨fun b desk' hb => ?_, fun i u desk' hb => ?_⟩
  · cases hb
    exact h _ rfl
  · cases hb

theorem modifyDraft {f : Draft α → Draft α} {Q : Unit → Tiling α → Prop}
    (h : ∀ d, d.tiling = t → Q () (f d).tiling) : Yields E (modifyDraft f) t Q := by
  rintro text desk rfl
  refine ⟨fun b desk' hb => ?_, fun i u desk' hb => ?_⟩
  · cases hb
    exact h _ rfl
  · cases hb

/-- A change of the tiling yields what it makes of it. -/
theorem modifyTiling {f : Tiling α → Tiling α} {Q : Unit → Tiling α → Prop} (h : Q () (f t)) :
    Yields E (modifyTiling f) t Q :=
  modifyDraft fun d hd => by rwa [hd]

/-- A variable changes nothing of the tiling. -/
theorem bindVariable {name : String} {value : α} {Q : Unit → Tiling α → Prop} (h : Q () t) :
    Yields E (bindVariable name value) t Q :=
  modifyDraft fun d hd => by rwa [← hd] at h

/-- A load that stops lets a tiling out only to be inspected. -/
theorem stop {e : LoadError α} (h : ∀ i u, e = .inspection i u → E u) :
    Yields E (stop e : Drafting α β) t Q := by
  rintro text desk rfl
  refine ⟨fun b desk' hb => ?_, fun i u desk' hb => ?_⟩
  · cases hb
  · cases hb
    exact h i u rfl

/-- A loop that keeps the invariant `P` until it answers. -/
theorem iterate {P : γ → Tiling α → Prop} {step : γ → Drafting α (γ ⊕ β)} {x : γ} (hx : P x t)
    (hstep : ∀ x u, P x u → Yields E (step x) u fun r u' =>
      match r with
      | .inl y => P y u'
      | .inr b => Q b u') : Yields E (iterate step x) t Q := by
  rintro text desk rfl
  have hkeeps : ∀ {y mid}, Rounds (fun x => step x text) x desk y mid →
      P y mid.draft.tiling := by
    intro y mid hr
    exact hr.keeps (P := fun y mid => P y mid.draft.tiling)
      (fun y mid z mid' _ hP hz => (hstep y _ hP text mid rfl).1 _ _ hz) hx
  refine ⟨fun b desk' h => ?_, fun i u desk' h => ?_⟩
  · obtain ⟨y, mid, hr, hlast⟩ := descend_ok h
    exact (hstep y _ (hkeeps hr) text mid rfl).1 _ _ hlast
  · -- Either a round ends the load, or the loop stalls, and then it does not ask for an inspection.
    obtain ⟨y, mid, hr, hlast | hstalled⟩ := descend_error h
    · exact (hstep y _ (hkeeps hr) text mid rfl).2 _ _ _ hlast
    · cases hstalled

/-- A loop every round of which keeps a property of the tiling. -/
theorem iterate_keeps {P : Tiling α → Prop} {step : γ → Drafting α (γ ⊕ β)} {x : γ} (ht : P t)
    (hstep : ∀ x u, P u → Yields E (step x) u fun _ u' => P u') :
    Yields E (Drafting.iterate step x) t fun _ u => P u := by
  refine .iterate (P := fun _ => P) ht fun x u hu => (hstep x u hu).mono fun r u' hu' => ?_
  cases r <;> exact hu'

end Yields

/-! ### Expressions and indices -/

section Expressions

theorem scope_yields {Q : Scope α → Tiling α → Prop} (h : ∀ s, Q s t) : Yields E scope t Q :=
  .bind (.draft fun _ _ => .pure (h _))

/-- An expression is read in the scope of the draft. -/
theorem scoped_yields {r : Scope α → Reader β} (h : ∀ b, Q b t) :
    Yields E (do r (← scope) : Drafting α β) t Q :=
  .bind (scope_yields fun _ => .read h)

variable [Scalar α]

theorem sum_yields {Q : α → Tiling α → Prop} (h : ∀ v, Q v t) : Yields E sum t Q :=
  scoped_yields (r := Expression.sum) h

theorem real_yields {Q : α → Tiling α → Prop} (h : ∀ v, Q v t) : Yields E real t Q :=
  scoped_yields (r := Expression.real) h

theorem realThenClose_yields {Q : α → Tiling α → Prop} (h : ∀ v, Q v t) :
    Yields E realThenClose t Q :=
  scoped_yields (r := Expression.realThenClose) h

theorem integer_yields {Q : Int → Tiling α → Prop} (h : ∀ v, Q v t) : Yields E integer t Q :=
  scoped_yields (r := Expression.integer) h

/-- An index is below its bound. -/
theorem indexBelow_yields {bound : Nat} {Q : Nat → Tiling α → Prop}
    (h : ∀ n < bound, Q n t) : Yields E (indexBelow bound) t Q := by
  refine .bind (.read fun place => .bind (integer_yields fun v => ?_))
  cases v with
  | ofNat n => exact .ite (fun hn => .pure (h n hn)) fun _ => .failAt
  | negSucc n => exact .failAt

/-- The shape of an index is there. -/
theorem shapeIndex_yields {Q : Nat → Tiling α → Prop} (h : ∀ i < t.shapes.size, Q i t) :
    Yields E shapeIndex t Q :=
  .bind (.draft fun _ hd => indexBelow_yields (by rwa [hd]))

/-- The edge of an index is there. -/
theorem edgeIndex_yields {i : Nat} {Q : Nat → Tiling α → Prop} (h : ∀ e < (t.shape i).size, Q e t) :
    Yields E (edgeIndex i) t Q :=
  .bind (.draft fun _ hd => indexBelow_yields (by rwa [hd]))

end Expressions

end Mosaic.Drafting
