import Mathlib.Data.List.Forall2
import Mosaic.Descent

/-!
# Descent — what an answer tells

A computation made of others answers only if these do, one after the other (`bind_ok`,
`foldlM_ok`, `mapM_ok`).  A loop that answers has gone through finitely many rounds that went on,
and then through one that answered (`Rounds`, `descend_ok`), so what is to be shown of its answer is
shown round by round (`Rounds.keeps`).
-/

namespace Mosaic

variable {ε σ β γ δ : Type}

/-- A computation answers if its parts do, one after the other. -/
theorem bind_ok {x : EStateM ε σ β} {f : β → EStateM ε σ δ} {s t : σ} {d : δ} :
    (x >>= f) s = .ok d t ↔ ∃ b u, x s = .ok b u ∧ f b u = .ok d t := by
  change EStateM.bind x f s = _ ↔ _
  unfold EStateM.bind
  cases x s with
  | ok b u => simp [and_assoc]
  | error e u => simp

/-- A computation fails where one of its parts does. -/
theorem bind_error {x : EStateM ε σ β} {f : β → EStateM ε σ δ} {s t : σ} {e : ε} :
    (x >>= f) s = .error e t ↔ x s = .error e t ∨ ∃ b u, x s = .ok b u ∧ f b u = .error e t := by
  change EStateM.bind x f s = _ ↔ _
  unfold EStateM.bind
  cases x s with
  | ok b u => simp [and_assoc]
  | error e u => simp

/-- What a computation has answered, if it has. -/
def answer : EStateM.Result ε σ β → Option β
  | .ok b _ => some b
  | .error _ _ => none

/-- What a computation has failed with, if it has. -/
def refusal : EStateM.Result ε σ β → Option ε
  | .ok _ _ => none
  | .error e _ => some e

/-- The state that a computation has left. -/
def left : EStateM.Result ε σ β → σ
  | .ok _ s => s
  | .error _ s => s

theorem eq_ok_of_isSome {x : EStateM.Result ε σ β} (d : β) (h : (answer x).isSome = true) :
    x = .ok ((answer x).getD d) (left x) := by
  cases x with
  | ok _ _ => rfl
  | error _ _ => cases h

theorem eq_ok_unit_of_isSome {x : EStateM.Result ε σ Unit} (h : (answer x).isSome = true) :
    x = .ok () (left x) := eq_ok_of_isSome () h

/-- A computation is told by its answer and by what it leaves. -/
theorem eq_ok_of_answer {x : EStateM.Result ε σ β} {b : β} (h : answer x = some b) :
    x = .ok b (left x) := by
  cases x with
  | ok _ _ => exact congrArg (EStateM.Result.ok · _) (Option.some.inj h)
  | error _ _ => cases h

/-- A computation that fails is told by its error and by what it leaves. -/
theorem eq_error_of_refusal {x : EStateM.Result ε σ β} {e : ε} (h : refusal x = some e) :
    x = .error e (left x) := by
  cases x with
  | ok _ _ => cases h
  | error _ _ => exact congrArg (EStateM.Result.error · _) (Option.some.inj h)

/-- Whether a computation has answered, and `p` holds of the answer and of what it has left. -/
def accepts (p : β → σ → Bool) : EStateM.Result ε σ β → Bool
  | .ok b s => p b s
  | .error _ _ => false

theorem accepts_iff {p : β → σ → Bool} {x : EStateM.Result ε σ β} :
    accepts p x = true ↔ ∃ b s, x = .ok b s ∧ p b s = true := by
  cases x <;> simp [accepts]

theorem toOption_any_iff {p : β → Bool} {x : Except ε β} :
    x.toOption.any p = true ↔ ∃ b, x = .ok b ∧ p b = true := by
  cases x <;> simp [Except.toOption]

theorem except_bind_ok {x : Except ε β} {f : β → Except ε γ} {c : γ} (h : x >>= f = .ok c) :
    ∃ b, x = .ok b ∧ f b = .ok c := by
  cases x with
  | ok b => exact ⟨b, rfl, h⟩
  | error e => cases h

theorem except_bind_error {x : Except ε β} {f : β → Except ε γ} {e : ε} (h : x >>= f = .error e) :
    x = .error e ∨ ∃ b, x = .ok b ∧ f b = .error e := by
  cases x with
  | ok b => exact .inr ⟨b, rfl, h⟩
  | error e' =>
      obtain rfl : e' = e := Except.error.inj h
      exact .inl rfl

theorem pure_ok {b c : β} {s t : σ} :
    (pure b : EStateM ε σ β) s = .ok c t ↔ b = c ∧ s = t := by
  change EStateM.Result.ok b s = _ ↔ _
  simp

/-- What holds before the fold and is passed on from element to element holds after it. -/
theorem foldlM_ok {f : γ → β → EStateM ε σ γ} {P : List β → γ → σ → Prop}
    (hf : ∀ l b c s c' s', P l c s → f c b s = .ok c' s' → P (l ++ [b]) c' s') {l : List β}
    {c c' : γ} {s s' : σ} (hP : P [] c s) (h : l.foldlM f c s = .ok c' s') : P l c' s' := by
  suffices hfrom : ∀ (l done : List β) (c : γ) (s : σ), P done c s → l.foldlM f c s = .ok c' s' →
      P (done ++ l) c' s' from hfrom l [] c s hP h
  intro l
  induction l with
  | nil =>
      intro done c s hP h
      obtain ⟨rfl, rfl⟩ := pure_ok.mp h
      rwa [List.append_nil]
  | cons b l ih =>
      intro done c s hP h
      rw [List.foldlM_cons] at h
      obtain ⟨c₁, s₁, h₁, h₂⟩ := bind_ok.mp h
      rw [List.append_cons]
      exact ih _ _ _ (hf _ _ _ _ _ _ hP h₁) h₂

/-- What holds before holds after, and of every element something is answered. -/
theorem mapM_ok {f : β → EStateM ε σ δ} {P : σ → Prop} {Q : β → δ → Prop} {l : List β}
    (hf : ∀ b ∈ l, ∀ s d t, P s → f b s = .ok d t → P t ∧ Q b d) {s t : σ} {ds : List δ} (hP : P s)
    (h : l.mapM f s = .ok ds t) : P t ∧ List.Forall₂ Q l ds := by
  induction l generalizing s ds with
  | nil =>
      rw [List.mapM_nil] at h
      obtain ⟨rfl, rfl⟩ := pure_ok.mp h
      exact ⟨hP, .nil⟩
  | cons b l ih =>
      rw [List.mapM_cons] at h
      obtain ⟨d, s₁, hd, h⟩ := bind_ok.mp h
      obtain ⟨ds', s₂, hds, h⟩ := bind_ok.mp h
      obtain ⟨rfl, rfl⟩ := pure_ok.mp h
      obtain ⟨hP₁, hQ⟩ := hf b List.mem_cons_self _ _ _ hP hd
      obtain ⟨hP₂, hall⟩ := ih (fun b hb => hf b (List.mem_cons_of_mem _ hb)) hP₁ hds
      exact ⟨hP₂, .cons hQ hall⟩

/-- A computation that answers for every element, from what it leaves behind, answers for all. -/
theorem mapM_total {f : β → EStateM ε σ δ} {P : σ → Prop} {l : List β}
    (hf : ∀ b ∈ l, ∀ s, P s → ∃ d t, f b s = .ok d t ∧ P t) {s : σ} (hP : P s) :
    ∃ ds t, l.mapM f s = .ok ds t ∧ P t := by
  induction l generalizing s with
  | nil => exact ⟨[], s, rfl, hP⟩
  | cons b l ih =>
      obtain ⟨d, s₁, hd, hP₁⟩ := hf b List.mem_cons_self s hP
      obtain ⟨ds, s₂, hds, hP₂⟩ := ih (fun b hb => hf b (List.mem_cons_of_mem _ hb)) hP₁
      refine ⟨d :: ds, s₂, ?_, hP₂⟩
      rw [List.mapM_cons]
      exact bind_ok.mpr ⟨d, s₁, hd, bind_ok.mpr ⟨ds, s₂, hds, rfl⟩⟩

/-- Steps that all answer, and keep what they need, answer together. -/
theorem forM_total {f : β → EStateM ε σ Unit} {P : σ → Prop} {l : List β}
    (hf : ∀ b ∈ l, ∀ s, P s → ∃ t, f b s = .ok () t ∧ P t) {s : σ} (hP : P s) :
    ∃ t, l.forM f s = .ok () t ∧ P t := by
  induction l generalizing s with
  | nil => exact ⟨s, rfl, hP⟩
  | cons b l ih =>
      obtain ⟨s₁, hb, hP₁⟩ := hf b List.mem_cons_self s hP
      obtain ⟨s₂, hl, hP₂⟩ := ih (fun b hb => hf b (List.mem_cons_of_mem _ hb)) hP₁
      exact ⟨s₂, bind_ok.mpr ⟨(), s₁, hb, hl⟩, hP₂⟩

/-- Steps that are equal for the items of a list. -/
theorem forM_congr {f g : β → EStateM ε σ Unit} {l : List β} (h : ∀ b ∈ l, f b = g b) :
    l.forM f = l.forM g := by
  induction l with
  | nil => rfl
  | cons b l ih =>
      change (f b >>= fun _ => l.forM f) = (g b >>= fun _ => l.forM g)
      rw [h b List.mem_cons_self, ih fun b hb => h b (List.mem_cons_of_mem _ hb)]

/-! ### Answers and failures -/

/-- `P` holds of the answer and of what it leaves behind, or `Q` of what a failure leaves behind. -/
def Finishes (P : β → σ → Prop) (Q : σ → Prop) : EStateM.Result ε σ β → Prop
  | .ok b s => P b s
  | .error _ s => Q s

namespace Finishes

variable {P : β → σ → Prop} {Q Q' : σ → Prop}

theorem pure {b : β} {s : σ} (h : P b s) : Finishes P Q ((Pure.pure b : EStateM ε σ β) s) := h

/-- What holds in the end may be weakened. -/
theorem imp {P' : β → σ → Prop} {x : EStateM.Result ε σ β} (h : Finishes P Q x)
    (hok : ∀ b s, P b s → P' b s) (herror : ∀ s, Q s → Q' s) : Finishes P' Q' x := by
  cases x with
  | ok b s => exact hok b s h
  | error e s => exact herror s h

/-- Computations that finish, one after the other. -/
theorem bind {P' : δ → σ → Prop} {x : EStateM ε σ β} {f : β → EStateM ε σ δ} {s : σ}
    (hx : Finishes P Q (x s)) (hf : ∀ b t, P b t → Finishes P' Q (f b t)) :
    Finishes P' Q ((x >>= f) s) := by
  change Finishes P' Q (EStateM.bind x f s)
  unfold EStateM.bind
  cases h : x s with
  | ok b t =>
      rw [h] at hx
      exact hf b t hx
  | error e t =>
      rw [h] at hx
      exact hx

/-- What is kept from element to element. -/
theorem foldlM {f : γ → β → EStateM ε σ γ} {I : γ → σ → Prop} {l : List β}
    (hf : ∀ b ∈ l, ∀ c s, I c s → Finishes I Q (f c b s)) {c : γ} {s : σ} (h : I c s) :
    Finishes I Q (l.foldlM f c s) := by
  induction l generalizing c s with
  | nil => exact h
  | cons b l ih =>
      rw [List.foldlM_cons]
      exact bind (hf b List.mem_cons_self c s h)
        fun c' s' h' => ih (fun b hb => hf b (List.mem_cons_of_mem _ hb)) h'

end Finishes

/-! ### Loops -/

/-- Rounds that go on. -/
inductive Rounds (step : γ → EStateM ε σ (γ ⊕ β)) (x : γ) (s : σ) : γ → σ → Prop where
  | refl : Rounds step x s x s
  | more {y z : γ} {t u : σ} (h : Rounds step x s y t) (hstep : step y t = .ok (.inl z) u) :
      Rounds step x s z u

namespace Rounds

variable {step : γ → EStateM ε σ (γ ⊕ β)} {x y z : γ} {s t u : σ}

/-- One more round before the others. -/
theorem head (hstep : step x s = .ok (.inl y) t) (h : Rounds step y t z u) :
    Rounds step x s z u := by
  induction h with
  | refl => exact .more .refl hstep
  | more _ hstep' ih => exact .more ih hstep'

/-- What every round keeps is kept by all of them. -/
theorem keeps {P : γ → σ → Prop}
    (hP : ∀ y t z u, Rounds step x s y t → P y t → step y t = .ok (.inl z) u → P z u)
    (h : Rounds step x s z u) (hx : P x s) : P z u := by
  induction h with
  | refl => exact hx
  | more h hstep ih => exact hP _ _ _ _ h ih hstep

/-- There was no round, or a first one. -/
theorem cases_head (h : Rounds step x s z u) :
    (z = x ∧ u = s) ∨ ∃ y t, step x s = .ok (.inl y) t ∧ Rounds step y t z u := by
  induction h with
  | refl => exact Or.inl ⟨rfl, rfl⟩
  | more _ hstep ih =>
      rcases ih with ⟨rfl, rfl⟩ | ⟨y, t, hfirst, hrest⟩
      · exact Or.inr ⟨_, _, hstep, .refl⟩
      · exact Or.inr ⟨y, t, hfirst, .more hrest hstep⟩

end Rounds

section Descend

variable {rank : γ → σ → Nat × Nat} {stalled : σ → ε} {step : γ → EStateM ε σ (γ ⊕ β)} {x y : γ}
  {s t : σ} {b : β}

/-- A round that goes on, and the loop after it. -/
theorem descend_of_inl (hstep : step x s = .ok (.inl y) t) (h : Below (rank y t) (rank x s)) :
    descend rank stalled step x s = descend rank stalled step y t := by
  rw [descend, hstep]
  exact if_pos h

/-- A round that answers ends the loop. -/
theorem descend_of_inr (hstep : step x s = .ok (.inr b) t) :
    descend rank stalled step x s = .ok b t := by
  rw [descend, hstep]

/-- A loop whose rounds lower the rank goes on from every round that it goes through. -/
theorem Rounds.descend_eq (h : Rounds step x s y t)
    (hlt : ∀ {y z t u}, step y t = .ok (.inl z) u → Below (rank z u) (rank y t)) :
    descend rank stalled step x s = descend rank stalled step y t := by
  induction h with
  | refl => rfl
  | more _ hstep ih => rw [ih, descend_of_inl hstep (hlt hstep)]

/-- A loop that answers. -/
theorem descend_ok (h : descend rank stalled step x s = .ok b t) :
    ∃ y u, Rounds step x s y u ∧ step y u = .ok (.inr b) t := by
  induction x, s using descend.induct rank step with
  | case1 x s e t hstep =>
      rw [descend, hstep] at h
      cases h
  | case2 x s b' t hstep =>
      rw [descend, hstep] at h
      cases h
      exact ⟨x, s, .refl, hstep⟩
  | case3 x s before y t hstep hlt ih =>
      rw [descend, hstep] at h
      obtain ⟨z, v, hr, hz⟩ := ih ((if_pos hlt).symm.trans h)
      exact ⟨z, v, hr.head hstep, hz⟩
  | case4 x s before y t hstep hlt =>
      rw [descend, hstep] at h
      cases (if_neg hlt).symm.trans h

/-- A loop that fails: a round fails, or one goes on without lowering the rank. -/
theorem descend_error {e : ε} (h : descend rank stalled step x s = .error e t) :
    ∃ y u, Rounds step x s y u ∧ (step y u = .error e t ∨ e = stalled t) := by
  induction x, s using descend.induct rank step with
  | case1 x s e' t' hstep =>
      rw [descend, hstep] at h
      cases h
      exact ⟨x, s, .refl, Or.inl hstep⟩
  | case2 x s b' t' hstep =>
      rw [descend, hstep] at h
      cases h
  | case3 x s before y t' hstep hlt ih =>
      rw [descend, hstep] at h
      obtain ⟨z, v, hr, hz⟩ := ih ((if_pos hlt).symm.trans h)
      exact ⟨z, v, hr.head hstep, hz⟩
  | case4 x s before y t' hstep hlt =>
      rw [descend, hstep] at h
      cases (if_neg hlt).symm.trans h
      exact ⟨x, s, .refl, Or.inr rfl⟩

/-- A loop that keeps `I` and lowers the rank ends as the round does that does not go on. -/
theorem descend_ends {I : γ → σ → Prop}
    (hI : ∀ {y z t u}, I y t → step y t = .ok (.inl z) u → I z u ∧ Below (rank z u) (rank y t))
    (hx : I x s) : ∃ y t, Rounds step x s y t ∧ I y t ∧
      ((∃ b u, step y t = .ok (.inr b) u ∧ descend rank stalled step x s = .ok b u) ∨
        ∃ e u, step y t = .error e u ∧ descend rank stalled step x s = .error e u) := by
  induction x, s using descend.induct rank step with
  | case1 x s e t hstep =>
      exact ⟨x, s, .refl, hx, Or.inr ⟨e, t, hstep, by rw [descend, hstep]⟩⟩
  | case2 x s b t hstep =>
      exact ⟨x, s, .refl, hx, Or.inl ⟨b, t, hstep, descend_of_inr hstep⟩⟩
  | case3 x s before y t hstep hlt ih =>
      obtain ⟨z, u, hrounds, hz, hend⟩ := ih (hI hx hstep).1
      rw [descend_of_inl hstep hlt]
      exact ⟨z, u, hrounds.head hstep, hz, hend⟩
  | case4 x s before y t hstep hlt => exact absurd (hI hx hstep).2 hlt

end Descend

end Mosaic
