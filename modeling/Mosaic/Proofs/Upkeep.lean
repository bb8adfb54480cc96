import Mosaic.Proofs.Lockstep

/-!
# Upkeep — what computations keep of the state

A computation that begins in a state with some property ends in one, whether it answers or fails
(`Upkeep.Runs`).  With that go what it may fail with, and what is asked of its answers.  There is
one rule for each way to build a computation; a loop keeps what its rounds keep, however many there
are (`Runs.loop`).
-/

namespace Mosaic

open Lockstep (Program)

/-- A property of the states of a run over a text, and what may be failed with. -/
structure Upkeep (ε σ : Type) where
  text : ByteArray
  holds : σ → Prop
  allows : ε → Prop

namespace Upkeep

variable {ε σ β γ : Type}

/-- A computation has ended in a state with the property; its answer satisfies `F`, or what it has
failed with is allowed. -/
structure Kept (U : Upkeep ε σ) (F : β → Prop) (r : EStateM.Result ε σ β) : Prop where
  ok : ∀ {b t}, r = .ok b t → U.holds t ∧ F b
  error : ∀ {e t}, r = .error e t → U.holds t ∧ U.allows e

/-- Wherever `x` begins in a state with the property, it ends in one, and what it answers satisfies
`F`. -/
def Runs (U : Upkeep ε σ) (F : β → Prop) (x : Program ε σ β) : Prop :=
  ∀ s, U.holds s → U.Kept F (x U.text s)

/-- The same where nothing is asked of the answers. -/
abbrev Keeps (U : Upkeep ε σ) (x : Program ε σ β) : Prop := U.Runs (fun _ => True) x

variable {U : Upkeep ε σ} {F F' : β → Prop} {G : γ → Prop} {x y : Program ε σ β}

/-- An answer that is as it should be, with a state that is. -/
theorem Kept.of_ok {b : β} {t : σ} (ht : U.holds t) (hb : F b) : U.Kept F (.ok b t) where
  ok h := by
    cases h
    exact ⟨ht, hb⟩
  error h := nomatch h

/-- An error that is allowed, with a state that is as it should be. -/
theorem Kept.of_error {e : ε} {t : σ} (ht : U.holds t) (he : U.allows e) :
    U.Kept F (.error e t) where
  ok h := nomatch h
  error h := by
    cases h
    exact ⟨ht, he⟩

theorem Kept.mono {r : EStateM.Result ε σ β} (h : U.Kept F r) (hF : ∀ b, F b → F' b) :
    U.Kept F' r where
  ok hr := (h.ok hr).imp id (hF _)
  error := h.error

/-- Answer or not, the state has the property. -/
theorem Kept.left {r : EStateM.Result ε σ β} (h : U.Kept F r) : U.holds (left r) := by
  cases r with
  | ok b t => exact (h.ok rfl).1
  | error e t => exact (h.error rfl).1

/-- The general rule for sequences: the second part may rely on where the first one has ended. -/
theorem Kept.bind {f : β → Program ε σ γ} {s : σ} (hx : U.Kept F (x U.text s))
    (hf : ∀ b t, x U.text s = .ok b t → U.holds t → F b → U.Kept G (f b U.text t)) :
    U.Kept G ((x >>= f) U.text s) where
  ok h := by
    obtain ⟨b, t, hb, hc⟩ := bind_ok.mp h
    obtain ⟨ht, hF⟩ := hx.ok hb
    exact (hf b t hb ht hF).ok hc
  error h := by
    rcases bind_error.mp h with h | ⟨b, t, hb, he⟩
    · exact hx.error h
    · obtain ⟨ht, hF⟩ := hx.ok hb
      exact (hf b t hb ht hF).error he

/-- What every round keeps is kept to the end, also if the loop stalls.  The rounds may rely on what
is true of the states between them. -/
theorem Kept.descend {rank : γ → σ → Nat × Nat} {stalled : σ → ε}
    {step : γ → EStateM ε σ (γ ⊕ β)} {I : σ → Prop}
    (hstep : ∀ c s, I s → U.holds s → U.Kept (Sum.elim (fun _ => True) F) (step c s) ∧
      ∀ d t, step c s = .ok (.inl d) t → I t)
    (hstalled : ∀ s, U.allows (stalled s)) {c : γ} {s : σ} (hI : I s) (hs : U.holds s) :
    U.Kept F (descend rank stalled step c s) := by
  induction c, s using descend.induct rank step with
  | case1 c s e t hround =>
      obtain ⟨ht, he⟩ := (hstep c s hI hs).1.error hround
      rw [Mosaic.descend, hround]
      exact .of_error ht he
  | case2 c s b t hround =>
      obtain ⟨ht, hb⟩ := (hstep c s hI hs).1.ok hround
      rw [descend_of_inr hround]
      exact .of_ok ht hb
  | case3 c s before d t hround hlt ih =>
      obtain ⟨hkept, hnext⟩ := hstep c s hI hs
      rw [descend_of_inl hround hlt]
      exact ih (hnext d t hround) (hkept.ok hround).1
  | case4 c s before d t hround hlt =>
      rw [Mosaic.descend, hround]
      dsimp only
      rw [if_neg hlt]
      exact .of_error ((hstep c s hI hs).1.ok hround).1 (hstalled t)

namespace Runs

theorem pure {b : β} (hb : F b) : U.Runs F (pure b) := fun _ hs => .of_ok hs hb

theorem mono (h : U.Runs F x) (hF : ∀ b, F b → F' b) : U.Runs F' x := fun s hs =>
  (h s hs).mono hF

/-- Programs that keep things up, one after the other. -/
theorem bind {f : β → Program ε σ γ} (hx : U.Runs F x) (hf : ∀ b, F b → U.Runs G (f b)) :
    U.Runs G (x >>= f) :=
  fun s hs => (hx s hs).bind fun b t _ ht hb => hf b hb t ht

theorem ite {c : Prop} [Decidable c] (hx : c → U.Runs F x) (hy : ¬ c → U.Runs F y) :
    U.Runs F (if c then x else y) := by
  split
  · exact hx ‹_›
  · exact hy ‹_›

/-- What is done if a test succeeds, and what is done if it does not. -/
theorem test {t : Program ε σ Bool} {x y : Program ε σ γ} (ht : U.Keeps t)
    (hx : U.Runs G x) (hy : U.Runs G y) : U.Runs G (do if ← t then x else y) :=
  ht.bind fun _ _ => .ite (fun _ => hx) fun _ => hy

/-- A loop keeps what its rounds keep. -/
theorem loop {place : σ → Nat} {stalled : ByteArray → σ → ε} {step : γ → Program ε σ (γ ⊕ β)}
    {c : γ} (hstep : ∀ c, U.Runs (Sum.elim (fun _ => True) F) (step c))
    (hstalled : ∀ s, U.allows (stalled U.text s)) :
    U.Runs F (Lockstep.loop place stalled step c) :=
  fun _ hs => .descend (I := fun _ => True)
    (fun c s _ hs => ⟨hstep c s hs, fun _ _ _ => trivial⟩) hstalled trivial hs

end Runs

end Upkeep

end Mosaic
