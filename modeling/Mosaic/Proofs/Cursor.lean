import Mosaic.Proofs.Lockstep

/-!
# Cursor — computations that go forward

A computation that begins inside a text leaves the cursor where it was or further on, and inside the
text, whether it answers or fails (`Cursor.Moves`).  With that go three things that are asked of it:
of what it may fail with, of its answers, and when it has to advance.  There is one rule for each
way to build a computation.  A loop the rounds of which advance when they go on does not stall
(`Moves.loop`).

* `Cursor.Keeps`, `Cursor.Advances`: nothing is asked of the answers, and the cursor need not
  advance, or always does.
* `Cursor.Progresses`: the rounds of a loop advance when they go on.
-/

namespace Mosaic

open Lockstep (Program)

/-- Where the cursor of a state stands, and what a computation may fail with on a text. -/
structure Cursor (ε σ : Type) where
  place : σ → Nat
  allows : ByteArray → ε → Prop

namespace Cursor

variable {ε σ β γ : Type}

/-- A computation that has begun at `i` has not gone back and is inside the text; its answer
satisfies `F`, and if it satisfies `A` the computation has advanced; what it has failed with is
allowed. -/
structure Ends (C : Cursor ε σ) (text : ByteArray) (F A : β → Prop) (i : Nat)
    (r : EStateM.Result ε σ β) : Prop where
  ok : ∀ {b t}, r = .ok b t → i ≤ C.place t ∧ C.place t ≤ text.size ∧ F b ∧ (A b → i < C.place t)
  error : ∀ {e t}, r = .error e t → i ≤ C.place t ∧ C.place t ≤ text.size ∧ C.allows text e

/-- Wherever `x` begins inside the text, it goes forward. -/
def Moves (C : Cursor ε σ) (text : ByteArray) (F A : β → Prop) (x : Program ε σ β) : Prop :=
  ∀ s, C.place s ≤ text.size → C.Ends text F A (C.place s) (x text s)

abbrev Keeps (C : Cursor ε σ) (text : ByteArray) (x : Program ε σ β) : Prop :=
  C.Moves text (fun _ => True) (fun _ => False) x

abbrev Advances (C : Cursor ε σ) (text : ByteArray) (x : Program ε σ β) : Prop :=
  C.Moves text (fun _ => True) (fun _ => True) x

variable {C : Cursor ε σ} {text : ByteArray} {F F' A A' : β → Prop} {G B : γ → Prop}
  {x y : Program ε σ β}

/-- What ends behind a place ends behind an earlier one. -/
theorem Ends.of_le {i j : Nat} {r : EStateM.Result ε σ β} (h : C.Ends text F A j r) (hij : i ≤ j) :
    C.Ends text F A i r where
  ok hr := by
    obtain ⟨hle, hsize, hb, hlt⟩ := h.ok hr
    exact ⟨Nat.le_trans hij hle, hsize, hb, fun ha => Nat.lt_of_le_of_lt hij (hlt ha)⟩
  error hr := by
    obtain ⟨hle, hsize, he⟩ := h.error hr
    exact ⟨Nat.le_trans hij hle, hsize, he⟩

/-- The general rule for sequences: what the first part has not advanced, the second one has to. -/
theorem Ends.bindOf {f : β → Program ε σ γ} {i : Nat} {s : σ} (hx : C.Ends text F A i (x text s))
    (hf : ∀ b, F b → C.Moves text G (fun c => B c ∧ ¬ A b) (f b)) :
    C.Ends text G B i ((x >>= f) text s) where
  ok h := by
    obtain ⟨b, t, hb, hc⟩ := bind_ok.mp h
    obtain ⟨hst, htsize, hF, hA⟩ := hx.ok hb
    obtain ⟨htu, husize, hG, hB⟩ := (hf b hF t htsize).ok hc
    refine ⟨Nat.le_trans hst htu, husize, hG, fun hBc => ?_⟩
    by_cases ha : A b
    · exact Nat.lt_of_lt_of_le (hA ha) htu
    · exact Nat.lt_of_le_of_lt hst (hB ⟨hBc, ha⟩)
  error h := by
    rcases bind_error.mp h with h | ⟨b, t, hb, he⟩
    · exact hx.error h
    · obtain ⟨hst, htsize, hF, -⟩ := hx.ok hb
      obtain ⟨htu, husize, hallows⟩ := (hf b hF t htsize).error he
      exact ⟨Nat.le_trans hst htu, husize, hallows⟩

namespace Moves

/-- What a program that answers has done to the cursor. -/
theorem ok {s t : σ} {b : β} (h : C.Moves text F A x) (hs : C.place s ≤ text.size)
    (hx : x text s = .ok b t) :
    C.place s ≤ C.place t ∧ C.place t ≤ text.size ∧ F b ∧ (A b → C.place s < C.place t) :=
  (h s hs).ok hx

/-- Where a program that fails has left the cursor. -/
theorem error {s t : σ} {e : ε} (h : C.Moves text F A x) (hs : C.place s ≤ text.size)
    (hx : x text s = .error e t) :
    C.place s ≤ C.place t ∧ C.place t ≤ text.size ∧ C.allows text e :=
  (h s hs).error hx

/-- What is known of the answer may be weakened. -/
theorem mono (h : C.Moves text F A x) (hF : ∀ b, F b → F' b) (hA : ∀ b, A' b → A b) :
    C.Moves text F' A' x := by
  refine fun s hs => ⟨fun hx => ?_, h.error hs⟩
  obtain ⟨hle, hsize, hb, hlt⟩ := h.ok hs hx
  exact ⟨hle, hsize, hF _ hb, fun ha => hlt (hA _ ha)⟩

theorem keeps (h : C.Moves text F A x) : C.Keeps text x :=
  h.mono (fun _ _ => trivial) fun _ => False.elim

/-- Where it is known that all answers advance, however it is known. -/
theorem strengthen (h : C.Moves text F A x)
    (hlt : ∀ {s b t}, x text s = .ok b t → A' b → C.place s < C.place t) :
    C.Moves text F A' x := by
  refine fun s hs => ⟨fun hx => ?_, h.error hs⟩
  obtain ⟨hle, hsize, hb, -⟩ := h.ok hs hx
  exact ⟨hle, hsize, hb, hlt hx⟩

theorem pure {b : β} (hb : F b) (ha : ¬ A b) : C.Moves text F A (pure b) := by
  refine fun s hs => ⟨fun hx => ?_, (nomatch ·)⟩
  cases hx
  exact ⟨Nat.le_refl _, hs, hb, fun h => absurd h ha⟩

/-- What is read next, when the first part may have taken something. -/
theorem bindOf {f : β → Program ε σ γ} (hx : C.Moves text F A x)
    (hf : ∀ b, F b → C.Moves text G (fun c => B c ∧ ¬ A b) (f b)) :
    C.Moves text G B (x >>= f) :=
  fun s hs => (hx s hs).bindOf hf

theorem bind {f : β → Program ε σ γ} (hx : C.Moves text F A x)
    (hf : ∀ b, F b → C.Moves text G B (f b)) : C.Moves text G B (x >>= f) :=
  hx.bindOf fun b hb => (hf b hb).mono (fun _ h => h) fun _ h => h.1

/-- What has advanced need not be followed by something that advances. -/
theorem andThen {f : β → Program ε σ γ} (hx : C.Moves text F (fun _ => True) x)
    (hf : ∀ b, F b → C.Moves text G (fun _ => False) (f b)) : C.Moves text G B (x >>= f) :=
  hx.bindOf fun b hb => (hf b hb).mono (fun _ h => h) fun _ h => h.2 trivial

theorem ite {c : Prop} [Decidable c] (hx : c → C.Moves text F A x)
    (hy : ¬ c → C.Moves text F A y) : C.Moves text F A (if c then x else y) := by
  split
  · exact hx ‹_›
  · exact hy ‹_›

/-- Where a token is taken, the cursor has advanced. -/
theorem ifTaken {t : Program ε σ Bool} {x y : Program ε σ γ}
    (ht : C.Moves text (fun _ => True) (· = true) t)
    (hx : C.Moves text G (fun _ => False) x) (hy : C.Moves text G B y) :
    C.Moves text G B (do if ← t then x else y) :=
  ht.bindOf fun _ _ => .ite (fun h => hx.mono (fun _ h => h) fun _ hB => hB.2 h)
    fun _ => hy.mono (fun _ h => h) fun _ hB => hB.1

/-! ### Loops -/

variable {step : γ → Program ε σ (γ ⊕ β)} {stalled : ByteArray → σ → ε} {I : γ → Prop} {c : γ}

/-- A loop the rounds of which advance goes through finitely many of them, and then ends as the one
does that does not go on. -/
theorem loop_ends (stalled : ByteArray → σ → ε)
    (hstep : ∀ c, I c → C.Moves text (Sum.elim I F) (·.isLeft) (step c)) (hc : I c) {s : σ}
    (hs : C.place s ≤ text.size) :
    ∃ d t, Rounds (fun c => step c text) c s d t ∧
      (I d ∧ C.place s ≤ C.place t ∧ C.place t ≤ text.size) ∧
      ((∃ b u, step d text t = .ok (.inr b) u ∧
          Lockstep.loop C.place stalled step c text s = .ok b u) ∨
        ∃ e u, step d text t = .error e u ∧
          Lockstep.loop C.place stalled step c text s = .error e u) := by
  refine descend_ends
    (I := fun d t => I d ∧ C.place s ≤ C.place t ∧ C.place t ≤ text.size) ?_
    ⟨hc, Nat.le_refl _, hs⟩
  rintro y z t u ⟨hy, hle, hsize⟩ hround
  obtain ⟨-, husize, hz, hlt⟩ := (hstep y hy).ok hsize hround
  have hlt := hlt rfl
  exact ⟨⟨hz, by omega, husize⟩, Lockstep.below_iff.mpr (by omega)⟩

/-- A loop keeps to the text if its rounds take something when they go on. -/
theorem loop (hstep : ∀ c, I c → C.Moves text (Sum.elim I F) (·.isLeft) (step c)) (hc : I c) :
    C.Moves text F (fun _ => False) (Lockstep.loop C.place stalled step c) := by
  intro s hs
  obtain ⟨d, t, -, ⟨hd, hst, htsize⟩, hend⟩ := loop_ends stalled hstep hc hs
  rcases hend with ⟨b, u, hround, heq⟩ | ⟨e, u, hround, heq⟩ <;> rw [heq]
  · refine ⟨fun h => ?_, (nomatch ·)⟩
    cases h
    obtain ⟨htu, husize, hF, -⟩ := (hstep d hd).ok htsize hround
    exact ⟨Nat.le_trans hst htu, husize, hF, False.elim⟩
  · refine ⟨(nomatch ·), fun h => ?_⟩
    cases h
    obtain ⟨htu, husize, hallows⟩ := (hstep d hd).error htsize hround
    exact ⟨Nat.le_trans hst htu, husize, hallows⟩

end Moves

/-- Every round that goes on advances the cursor, inside the text. -/
def Progresses (C : Cursor ε σ) (text : ByteArray) (step : γ → Program ε σ (γ ⊕ β)) : Prop :=
  ∀ c c' s t, C.place s ≤ text.size → step c text s = .ok (.inl c') t →
    C.place s < C.place t ∧ C.place t ≤ text.size

theorem Progresses.of_moves {step : γ → Program ε σ (γ ⊕ β)}
    (h : ∀ c, C.Moves text (fun _ => True) (·.isLeft = true) (step c)) :
    C.Progresses text step := by
  intro c c' s t hs hround
  obtain ⟨-, hsize, -, hlt⟩ := (h c).ok hs hround
  exact ⟨hlt rfl, hsize⟩

end Cursor

end Mosaic
