/-!
# Descent — loops that end because a rank falls

`descend` repeats a step until it answers. Every round that goes on has to lower the rank of the
loop, a pair of numbers in lexicographic order; a round that does not is an error. So the loop is
total, and it is as good as unbounded for a step of which one can prove that it lowers the rank.
-/

namespace Mosaic

/-- The lexicographic order of pairs. -/
def Below (a b : Nat × Nat) : Prop := a.1 < b.1 ∨ (a.1 = b.1 ∧ a.2 < b.2)

instance (a b : Nat × Nat) : Decidable (Below a b) := inferInstanceAs (Decidable (_ ∨ _))

theorem Below.lex {a b : Nat × Nat} (h : Below a b) : Prod.Lex (· < ·) (· < ·) a b := by
  obtain ⟨a₁, a₂⟩ := a
  obtain ⟨b₁, b₂⟩ := b
  rcases h with h | ⟨h, h'⟩
  · exact .left _ _ h
  · obtain rfl : a₁ = b₁ := h
    exact .right _ h'

variable {ε σ β γ : Type}

/-- Repeats `step` until it answers, as long as the rank falls. -/
@[specialize] def descend (rank : γ → σ → Nat × Nat) (stalled : σ → ε)
    (step : γ → EStateM ε σ (γ ⊕ β)) (x : γ) (s : σ) : EStateM.Result ε σ β :=
  let before := rank x s
  match step x s with
  | .error e s => .error e s
  | .ok (.inr b) s => .ok b s
  | .ok (.inl x) s =>
    if Below (rank x s) before then descend rank stalled step x s else .error (stalled s) s
termination_by rank x s
decreasing_by exact Below.lex (by assumption)

end Mosaic
