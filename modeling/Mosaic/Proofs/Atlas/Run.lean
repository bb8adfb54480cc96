import Mosaic.Atlas.Expand
import Mosaic.Proofs.Atlas.Step

/-!
# Atlas — runs

An atlas is used by calls, steps and expansions, that may fail and leave their atlas to the next
call all the same (`Call`, `Atlas.after`).  An expansion is made of steps, so a relation between the
atlas before and after that every step keeps is kept by every run (`after_keeps`).  What is kept by
links and by tiles that are placed from the cell of a neighbour (`PlacedFrom`) is kept by a step
(`step_rule`) and by a run (`after_rule`).
-/

namespace Mosaic

/-! ### Relations kept by computations -/

section Keeps

variable {ε σ β γ : Type}

/-- The state that a computation leaves, whether it fails or not. -/
def finalState (x : EStateM ε σ β) (s : σ) : σ :=
  match x s with
  | .ok _ t => t
  | .error _ t => t

/-- `R` relates the state before the computation to the one it leaves. -/
def Keeps (R : σ → σ → Prop) (x : EStateM ε σ β) : Prop := ∀ s, R s (finalState x s)

variable {R : σ → σ → Prop} (hrefl : ∀ s, R s s) (htrans : ∀ s t u, R s t → R t u → R s u)

include hrefl in
theorem Keeps.pure (b : β) : Keeps R (Pure.pure b : EStateM ε σ β) := hrefl

include hrefl in
theorem Keeps.get : Keeps R (MonadState.get : EStateM ε σ σ) := hrefl

include htrans

theorem Keeps.bind {x : EStateM ε σ β} {f : β → EStateM ε σ γ} (hx : Keeps R x)
    (hf : ∀ b, Keeps R (f b)) : Keeps R (x >>= f) := by
  intro s
  have hs := hx s
  simp only [finalState, Bind.bind, EStateM.bind] at hs ⊢
  cases h : x s with
  | ok b t =>
      rw [h] at hs
      exact htrans _ _ _ hs (hf b t)
  | error e t =>
      rw [h] at hs
      exact hs

include hrefl

theorem Keeps.foldlM {f : γ → β → EStateM ε σ γ} (hf : ∀ c b, Keeps R (f c b)) :
    ∀ (l : List β) (c : γ), Keeps R (l.foldlM f c)
  | [], c => .pure hrefl c
  | b :: l, c => by
      rw [List.foldlM_cons]
      exact .bind htrans (hf c b) fun c' => Keeps.foldlM hf l c'

end Keeps

/-! ### Calls -/

/-- A use of an atlas. -/
inductive Call where
  | step (id edge : Nat)
  | expand (radius : Nat)
  deriving Repr

namespace Atlas

variable {α : Type} [Scalar α]

/-- The atlas after a call, which may have failed. -/
def call (m : Atlas α) : Call → Atlas α
  | .step id edge => finalState (step id edge) m
  | .expand radius => finalState (expand radius) m

/-- The atlas after a sequence of calls. -/
def after (m : Atlas α) (calls : List Call) : Atlas α := calls.foldl call m

section Keeps

variable {R : Atlas α → Atlas α → Prop} (hrefl : ∀ m, R m m)
  (htrans : ∀ m₁ m₂ m₃, R m₁ m₂ → R m₂ m₃ → R m₁ m₃) (hstep : ∀ id edge, Keeps R (step id edge))

include hrefl htrans hstep

/-- To visit a tile keeps what steps across its edges keep. -/
theorem visit_keeps (b : Ball) (id : Nat) : Keeps R (visit b id) := by
  refine .bind htrans (.get hrefl) fun m => ?_
  refine Keeps.foldlM hrefl htrans (fun b edge => ?_) _ b
  exact .bind htrans (hstep id edge) fun id' => .pure hrefl (b.add id')

theorem addRings_keeps : ∀ (radius : Nat) (b : Ball), Keeps R (addRings radius b)
  | 0, b => .pure hrefl b
  | radius + 1, b => by
      unfold addRings
      split
      · exact .pure hrefl b
      · refine .bind htrans ?_ fun b' => addRings_keeps radius b'
        rw [← Array.foldlM_toList]
        exact Keeps.foldlM hrefl htrans (visit_keeps hrefl htrans hstep) _ _

/-- What every step keeps is kept by an expansion. -/
theorem expand_keeps (radius : Nat) : Keeps R (expand radius) :=
  .bind htrans (addRings_keeps hrefl htrans hstep radius _) fun b => .pure hrefl b.order

/-- What every step keeps is kept by every run. -/
theorem after_keeps (m : Atlas α) (calls : List Call) : R m (m.after calls) := by
  induction calls generalizing m with
  | nil => exact hrefl m
  | cons c calls ih =>
      refine htrans _ _ _ ?_ (ih (m.call c))
      cases c with
      | step id edge => exact hstep id edge m
      | expand radius => exact expand_keeps hrefl htrans hstep radius m

end Keeps

/-! ### Properties kept by the changes -/

/-- The places that a step can give to a neighbour of tile `id`. -/
inductive PlacedFrom (m : Atlas α) (id : Nat) : Placement α → Prop where
  | absolute (haffine : m.isAffine = true) (t : Motion α) : PlacedFrom m id ⟨.globe, t⟩
  | settled (haffine : m.isAffine = false) (t : Motion α) :
      PlacedFrom m id (m.lattice.settle (m.place id).key t)

section Rule

variable {P : Atlas α → Prop} (hlink : ∀ m a e b f mirror, P m → P (m.link a e b f mirror))
  (hinsert : ∀ m id n place, id < m.nodes.size → m.PlacedFrom id place → P m →
    P (m.insert n place))

include hlink hinsert

/-- A new tile keeps what placing and linking keep. -/
theorem create_rule {m : Atlas α} (h : P m) {id : Nat} {place : Placement α}
    (hplace : m.PlacedFrom id place) (edge : Nat) (c : Connection) :
    P (finalState (create id edge c place) m) := by
  unfold finalState create
  by_cases hmax : maxNodes ≤ m.nodes.size
  · simpa only [hmax, if_true] using h
  · cases hn : m.nodes[id]? with
    | none => simpa only [hmax, if_false] using h
    | some parent =>
        have hid : id < m.nodes.size := (Array.getElem?_eq_some_iff.mp hn).1
        simp only [hmax, if_false]
        exact hlink _ _ _ _ _ _ (hinsert m id _ place hid hplace h)

/-- An edge that is resolved keeps what placing and linking keep. -/
theorem resolve_rule {m : Atlas α} (h : P m) (id edge : Nat) (c : Connection)
    (adjacency : Motion α) : P (finalState (resolve id edge c adjacency) m) := by
  have hcreate := fun place (hplace : m.PlacedFrom id place) =>
    create_rule hlink hinsert h hplace edge c
  unfold finalState at hcreate ⊢
  unfold resolve
  cases haffine : m.isAffine with
  | true =>
      simp only [if_true]
      cases m.searchAffine id edge c adjacency m.tiling.affineLimit 0 _ with
      | error e => exact h
      | ok found =>
          cases found with
          | some a => exact hlink m id edge a c.edge c.mirror h
          | none => exact hcreate _ (.absolute haffine _)
  | false =>
      simp only [Bool.false_eq_true, if_false]
      cases m.findPlaced? id edge c _ with
      | some x => exact hlink m id edge x.1 x.2 c.mirror h
      | none => exact hcreate _ (.settled haffine _)

/-- What links and placed tiles keep is kept by a step. -/
theorem step_rule {m : Atlas α} (h : P m) (id edge : Nat) :
    P (finalState (step id edge) m) := by
  have hresolve := resolve_rule hlink hinsert h id edge
  unfold finalState at hresolve ⊢
  unfold step
  cases m.nodes[id]? with
  | none => exact h
  | some node =>
      dsimp only
      by_cases he : node.degree ≤ edge
      · simpa only [he, if_true] using h
      · simp only [he, if_false]
        cases node.link? edge with
        | some l => exact h
        | none =>
            cases m.adjacencyOf id edge with
            | error e => exact h
            | ok adjacency => exact hresolve _ adjacency

/-- What links and placed tiles keep is kept by a run. -/
theorem after_rule {m : Atlas α} (h : P m) (calls : List Call) : P (m.after calls) :=
  after_keeps (R := fun m m' => P m → P m') (fun _ h => h) (fun _ _ _ h₁ h₂ h => h₂ (h₁ h))
    (fun id edge _ h => step_rule hlink hinsert h id edge) m calls h

end Rule

end Atlas

end Mosaic
