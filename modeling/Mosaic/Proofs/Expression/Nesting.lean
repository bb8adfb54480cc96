import Mosaic.Proofs.Expression.Places

/-!
# Expression — counting how deep an expression is nested

The parser is given the room that is left for signs, powers, parentheses and calls.  Here it keeps
a count of them beside the cursor instead, which it raises when it goes deeper and lowers when it
comes back, also when it fails (`Nested.deeper`).  From a depth the two do the same, so the count is
what it was (`Nested.Agrees.sum`), and the cursor goes forward (`Nested.Counts`).
-/

namespace Mosaic.Expression

open Reader

/-- A cursor, and how deep inside of an expression it is. -/
structure Nesting where
  offset : Nat
  depth : Nat

/-- A reader that counts. -/
abbrev Nested (β : Type) := ReaderT ByteArray (EStateM ParseError Nesting) β

namespace Nested

variable {α β γ : Type} {d : Nat}

/-- A reading of tokens, which does not go deeper. -/
def ofReader (r : Reader β) : Nested β := fun text s =>
  match r text s.offset with
  | .ok b i => .ok b { s with offset := i }
  | .error e i => .error e { s with offset := i }

/-- Runs `x` one deeper. -/
def deeper (x : Nested β) : Nested β := fun text s =>
  if maxDepth ≤ s.depth then ofReader (fail .nestedTooDeeply) text s
  else match x text { s with depth := s.depth + 1 } with
    | .ok b t => .ok b { t with depth := t.depth - 1 }
    | .error e t => .error e { t with depth := t.depth - 1 }

/-- Repeats `step` until it answers. -/
def iterate (step : γ → Nested (γ ⊕ β)) : γ → Nested β :=
  Lockstep.loop Nesting.offset (fun text s => ⟨.stalled, Position.of text s.offset⟩) step

/-! ### The parser -/

def chain (a b : String) (f g : α → α → α) (operand : Nested α) : Nested α := do
  iterate (fun v => do
    if ← ofReader (eat a) then return .inl (f v (← operand))
    else if ← ofReader (eat b) then return .inl (g v (← operand))
    else return .inr v) (← operand)

def arguments (expr : Nested α) : Nested (List α) := do
  if ← ofReader (eat ")") then return []
  iterate (fun (args : List α) => do
    let args := (← expr) :: args
    if ← ofReader (eat ")") then return .inr args.reverse
    ofReader (expect ",")
    return .inl args) []

variable [Scalar α]

def sumOf (term : Nested α) : Nested α := chain "+" "-" (· + ·) (· - ·) term

def productOf (factor : Nested α) : Nested α := chain "*" "/" (· * ·) (· / ·) factor

def primary (scope : Scope α) (expr : Nested α) : Nested α := do
  ofReader skipBlanks
  match ← ofReader peek with
  | none => ofReader (fail .expectedExpression)
  | some c =>
    if c == 40 then
      let _ ← ofReader takeChar
      let v ← expr
      ofReader (expect ")")
      return v
    else if isDigit c || c == 46 then ofReader number
    else if isNameStart c then
      let name ← ofReader identifier
      if ← ofReader (eat "(") then ofReader (ofExcept (scope.call name (← arguments expr)))
      else ofReader (ofExcept (scope.lookup name))
    else ofReader (fail .expectedExpression)

/-- A signed power; `fuel` is more than the room that is left. -/
def unary (scope : Scope α) : (fuel : Nat) → Nested α
  | 0 => ofReader (fail .nestedTooDeeply)
  | fuel + 1 => deeper do
    if ← ofReader (eat "-") then return -(← unary scope fuel)
    if ← ofReader (eat "+") then unary scope fuel
    else
      let base ← primary scope (sumOf (productOf (unary scope fuel)))
      if ← ofReader (eat "^") then return Scalar.pow base (← unary scope fuel)
      else return base

def sum (scope : Scope α) : Nested α := sumOf (productOf (unary scope (maxDepth + 1)))

def real (scope : Scope α) : Nested α := do ofReader (finite (← sum scope))

def integer (scope : Scope α) : Nested Int := do return Scalar.round (← real scope)

def index (scope : Scope α) : Nested Nat := do
  match ← integer scope with
  | .ofNat n => return n
  | v => ofReader (fail (.badIndex v))

def realThenClose (scope : Scope α) : Nested α := do
  let v ← real scope
  ofReader (expect ")")
  return v

/-! ### The same without counting -/

omit [Scalar α]

/-- From the depth `d`, `x` does what `r` does and leaves the depth as it is. -/
def Agrees (d : Nat) (x : Nested β) (r : Reader β) : Prop :=
  ∀ text i, x text ⟨i, d⟩ = ofReader r text ⟨i, d⟩

namespace Agrees

variable {x y : Nested β} {r r' : Reader β}

/-- A reader that does not nest agrees with itself. -/
theorem reading (r : Reader β) : Agrees d (ofReader r) r := fun _ _ => rfl

theorem pure (b : β) : Agrees d (pure b) (pure b) := fun _ _ => rfl

/-- Readers that agree, one after the other. -/
theorem bind {f : β → Nested γ} {g : β → Reader γ} (hx : Agrees d x r)
    (hf : ∀ b, Agrees d (f b) (g b)) : Agrees d (x >>= f) (r >>= g) := by
  intro text i
  have hx := hx text i
  simp only [Bind.bind, ReaderT.bind, EStateM.bind, hx, ofReader]
  cases r text i with
  | ok b j => exact hf b text j
  | error e j => rfl

theorem ite {c : Prop} [Decidable c] (hx : Agrees d x r) (hy : Agrees d y r') :
    Agrees d (if c then x else y) (if c then r else r') := by
  split
  · exact hx
  · exact hy

/-- Readers that agree, chosen by a token that is there or not. -/
theorem ifTaken {t : Reader Bool} (hx : Agrees d x r) (hy : Agrees d y r') :
    Agrees d (do if ← ofReader t then x else y) (do if ← t then r else r') :=
  (reading t).bind fun _ => .ite hx hy

/-- Loops agree if their rounds do. -/
theorem iterate {step : γ → Nested (γ ⊕ β)} {step' : γ → Reader (γ ⊕ β)}
    (h : ∀ c, Agrees d (step c) (step' c)) (c : γ) :
    Agrees d (Nested.iterate step c) (Reader.iterate step' c) := by
  intro text i
  have h := fun c => h c text
  unfold Nested.iterate Lockstep.loop Reader.iterate ofReader at *
  dsimp only at *
  induction c, i using descend.induct (fun _ i => (text.size - i, 0)) (fun c => step' c text) with
  | case1 c i e j hround => rw [descend, h, hround, descend, hround]
  | case2 c i b j hround => rw [descend, h, hround, descend, hround]
  | case3 c i before c' j hround hlt ih =>
      rw [descend, h, hround, descend, hround]
      dsimp only
      rw [if_pos hlt, if_pos hlt]
      exact ih
  | case4 c i before c' j hround hlt =>
      rw [descend, h, hround, descend, hround]
      dsimp only
      rw [if_neg hlt, if_neg hlt]

/-- There is room to go deeper. -/
theorem deeper (hd : d < maxDepth) (h : Agrees (d + 1) x r) : Agrees d (deeper x) r := by
  intro text i
  have h := h text i
  unfold Nested.deeper
  rw [if_neg (Nat.not_le_of_lt hd), h]
  unfold ofReader
  dsimp only
  cases r text i <;> rfl

/-- There is no room left. -/
theorem deepest (hd : maxDepth ≤ d) : Agrees d (Nested.deeper x) (fail .nestedTooDeeply) :=
  fun _ _ => if_pos hd

/-- Chains of operators agree if their operands do. -/
theorem chain {a b : String} {f g : β → β → β} (h : Agrees d x r) :
    Agrees d (Nested.chain a b f g x) (Expression.chain a b f g r) :=
  h.bind fun _ => .iterate (fun _ => .ifTaken (h.bind fun _ => .pure _)
    (.ifTaken (h.bind fun _ => .pure _) (.pure _))) _

/-- Argument lists agree if the expressions in them do. -/
theorem arguments (h : Agrees d x r) :
    Agrees d (Nested.arguments x) (Expression.arguments r) := by
  refine .ifTaken (.pure _) (.iterate (fun args => ?_) _)
  refine h.bind fun v => .ifTaken (.pure _) ((reading _).bind fun _ => .pure _)

variable [Scalar β] (scope : Scope β)

/-- Primaries agree if the expressions in parentheses do. -/
theorem primary (h : Agrees d x r) :
    Agrees d (Nested.primary scope x) (Expression.primary scope r) := by
  refine (reading _).bind fun _ => (reading _).bind fun c => ?_
  cases c with
  | none => exact reading _
  | some c =>
      refine .ite ?_ (.ite (reading _) (.ite ?_ (reading _)))
      · exact (reading _).bind fun _ => h.bind fun v => (reading _).bind fun _ => .pure v
      · refine (reading _).bind fun name => .ifTaken ?_ (reading _)
        exact (arguments h).bind fun args => reading _

/-- From the depth `d` there is room for what is left up to the greatest depth. -/
theorem unary {fuel : Nat} (hd : d ≤ maxDepth) (hfuel : maxDepth - d < fuel) :
    Agrees d (Nested.unary scope fuel) (Expression.unary scope (maxDepth - d)) := by
  induction fuel generalizing d with
  | zero => exact absurd hfuel (Nat.not_lt_zero _)
  | succ fuel ih =>
      rcases Nat.eq_or_lt_of_le hd with rfl | hlt
      · rw [Nat.sub_self]
        exact deepest (Nat.le_refl _)
      · obtain ⟨room, hroom⟩ : ∃ room, maxDepth - d = room + 1 := ⟨maxDepth - d - 1, by omega⟩
        have hinner : Agrees (d + 1) (Nested.unary scope fuel) (Expression.unary scope room) := by
          have h := ih (d := d + 1) hlt (by omega)
          rwa [show maxDepth - (d + 1) = room by omega] at h
        rw [hroom]
        refine deeper hlt ?_
        refine .ifTaken (hinner.bind fun _ => .pure _) (.ifTaken hinner ?_)
        refine (primary scope (chain (chain hinner))).bind fun base => ?_
        exact .ifTaken (hinner.bind fun _ => .pure _) (.pure _)

/-- With the count at `d`, an expression is read as it is with the room that is left. -/
theorem sum (hd : d ≤ maxDepth) : Agrees d (Nested.sum scope)
    (Expression.sumOf (Expression.productOf (Expression.unary scope (maxDepth - d)))) :=
  chain (chain (unary scope hd (by omega)))

end Agrees

/-! ### Going forward while counting -/

/-- From the depth `d`, `x` does what a reader does that goes forward, and `r` is this reader where
nothing is nested yet.  The cursor advances for answers in `A`. -/
def Counts (text : ByteArray) (d : Nat) (A : β → Prop) (x : Nested β) (r : Reader β) : Prop :=
  ∃ r' : Reader β, Agrees d x r' ∧ (d = 0 → r' = r) ∧ cursor.Moves text (fun _ => True) A r'

namespace Counts

variable {text : ByteArray} {A : β → Prop} {x : Nested β} {r : Reader β}

/-- A reader that takes something, with the count as it was. -/
theorem reading (h : cursor.Moves text (fun _ => True) A r) : Counts text d A (ofReader r) r :=
  ⟨r, .reading r, fun _ => rfl, h⟩

theorem pure (b : β) : Counts text d (fun _ => False) (pure b) (pure b) :=
  ⟨_, .pure b, fun _ => rfl, .pure trivial id⟩

/-- What is read after something that has been taken. -/
theorem andThen {f : β → Nested γ} {g : β → Reader γ} (hx : Counts text d (fun _ => True) x r)
    (hf : ∀ b, Counts text d (fun _ => False) (f b) (g b)) :
    Counts text d (fun _ => True) (x >>= f) (r >>= g) := by
  obtain ⟨r', hagrees, hr, hmoves⟩ := hx
  choose g' hagrees' hg hmoves' using hf
  refine ⟨r' >>= g', hagrees.bind hagrees', fun hd => ?_, hmoves.andThen fun b _ => hmoves' b⟩
  rw [hr hd, funext fun b => hg b hd]

variable [Scalar α] (scope : Scope α)

/-- An expression takes something and leaves the count as it was. -/
theorem sum (hd : d ≤ maxDepth) :
    Counts text d (fun _ => True) (Nested.sum scope) (Expression.sum scope) := by
  refine ⟨_, .sum scope hd, ?_, sumOf_advances scope (maxDepth - d)⟩
  rintro rfl
  rfl

theorem real (hd : d ≤ maxDepth) :
    Counts text d (fun _ => True) (Nested.real scope) (Expression.real scope) :=
  (sum scope hd).andThen fun v => .reading (finite_moves v)

theorem integer (hd : d ≤ maxDepth) :
    Counts text d (fun _ => True) (Nested.integer scope) (Expression.integer scope) :=
  (real scope hd).andThen fun _ => .pure _

theorem index (hd : d ≤ maxDepth) :
    Counts text d (fun _ => True) (Nested.index scope) (Expression.index scope) := by
  refine (integer scope hd).andThen fun v => ?_
  cases v with
  | ofNat n => exact .pure n
  | negSucc n => exact .reading (fail_moves rfl)

theorem realThenClose (hd : d ≤ maxDepth) : Counts text d (fun _ => True)
    (Nested.realThenClose scope) (Expression.realThenClose scope) := by
  refine (real scope hd).andThen fun v => ?_
  exact ⟨_, (Agrees.reading (expect ")")).bind fun _ => .pure v, fun _ => rfl,
    (expect_moves ")").bind fun _ _ => .pure trivial id⟩

end Counts

end Nested

end Mosaic.Expression
