import Mosaic.Description.Error
import Mosaic.Expression.Parser
import Mosaic.Tiling.Gluing

/-!
# Description — the tiling under construction

A description is read with a cursor into its text and a draft of the tiling it describes. `Drafting`
is a computation on both, which keeps them when it fails; readings of the text are computations of
this kind, and expressions are read in the scope of the draft.

* `Draft`: the tiling so far, the variables, and the units of angles and distances.
* `Drafting.integer`, `Drafting.index`, …: expressions in the scope of the draft.
-/

namespace Mosaic

/-- The tiling described so far, and what later directives depend on. -/
structure Draft (α : Type) where
  tiling : Tiling α
  bindings : Bindings α
  angleUnit : α
  distanceUnit : α

/-- The state of reading: the offset of the cursor and the draft. -/
structure Desk (α : Type) where
  offset : Nat
  draft : Draft α

/-- A computation that reads a description and works on the draft. -/
abbrev Drafting (α β : Type) := ReaderT ByteArray (EStateM (LoadError α) (Desk α)) β

namespace Drafting

variable {α β γ : Type}

/-- A reading of the text as a computation that leaves the draft alone. -/
def ofReader (r : Reader β) : Drafting α β := fun text desk =>
  match r text desk.offset with
  | .ok b i => .ok b { desk with offset := i }
  | .error e i => .error (.malformed e) { desk with offset := i }

instance : MonadLift (ReaderT ByteArray (EStateM ParseError Nat)) (fun β => Drafting α β) :=
  ⟨ofReader⟩

/-- The draft. -/
@[inline] def draft : Drafting α (Draft α) := fun _ desk => .ok desk.draft desk

/-- Changes the draft. -/
@[inline] def modifyDraft (f : Draft α → Draft α) : Drafting α Unit := fun _ desk =>
  .ok () { desk with draft := f desk.draft }

/-- Ends the load. -/
@[inline] def stop (e : LoadError α) : Drafting α β := fun _ desk => .error e desk

/-- Changes the tiling of the draft. -/
@[inline] def modifyTiling (f : Tiling α → Tiling α) : Drafting α Unit :=
  modifyDraft fun d => { d with tiling := f d.tiling }

/-- Gives a variable a value. -/
@[inline] def bindVariable (name : String) (value : α) : Drafting α Unit :=
  modifyDraft fun d => { d with bindings := d.bindings.insert name value }

/-- Repeats `step` until it answers; every round that goes on advances the cursor. -/
@[inline] def iterate (step : γ → Drafting α (γ ⊕ β)) (x : γ) : Drafting α β := fun text =>
  descend (fun _ desk => (text.size - desk.offset, 0))
    (fun desk => .malformed ⟨.stalled, Position.of text desk.offset⟩) (fun x => step x text) x

variable [Scalar α]

/-- The scope of expressions at this point of the description. -/
def scope : Drafting α (Scope α) := do
  let d ← draft
  return ⟨d.tiling.space, d.bindings⟩

/-- An expression that may be infinite. -/
def sum : Drafting α α := do Expression.sum (← scope)

/-- A finite expression. -/
def real : Drafting α α := do Expression.real (← scope)

/-- A finite expression and the closing parenthesis after it. -/
def realThenClose : Drafting α α := do Expression.realThenClose (← scope)

/-- An expression rounded to an integer. -/
def integer : Drafting α Int := do Expression.integer (← scope)

/-- An index below a bound; any other value is refused at the place where it begins. -/
def indexBelow (bound : Nat) : Drafting α Nat := do
  let place ← Reader.offset
  match ← integer with
  | .ofNat n => if n < bound then return n else Reader.failAt place (.badIndex n)
  | v => Reader.failAt place (.badIndex v)

/-- The number of a shape of the draft. -/
def shapeIndex : Drafting α Nat := do indexBelow (← draft).tiling.shapes.size

/-- The number of an edge of a shape of the draft. -/
def edgeIndex (shape : Nat) : Drafting α Nat := do
  indexBelow ((← draft).tiling.shape shape).size

end Drafting

end Mosaic
