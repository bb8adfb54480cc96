import Mosaic.Description.Directive

/-!
# Description — the loops of directives

Wherever a directive has a loop, its rounds have a name here.  What is proved about a directive with
a loop is proved about its rounds, and then it is carried through the loop.

* `optionRound`, `treeRound`, `primeRound`, `cycleRound`, `cornerRound`: the rounds of the loops.
* `cycleTarget`: what comes after the indices of the end of a cycle have been read.
-/

namespace Mosaic.Drafting

variable {α : Type}

/-! ### Options -/

/-- One more option, and the token after it. -/
def optionRound : Unit → Drafting α (Unit ⊕ Unit) := fun () => do
  let s ← Reader.takeUntil 34
  let _ ← Reader.takeChar
  modifyTiling fun t => { t with options := t.options.push s }
  if ← Reader.eat "," then
    Reader.expect "\""
    return .inl ()
  Reader.expect ")"
  return .inr ()

/-- Options are a loop over rounds. -/
theorem options_eq :
    (options : Drafting α Unit) = (do Reader.expect "\""; iterate optionRound ()) := rfl

/-! ### Tree states -/

/-- One more byte of a tree state, inside of so many parentheses. -/
def treeRound (depth : Nat) : Drafting α (Nat ⊕ Unit) := do
  match ← Reader.takeChar with
  | none => Reader.fail .unterminatedTreeState
  | some c =>
    if c == 40 then return .inl (depth + 1)
    else if c == 41 then return if depth = 0 then .inr () else .inl (depth - 1)
    else return .inl depth

/-- The scan for the parenthesis that closes the directive. -/
def treeScan : Drafting α Unit :=
  iterate (fun (depth : Nat) => do
    match ← Reader.takeChar with
    | none => Reader.fail .unterminatedTreeState
    | some c =>
      if c == 40 then return .inl (depth + 1)
      else if c == 41 then return if depth = 0 then .inr () else .inl (depth - 1)
      else return .inl depth) 0

theorem treeScan_eq : (treeScan : Drafting α Unit) = iterate treeRound 0 := rfl

/-! ### Cycles -/

variable [Scalar α]

/-- One more prime, if there is one. -/
def primeRound (n : Nat) : Drafting α (Nat ⊕ Nat) := do
  if ← Reader.eat "'" then return .inl (n + 1) else return .inr n

/-- The end of a cycle whose indices have been read. -/
def cycleTarget (place : Nat) (edge shape : Int) : Drafting α (Nat × Nat) := do
  let t := (← draft).tiling
  if shape < 0 ∨ (t.shapes.size : Int) ≤ shape then Reader.failAt place (.badIndex shape)
  if edge < 0 ∨ ((t.shape shape.toNat).size : Int) ≤ edge then Reader.failAt place (.badIndex edge)
  return (shape.toNat, edge.toNat)

/-- The end of a cycle counts primes, unless the shape is given by its number. -/
theorem cycleEnd_eq : (cycleEnd : Drafting α (Nat × Nat)) = (do
    let place ← Reader.offset
    let edge ← integer
    let primes ← iterate primeRound 0
    let shape ← if ← Reader.eat "@" then integer else pure (primes : Int)
    cycleTarget place edge shape) := rfl

/-- One more cycle, or the end of them. -/
def cycleRound : Unit → Drafting α (Unit ⊕ Unit) := fun () => do
  let mirror ← cycleOpening
  match mirror with
  | none => return .inr ()
  | some mirror =>
    let (a, e) ← cycleEnd
    let closed ← (do if ← Reader.eat ")" then return true else Reader.eat "]" : Drafting α Bool)
    let (b, f) ← if closed then pure (a, e) else do
      let last ← cycleEnd
      unless ← Reader.eat ")" do
        let _ ← Reader.eat "]"
      pure last
    modifyTiling (·.connect a e b f mirror)
    return .inl ()

/-- Cycles are a loop over rounds between quotation marks. -/
theorem cycles_eq : (cycles : Drafting α Unit) = (do
    Reader.expect "\""
    iterate cycleRound ()
    Reader.expect ")") := rfl

/-! ### Corners -/

/-- One more entry of the list of corners, or its end. -/
def cornerRound (unit : Bool) (corners : Array (Corner α)) :
    Drafting α (Array (Corner α) ⊕ Outline α) := do
  if ← Reader.eat ")" then return .inr ⟨corners, false, 1⟩
  if ← Reader.eat "*" then return .inr (← tileRepeat corners)
  let corners ← tileEntry unit corners
  if ← Reader.eat "," then return .inl corners
  if ← Reader.eat ")" then return .inr ⟨corners, false, 1⟩
  Reader.fail .expectedSeparator

/-- An outline is a loop over the entries of the list of corners. -/
theorem outline_eq (unit : Bool) :
    (outline unit : Drafting α (Outline α)) = iterate (cornerRound unit) #[] := rfl

end Mosaic.Drafting
