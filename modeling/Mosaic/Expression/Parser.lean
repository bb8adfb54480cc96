import Mosaic.Expression.Scope
import Mosaic.Expression.Numeral

/-!
# Expression — arithmetic

Sums of products of signed powers. Powers group to the right and bind tighter than a sign on their
left; signs, powers, parentheses and arguments nest at most `maxDepth` deep on any path.

* `Expression.sum`: the value of the expression at the cursor; it may be infinite.
* `Expression.real`, `Expression.integer`, `Expression.index`: a finite value, rounded to the
  nearest integer, and refused below zero.
-/

namespace Mosaic.Expression

open Reader

variable {α : Type} [Scalar α]

/-- Signs, powers, parentheses and calls on one path of an expression. -/
def maxDepth : Nat := 256

/-- Terms joined by `+` and `-`, grouped to the left. -/
def sumOf (term : Reader α) : Reader α := do
  iterate (fun v => do
    if ← eat "+" then return .inl (v + (← term))
    else if ← eat "-" then return .inl (v - (← term))
    else return .inr v) (← term)

/-- Factors joined by `*` and `/`, grouped to the left. -/
def productOf (factor : Reader α) : Reader α := do
  iterate (fun v => do
    if ← eat "*" then return .inl (v * (← factor))
    else if ← eat "/" then return .inl (v / (← factor))
    else return .inr v) (← factor)

/-- The arguments of a call, after its opening parenthesis. -/
def arguments (expr : Reader α) : Reader (List α) := do
  if ← eat ")" then return []
  iterate (fun (args : List α) => do
    let args := (← expr) :: args
    if ← eat ")" then return .inr args.reverse
    expect ","
    return .inl args) []

/-- A parenthesis, a number, a name or a call. -/
def primary (scope : Scope α) (expr : Reader α) : Reader α := do
  skipBlanks
  match ← peek with
  | none => fail .expectedExpression
  | some c =>
    if c == 40 then
      let _ ← takeChar
      let v ← expr
      expect ")"
      return v
    else if isDigit c || c == 46 then number
    else if isNameStart c then
      let name ← identifier
      if ← eat "(" then ofExcept (scope.call name (← arguments expr))
      else ofExcept (scope.lookup name)
    else fail .expectedExpression

/-- A signed power, where `room` more may be nested. -/
def unary (scope : Scope α) : (room : Nat) → Reader α
  | 0 => fail .nestedTooDeeply
  | room + 1 => do
    if ← eat "-" then return -(← unary scope room)
    if ← eat "+" then unary scope room
    else
      let base ← primary scope (sumOf (productOf (unary scope room)))
      if ← eat "^" then return Scalar.pow base (← unary scope room)
      else return base

/-- The value of the expression at the cursor. -/
def sum (scope : Scope α) : Reader α := sumOf (productOf (unary scope maxDepth))

/-- The value of an expression, which has to be finite. -/
def real (scope : Scope α) : Reader α := do finite (← sum scope)

/-- The value of an expression, rounded to the nearest integer. -/
def integer (scope : Scope α) : Reader Int := do return Scalar.round (← real scope)

/-- The value of an expression as an index. -/
def index (scope : Scope α) : Reader Nat := do
  match ← integer scope with
  | .ofNat n => return n
  | v => fail (.badIndex v)

/-- The value of an expression with its closing parenthesis. -/
def realThenClose (scope : Scope α) : Reader α := do
  let v ← real scope
  expect ")"
  return v

end Mosaic.Expression
