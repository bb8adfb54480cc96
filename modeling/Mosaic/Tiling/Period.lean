import Mosaic.Tiling.Error

/-!
# Tiling — periods

The gluings of a shape repeat around it with a period. Periods are found by narrowing: two copies
of an edge that lead to edges a distance apart leave a common divisor of period and distance.

* `Refinement`: computations on the periods of all shapes that keep them when they fail.
* `Tiling.comparePeriodic`, `Tiling.compareBack`: what an edge says about the periods.
* `Tiling.refinePeriods`: narrows the periods until gluings respect them.
-/

namespace Mosaic

variable {α : Type}

/-- A computation on the periods of the shapes of a tiling. -/
abbrev Refinement (α : Type) := EStateM (Inconsistency α) (Array Nat)

namespace Tiling

/-- The period of shape `i`. -/
def periodAt (i : Nat) : Refinement α Nat := do return ((← get)[i]?).getD 0

/-- Narrows the period of shape `i` to the divisors of `d`. -/
def narrow (i : Nat) (d : Int) : Refinement α Unit :=
  modify fun periods => periods.modify i (reduceGcd · d)

/-- Compares the gluing of edge `k` of shape `i` with that of the edge one period before. -/
def comparePeriodic (t : Tiling α) (i k : Nat) : Refinement α Unit := do
  let s := t.shape i
  let c := s.connection k
  let before := s.connection (k - (← periodAt i))
  if c.shape ≠ before.shape then throw (.periodMismatch i k)
  narrow c.shape ((c.edge : Int) - before.edge)

/-- Compares edge `k` of shape `i` with the edge its partner is glued to. -/
def compareBack (t : Tiling α) (i k : Nat) : Refinement α Unit := do
  let c := (t.shape i).connection k
  let back := (t.shape c.shape).connection c.edge
  if back.shape ≠ i then throw (.asymmetric i k)
  narrow i ((k : Int) - back.edge)

/-- Compares all edges of shape `i`, those that have one a period before them first. -/
def refineShape (t : Tiling α) (i : Nat) : Refinement α Unit := do
  let n := (t.shape i).size
  let first ← periodAt i
  (List.range' first (n - first)).forM (t.comparePeriodic i)
  (List.range n).forM (t.compareBack i)

/-- One pass over all shapes; the sum of the periods it leaves. -/
def refinePass (t : Tiling α) : Refinement α Nat := do
  (List.range t.shapes.size).forM t.refineShape
  return (← get).foldl (· + ·) 0

/-- Passes until two in a row leave periods of the same sum, `fuel` at most. -/
def refineFrom (t : Tiling α) : (fuel : Nat) → (last : Option Nat) → Refinement α Unit
  | 0, _ => pure ()
  | fuel + 1, last => do
    let total ← t.refinePass
    if last = some total then return () else t.refineFrom fuel (some total)

/-- More than the number of times that periods of this tiling can be narrowed. -/
def refineBound (t : Tiling α) : Nat := t.shapes.foldl (fun n s => n + (s.size + 2)) 2

/-- Narrows the periods until a pass changes nothing. -/
def refinePeriods (t : Tiling α) : Refinement α Unit := t.refineFrom t.refineBound none

end Tiling

end Mosaic
