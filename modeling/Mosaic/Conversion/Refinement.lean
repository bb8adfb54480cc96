/-!
# Conversion — partition refinement

Among `k` states, each with a successor, those are indistinguishable whose profiles compare as equal
and stay so along their successors. `EqualTable.settle` computes that relation from the comparison
of profiles, by sweeps over the table of all pairs that end when one of them changes nothing.
-/

namespace Mosaic

/-- A relation on the numbers below `k`, by rows. -/
abbrev EqualTable := Array Bool

namespace EqualTable

/-- The table of a relation. -/
def ofRelation (k : Nat) (r : Nat → Nat → Bool) : EqualTable :=
  Array.ofFn fun p : Fin (k * k) => r (p.val / k) (p.val % k)

/-- Whether `i` and `j` are related. -/
def holds (k : Nat) (t : EqualTable) (i j : Nat) : Bool := (t[i * k + j]?).getD false

/-- Keeps the pairs whose successors are related. -/
def sweep (k : Nat) (next : Nat → Nat) (t : EqualTable) : EqualTable :=
  ofRelation k fun i j => holds k t i j && holds k t (next i) (next j)

/-- Sweeps until nothing changes, `fuel` times at most. -/
def settleFrom (k : Nat) (next : Nat → Nat) : (fuel : Nat) → EqualTable → EqualTable
  | 0, t => t
  | fuel + 1, t =>
    let swept := sweep k next t
    if swept = t then t else settleFrom k next fuel swept

/-- The pairs that are related along all their successors; every sweep but the last loses a pair. -/
def settle (k : Nat) (next : Nat → Nat) (t : EqualTable) : EqualTable :=
  settleFrom k next (k * k + 1) t

end EqualTable

end Mosaic
