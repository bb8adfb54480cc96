import Mosaic.Scalar.Tolerance
import Mosaic.Tiling.Period

/-!
# Tiling — valences

The corners around a vertex make a full turn after a number of them, its valence. A walk around a
vertex may show that the period of its shape is too long; then periods are narrowed once more.

* `foldAngle`: an angle reduced to a single turn.
* `Tiling.walkVertex`: the corners around one vertex.
* `Tiling.analyseValence`: periods, and valences unless the tiling is affine or a star. The tiling
  it leaves is answered also when it fails.
-/

namespace Mosaic

variable {α : Type}

/-- The longest walk around a vertex. -/
def maxWalk : Nat := 100000

section Walk

variable [Scalar α]

/-- Applies `f` to `a` while `p` holds; none when `p` still holds after `fuel` times. -/
@[specialize] def applyWhile (p : α → Bool) (f : α → α) : (fuel : Nat) → α → Option α
  | 0, _ => none
  | fuel + 1, a => if p a then applyWhile p f fuel (f a) else some a

/-- How many turns are added to an angle or taken from it at most. -/
def maxTurns : Nat := 4611686018427387904

/-- The angle reduced to a single turn, by adding turns while it is negative and taking turns from
it while it is more than one; none if neither ends. -/
def foldAngle (a : α) : Option α :=
  let zero : α := 0
  let turn : α := Scalar.tau
  (applyWhile (· < zero) (· + turn) maxTurns a).bind
    (applyWhile (turn < ·) (· - turn) maxTurns)

/-- A walk around a vertex: the corner it has come to, the angle covered, the angles met, and the
number of corners since it last came to a copy of its start. -/
structure VertexWalk (α : Type) where
  place : Connection
  total : α
  angles : Array α
  since : Nat

namespace Tiling

/-- Goes on with a walk around vertex `k` of shape `i`, for `fuel` more corners: until a full turn
is covered, or at a copy of its start if it covered no angle at all. -/
def continueWalk (t : Tiling α) (periods : Array Nat) (i k : Nat) :
    (fuel : Nat) → VertexWalk α → Except (Inconsistency α) (VertexWalk α)
  | 0, w => .ok w
  | fuel + 1, w =>
    let s := t.shape w.place.shape
    let atStart := w.place.shape == i
      && congruent w.place.edge k ((periods[w.place.shape]?).getD 0)
    let since := if atStart then 0 else w.since
    if w.angles.size ≠ 0 ∧ since = 0 ∧ w.total == 0 then .ok { w with since }
    else
      match foldAngle ((s.angles[w.place.edge]?).getD 0) with
      | none => .error (.endlessAngle i k)
      | some a =>
        let w : VertexWalk α :=
          { place := s.connection ((w.place.edge + 1) % s.angles.size)
            total := w.total + a
            angles := w.angles.push a
            since := since + 1 }
        if Scalar.tau - 1e-6 ≤ w.total then .ok w else continueWalk t periods i k fuel w

/-- The walk around vertex `k` of shape `i`. -/
def walkVertex (t : Tiling α) (periods : Array Nat) (i k : Nat) :
    Except (Inconsistency α) (VertexWalk α) := do
  let w ← t.continueWalk periods i k (maxWalk + 1) ⟨⟨i, k, false⟩, 0, #[], 0⟩
  if Scalar.tau + 1e-6 < w.total ∨ maxWalk < w.angles.size then
    throw (.improperTotal i k w.total)
  if w.place.shape ≠ i then throw (.wrongShape i k)
  return w

/-- What the walks around the vertices of a shape yield: the walks, or a distance that the period
of the shape does not divide. -/
inductive ShapeWalks (α : Type) where
  | complete (walks : Array (VertexWalk α))
  | narrowed (distance : Int)

/-- The walks around the vertices of shape `i` from `k` on, appended to `done`. -/
def walkShapeFrom (t : Tiling α) (periods : Array Nat) (i : Nat) :
    List Nat → Array (VertexWalk α) → Except (Inconsistency α) (ShapeWalks α)
  | [], done => .ok (.complete done)
  | k :: rest, done => do
    let w ← t.walkVertex periods i k
    if congruent w.place.edge k ((periods[i]?).getD 0) then
      walkShapeFrom t periods i rest (done.push w)
    else return .narrowed ((w.place.edge : Int) - k)

end Tiling

/-- The shape with the valences that walks around its vertices found. A vertex around which no
angle was covered lies at infinity. -/
def Shape.withWalks (s : Shape α) (walks : Array (VertexWalk α)) : Shape α :=
  { s with
    valences := walks.map fun w =>
      if w.total == 0 then .unbounded else .finite w.angles.size
    vertexPeriods := walks.map (·.since)
    vertexAngles := walks.map (·.angles) }

namespace Tiling

/-- The tiling with given periods of its shapes. -/
def withPeriods (t : Tiling α) (periods : Array Nat) : Tiling α :=
  { t with shapes := t.shapes.mapIdx fun i s => { s with period := (periods[i]?).getD s.period } }

/-- An analysis that leaves what it has found in the tiling, also when it fails. -/
abbrev Analysis (α : Type) := EStateM (Inconsistency α) (Tiling α)

/-- Walks around the vertices of the shapes listed and stores their valences; stops at a shape
whose period does not divide a distance found, and answers both. -/
def walkShapes (t : Tiling α) (periods : Array Nat) : List Nat → Analysis α (Option (Nat × Int))
  | [] => return none
  | i :: rest => do
    match t.walkShapeFrom periods i (List.range (t.shape i).size) #[] with
    | .error e => throw e
    | .ok (.narrowed d) => return some (i, d)
    | .ok (.complete walks) =>
      modify (·.modifyShape i (·.withWalks walks))
      walkShapes t periods rest

/-- Narrows the periods and walks around the vertices, and begins again with a narrower period
when a walk asks for it, `fuel` times at most. -/
def settleValence (t : Tiling α) : (fuel : Nat) → (periods : Array Nat) → Analysis α Unit
  | 0, _ => pure ()
  | fuel + 1, periods => do
    match t.refinePeriods.run periods with
    | .error e periods =>
      modify (·.withPeriods periods)
      throw e
    | .ok () periods =>
      modify (·.withPeriods periods)
      if t.geometry.isAffine || t.isStar then return ()
      modify ({ · with haveValence := true })
      match ← t.walkShapes periods (List.range t.shapes.size) with
      | none => return ()
      | some (i, d) =>
        let periods := periods.modify i (reduceGcd · d)
        modify (·.withPeriods periods)
        settleValence t fuel periods

/-- All valences of the catalogue. -/
def allValences (t : Tiling α) : List Valence := t.shapes.toList.flatMap (·.valences.toList)

/-- The tiling with the least and the greatest of its valences. -/
def withExtremes (t : Tiling α) : Tiling α :=
  let least (a b : Valence) : Valence := if a.le b then a else b
  let greatest (a b : Valence) : Valence := if a.le b then b else a
  let fold (f : Valence → Valence → Valence) : List Valence → Option Valence
    | [] => none
    | v :: vs => some (vs.foldl f v)
  { t with minValence := fold least t.allValences, maxValence := fold greatest t.allValences }

/-- Finds the periods of all shapes and, unless the tiling is affine or a star, the valence, period
and angles of every vertex. -/
def analyseValence : Analysis α Unit := do
  let t ← get
  let periods := t.shapes.map (·.stride)
  modify (·.withPeriods periods)
  t.settleValence t.refineBound periods
  unless t.geometry.isAffine || t.isStar do modify withExtremes

end Tiling

end Walk

end Mosaic
