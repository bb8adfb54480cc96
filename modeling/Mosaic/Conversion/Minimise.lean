import Mosaic.Conversion.Analysis
import Mosaic.Conversion.Refinement

/-!
# Conversion — minimisation

Directions of analysed classes that cannot be told apart by the lengths around them, nor by those
around the directions that follow, are identified.

* `Address`: a direction of a class; they are numbered class by class.
* `Profile`: the degree, and the sides of the triangle of three corners that follow each other.
* `Surveying.minimise`: identifies the directions that are indistinguishable.
-/

namespace Mosaic

/-- A direction of a class, and the number of the direction that follows it around the class. -/
structure Address where
  master : Nat
  spin : Nat
  next : Nat
  deriving Repr

/-- The directions of a class of period `q`, numbered from `first` on. -/
def addressesOf (master q first : Nat) : List Address :=
  (List.range q).map fun j => ⟨master, j, if j + 1 = q then first else first + j + 1⟩

/-- The directions of all classes that are their own target. -/
def addresses {κ : Type} (cs : Classes κ) : Array Address :=
  cs.masters.foldl
    (fun out m => out ++ (addressesOf m (((cs[m]?).map (·.period)).getD 0) out.size).toArray) #[]

/-- What is compared of two directions. -/
structure Profile (α : Type) where
  degree : Nat
  sides : List α

/-- Equal degrees, and sides equal within the tolerance. -/
def Profile.agrees {α : Type} [Scalar α] (p q : Profile α) : Bool :=
  p.degree == q.degree && (p.sides.zip q.sides).all fun (a, b) => Scalar.approxEq a b

namespace Surveying

variable {α σ κ : Type} [Scalar α] (cx : CellComplex α σ κ)

/-- The profile of the direction `spin` of the class with a given record. -/
def profile (source : σ) (r : ClassRecord κ) (spin : Nat) : Profile α :=
  let space := cx.geometry.space
  let degree := cx.degree source r.sample
  let corner (s : Nat) := cx.corner source r.sample
    (cyclicIndex ((r.shift : Int) + spin + s) (Nat.max degree 1))
  let a := corner 0
  let b := corner 1
  let c := corner 2
  ⟨degree, [space.dist a b, space.dist b c, space.dist c a]⟩

/-- The profiles of a list of directions; one of an unknown class has none. -/
def profiles (addresses : Array Address) : Surveying α σ κ (Array (Option (Profile α))) := do
  let s ← get
  return addresses.map fun a => (s.classes[a.master]?).map fun r => profile cx s.source r a.spin

/-- The walker that stands for a direction at this point of the analysis. -/
def walkerAt (a : Address) : Surveying α σ κ (Option (Walker κ)) := do
  match (← get).classes[a.master]? with
  | none => return none
  | some r => return some (← turn cx ⟨r.sample, 0⟩ ((r.shift : Int) + a.spin))

/-- Identifies two directions. -/
def identifyAddresses (a b : Address) : Surveying α σ κ Unit := do
  match ← walkerAt cx a, ← walkerAt cx b with
  | some w₁, some w₂ => identify cx w₁ w₂
  | _, _ => return ()

/-- Identifies all directions that are indistinguishable. -/
def minimise : Surveying α σ κ Unit := do
  let addresses := addresses (← get).classes
  let profiles ← profiles cx addresses
  let k := addresses.size
  let agree (i j : Nat) : Bool :=
    match (profiles[i]?).join, (profiles[j]?).join with
    | some p, some q => p.agrees q
    | _, _ => false
  let next (i : Nat) : Nat := ((addresses[i]?).map (·.next)).getD 0
  let equal := EqualTable.settle k next (EqualTable.ofRelation k agree)
  (List.range k).forM fun i => (List.range k).forM fun j => do
    if i ≠ j && EqualTable.holds k equal i j then
      match addresses[i]?, addresses[j]? with
      | some a, some b => identifyAddresses cx a b
      | _, _ => return ()

end Surveying

end Mosaic
