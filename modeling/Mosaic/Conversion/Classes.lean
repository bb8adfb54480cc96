import Mosaic.Cyclic
import Std.Data.TreeMap

/-!
# Conversion — identification of classes

The classes of cells met so far, each with the class it has been identified with. A walker, that is
a cell and a direction, has as canonical form the target of its class and its direction, turned by
the shift of the class and reduced modulo the period of the target.

* `ClassRecord`, `Classes`: what is known of a class, and of all classes.
* `Classes.merge`, `Classes.narrow`: the two ways in which classes come to be identified.
* `Classes.identify`: gives two walkers the same canonical form.
-/

namespace Mosaic

/-- What is known of a class: turned by `shift`, its cells look like the cell `sample` of the class
`target`, and that class looks the same when turned by `period`. -/
structure ClassRecord (κ : Type) where
  target : Nat
  shift : Nat
  period : Nat
  sample : κ
  deriving Repr

/-- The direction `spin` of a cell of the class, turned by the shift and reduced. -/
def ClassRecord.residue {κ : Type} (r : ClassRecord κ) (spin : Nat) : Nat :=
  cyclicIndex ((spin : Int) - r.shift) r.period

/-- The classes met so far. -/
abbrev Classes (κ : Type) := Std.TreeMap Nat (ClassRecord κ)

namespace Classes

variable {κ : Type}

/-- The classes that are their own target, ascending. -/
def masters (cs : Classes κ) : List Nat :=
  cs.toList.filterMap fun (k, r) => if k = r.target then some k else none

/-- Sum of the periods of the classes that are their own target. -/
def totalPeriod (cs : Classes κ) : Nat :=
  cs.foldl (fun n k r => if k = r.target then n + r.period else n) 0

/-- Identifies the target of `r₂` with that of `r₁`, where the residue `d₂` of the one corresponds
to `d₁` of the other. -/
def merge (cs : Classes κ) (r₁ r₂ : ClassRecord κ) (d₁ d₂ : Nat) : Classes κ :=
  let period := Nat.gcd r₁.period r₂.period
  cs.map fun _ r =>
    if r.target = r₂.target then
      ⟨r₁.target, cyclicIndex ((r.shift : Int) + d₂ - d₁) period, period, r₁.sample⟩
    else if r.target = r₁.target then { r with shift := cyclicIndex r.shift period, period }
    else r

/-- Identifies the directions of a target that are `d` apart. -/
def narrow (cs : Classes κ) (target period : Nat) (d : Int) : Classes κ :=
  let period := reduceGcd period d
  cs.map fun _ r =>
    if r.target = target then { r with shift := cyclicIndex r.shift period, period } else r

/-- Gives the direction `s₁` of the class `r₁` and the direction `s₂` of `r₂` the same canonical
form; none if they have it already. -/
def identify (cs : Classes κ) (r₁ : ClassRecord κ) (s₁ : Nat) (r₂ : ClassRecord κ) (s₂ : Nat) :
    Option (Classes κ) :=
  let d₁ := r₁.residue s₁
  let d₂ := r₂.residue s₂
  if r₁.target ≠ r₂.target then some (cs.merge r₁ r₂ d₁ d₂)
  else if d₁ ≠ d₂ then some (cs.narrow r₂.target r₂.period ((d₂ : Int) - d₁))
  else none

end Classes

end Mosaic
