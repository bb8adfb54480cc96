import Mosaic.Conversion.Classes
import Mosaic.Conversion.Complex
import Mosaic.Descent

/-!
# Conversion — analysis of a complex

The cells of a complex are examined in breadth-first order, pass after pass, until a pass
identifies nothing more. In a pass one cell of every class is examined; others only while a budget
for the whole analysis lasts.

* `Survey`: the state of an analysis; `Surveying` computations keep it when they fail.
* `Surveying.identify`: two walkers that have to look alike.
* `Surveying.examine`: what a cell says about classes.
* `Surveying.analyse`: all passes. Each of them but the last adds a class, merges two or narrows a
  period, and none of that can go on for ever.
-/

namespace Mosaic

/-- The state of an analysis: that of the complex, the classes, and how often classes have been
identified in this pass. -/
structure Survey (σ κ : Type) where
  source : σ
  classes : Classes κ
  changes : Nat

/-- A computation on the state of an analysis. -/
abbrev Surveying (α σ κ : Type) := EStateM (MapError α) (Survey σ κ)

/-- A cell and a direction in it. -/
structure Walker (κ : Type) where
  cell : κ
  spin : Nat
  deriving Repr

/-- The cells listed for examination. -/
structure Agenda (κ : Type) [BEq κ] [Hashable κ] where
  cells : Array κ
  listed : Std.HashSet κ

namespace Agenda

variable {κ : Type} [BEq κ] [Hashable κ]

/-- The agenda with a single cell. -/
def ofCell (c : κ) : Agenda κ := ⟨#[c], Std.HashSet.emptyWithCapacity.insert c⟩

/-- The agenda with one more cell, unless it is listed already. -/
def add (a : Agenda κ) (c : κ) : Agenda κ :=
  if a.listed.contains c then a else ⟨a.cells.push c, a.listed.insert c⟩

end Agenda

/-- Where a pass stands: the next cell, the targets analysed, the agenda and the budget. -/
structure Pass (κ : Type) [BEq κ] [Hashable κ] where
  next : Nat
  analysed : Std.HashSet Nat
  agenda : Agenda κ
  budget : Nat

namespace Surveying

variable {α σ κ : Type}

/-- A computation on the complex alone. -/
@[inline] def onSource {β : Type} (f : EStateM (MapError α) σ β) : Surveying α σ κ β :=
  fun ⟨source, classes, changes⟩ =>
    match f source with
    | .ok b source => .ok b ⟨source, classes, changes⟩
    | .error e source => .error e ⟨source, classes, changes⟩

variable (cx : CellComplex α σ κ)

/-- Number of edges of a cell. -/
def degree (c : κ) : Surveying α σ κ Nat := do return cx.degree (← get).source c

/-- The walker turned by a number of edges. -/
def turn (w : Walker κ) (d : Int) : Surveying α σ κ (Walker κ) := do
  return { w with spin := cyclicIndex (w.spin + d) (Nat.max (← degree cx w.cell) 1) }

/-- The walker on the other side of the edge it looks at, looking back. -/
def cross (w : Walker κ) : Surveying α σ κ (Walker κ) := do
  let (cell, spin) ← onSource (cx.step w.cell w.spin)
  return ⟨cell, spin⟩

/-- The record of the class of a cell; a class not met before is its own target. -/
def record (c : κ) : Surveying α σ κ (ClassRecord κ) := do
  let s ← get
  let k := cx.classOf s.source c
  match s.classes[k]? with
  | some r => return r
  | none =>
    let r := ⟨k, 0, Nat.max (cx.degree s.source c) 1, c⟩
    set { s with classes := s.classes.insert k r }
    return r

/-- Gives two walkers in cells of equal degree the same canonical form. -/
def identify (w₁ w₂ : Walker κ) : Surveying α σ κ Unit := do
  let r₁ ← record cx w₁.cell
  let r₂ ← record cx w₂.cell
  let n₁ ← degree cx w₁.cell
  let n₂ ← degree cx w₂.cell
  if n₁ ≠ n₂ then throw (.degreeMismatch n₁ n₂)
  modify fun s =>
    match s.classes.identify r₁ w₁.spin r₂ w₂.spin with
    | some classes => { s with classes, changes := s.changes + 1 }
    | none => s

/-- The walker of the sample of its class that has the same canonical form. -/
def toSample (w : Walker κ) : Surveying α σ κ (Walker κ) := do
  let r ← record cx w.cell
  turn cx ⟨r.sample, w.spin⟩ (-(r.shift : Int))

variable [BEq κ] [Hashable κ]

/-- Compares what lies across edge `j` of a cell with what lies across that edge of its sample and
of the cell turned by its period, and what lies beyond the neighbour with what lies beyond the
sample of the neighbour. Lists the neighbour. -/
def examineEdge (w sample : Walker κ) (agenda : Agenda κ) (j : Nat) :
    Surveying α σ κ (Agenda κ) := do
  let a ← cross cx (← turn cx w j)
  let b ← cross cx (← turn cx sample j)
  identify cx a b
  let period := (← record cx w.cell).period
  let b ← cross cx (← turn cx w (j + period))
  identify cx a b
  let other ← toSample cx a
  let p ← cross cx a
  let q ← cross cx other
  identify cx p q
  return agenda.add a.cell

/-- Compares a cell with the sample of its class, edge by edge. -/
def examine (c : κ) (r : ClassRecord κ) (agenda : Agenda κ) : Surveying α σ κ (Agenda κ) := do
  let w ← turn cx ⟨c, 0⟩ r.shift
  (List.range (← degree cx c)).foldlM (examineEdge cx w ⟨r.sample, 0⟩) agenda

/-- The next cell of a pass: examined if its target is not analysed yet or the budget allows,
otherwise passed over. Answers the agenda and the budget at the end of the pass. -/
def passStep (p : Pass κ) : Surveying α σ κ (Pass κ ⊕ (Agenda κ × Nat)) := do
  match p.agenda.cells[p.next]? with
  | none => return .inr (p.agenda, p.budget)
  | some c =>
    let r ← record cx c
    let p := { p with next := p.next + 1 }
    if p.analysed.contains r.target then
      if p.budget = 0 then return .inl p
      else return .inl { p with budget := p.budget - 1, agenda := ← examine cx c r p.agenda }
    else
      let p := { p with analysed := p.analysed.insert r.target }
      return .inl { p with agenda := ← examine cx c r p.agenda }

/-- One pass over all listed cells: it ends because targets, budget and listed cells run out. -/
def pass (agenda : Agenda κ) (budget : Nat) : Surveying α σ κ (Agenda κ × Nat) :=
  descend
    (fun p _ => (cx.classBound + 1 - p.analysed.size + p.budget, p.agenda.cells.size - p.next))
    (fun _ => .tooManyClasses cx.classBound) (passStep cx)
    ⟨0, Std.HashSet.emptyWithCapacity, agenda, budget⟩

/-- A pass, and whether there has to be another one. -/
def round (x : Agenda κ × Nat) : Surveying α σ κ ((Agenda κ × Nat) ⊕ Unit) := do
  modify ({ · with changes := 0 })
  let next ← pass cx x.1 x.2
  return if (← get).changes = 0 then .inr () else .inl next

/-- Passes until one of them identifies nothing. -/
def analyse (budget : Nat) : Surveying α σ κ Unit := do
  let start ← onSource cx.start
  descend
    (fun _ s => (cx.classBound + 1 - s.classes.size, s.classes.totalPeriod))
    (fun _ => .tooManyClasses cx.classBound) (round cx) (Agenda.ofCell start, budget)

end Surveying

end Mosaic
