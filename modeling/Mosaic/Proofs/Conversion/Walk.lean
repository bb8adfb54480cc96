import Mathlib.Logic.Relation
import Mosaic.Conversion.Analysis
import Mosaic.Proofs.Cyclic

/-!
# Conversion — walks on a complex

Cells of a complex may come into being as they are reached, so what a walker finds depends on the
state it starts from.  In a lawful complex it does so only once: the degree and the class of a cell
that there is never change, and neither does what lies across an edge that has been crossed
(`CellComplex.Lawful`).

* `CellComplex.Stands`: the walker looks at an edge that there is.
* `CellComplex.Later`, `CellComplex.Reachable`: the states that walks lead to.
* `CellComplex.Crosses`: what lies across the edge of a walker, once that is settled.
* `CellComplex.walker`: the walker that looks in a direction, which may be any integer.
-/

namespace Mosaic.CellComplex

variable {α σ κ : Type} (cx : CellComplex α σ κ)

/-- The walker looks at an edge of a cell that there is. -/
def Stands (s : σ) (w : Walker κ) : Prop := w.spin < cx.degree s w.cell

/-- A step across an edge, which may change the state. -/
def Walked (s t : σ) : Prop := ∃ c e r, cx.step c e s = .ok r t

/-- The states that walks lead to. -/
def Later : σ → σ → Prop := Relation.ReflTransGen cx.Walked

/-- The states that are met by walks from the first cell. -/
def Reachable (s₀ s : σ) : Prop := ∃ c s₁, cx.start s₀ = .ok c s₁ ∧ cx.Later s₁ s

/-- What a conversion relies on: cells have edges, as many as their class tells, a step arrives at
an edge that there is, and walking on changes nothing of what has been found. -/
structure Lawful (s₀ : σ) : Prop where
  start_pos : ∀ {c s}, cx.start s₀ = .ok c s → 0 < cx.degree s c
  degree_eq : ∀ {s c c'}, cx.Reachable s₀ s → 0 < cx.degree s c → 0 < cx.degree s c' →
    cx.classOf s c = cx.classOf s c' → cx.degree s c = cx.degree s c'
  step_lt : ∀ {s t c e r}, cx.Reachable s₀ s → e < cx.degree s c → cx.step c e s = .ok r t →
    r.2 < cx.degree t r.1
  stable : ∀ {s t c}, cx.Reachable s₀ s → cx.Walked s t → 0 < cx.degree s c →
    cx.degree t c = cx.degree s c ∧ cx.classOf t c = cx.classOf s c
  settled : ∀ {s t u c e r}, cx.Reachable s₀ s → e < cx.degree s c → cx.step c e s = .ok r t →
    cx.Later t u → ∃ u', cx.step c e u = .ok r u'

/-- A step is undone by the step across the edge that it arrives at, now and later. -/
def Involutive (s₀ : σ) : Prop := ∀ {s t u c e r}, cx.Reachable s₀ s → e < cx.degree s c →
  cx.step c e s = .ok r t → cx.Later t u → ∃ u', cx.step r.1 r.2 u = .ok (c, e) u'

/-- Across the edge of `w` lies `v`, in this state and in every later one. -/
def Crosses (s : σ) (w v : Walker κ) : Prop :=
  cx.Stands s w ∧ cx.Stands s v ∧
    ∀ t, cx.Later s t → ∃ u, cx.step w.cell w.spin t = .ok (v.cell, v.spin) u

/-- The walker in a cell that looks in direction `z`. -/
def walker (s : σ) (c : κ) (z : Int) : Walker κ := ⟨c, cyclicIndex z (Nat.max (cx.degree s c) 1)⟩

/-- The walker turned by a number of edges. -/
def turned (s : σ) (w : Walker κ) (d : Int) : Walker κ := cx.walker s w.cell (w.spin + d)

variable {cx} {s₀ s t : σ} {c : κ} {w v : Walker κ}

/-! ### Later states -/

theorem Later.refl (s : σ) : cx.Later s s := Relation.ReflTransGen.refl

theorem Later.trans {u : σ} (h₁ : cx.Later s t) (h₂ : cx.Later t u) : cx.Later s u :=
  Relation.ReflTransGen.trans h₁ h₂

theorem Later.of_step {e : Nat} {r : κ × Nat} (h : cx.step c e s = .ok r t) : cx.Later s t :=
  Relation.ReflTransGen.single ⟨c, e, r, h⟩

/-- What is explored from a reachable state is reachable. -/
theorem Reachable.later (hs : cx.Reachable s₀ s) (h : cx.Later s t) : cx.Reachable s₀ t := by
  obtain ⟨c, s₁, hstart, hlater⟩ := hs
  exact ⟨c, s₁, hstart, hlater.trans h⟩

/-- A cell that is known keeps its degree and its class. -/
theorem Lawful.later_stable (hcx : cx.Lawful s₀) (hs : cx.Reachable s₀ s) (h : cx.Later s t)
    (hc : 0 < cx.degree s c) :
    cx.degree t c = cx.degree s c ∧ cx.classOf t c = cx.classOf s c := by
  induction h with
  | refl => exact ⟨rfl, rfl⟩
  | tail hst htu ih =>
      obtain ⟨hdegree, hclass⟩ := ih
      obtain ⟨hdegree', hclass'⟩ := hcx.stable (hs.later hst) htu (hdegree ▸ hc)
      exact ⟨hdegree'.trans hdegree, hclass'.trans hclass⟩

theorem Stands.pos (hw : cx.Stands s w) : 0 < cx.degree s w.cell := Nat.zero_lt_of_lt hw

/-- A walker goes on standing on its cell while the complex is explored. -/
theorem Stands.later (hcx : cx.Lawful s₀) (hs : cx.Reachable s₀ s) (h : cx.Later s t)
    (hw : cx.Stands s w) : cx.Stands t w := by
  rw [Stands, (hcx.later_stable hs h hw.pos).1]
  exact hw

/-! ### Crossing an edge -/

/-- An edge that has been crossed leads to the same place ever after. -/
theorem Crosses.later (hcx : cx.Lawful s₀) (hs : cx.Reachable s₀ s) (h : cx.Later s t)
    (hw : cx.Crosses s w v) : cx.Crosses t w v := by
  obtain ⟨hstand, hstand', hstep⟩ := hw
  exact ⟨hstand.later hcx hs h, hstand'.later hcx hs h, fun u hu => hstep u (h.trans hu)⟩

/-- An edge leads to one place only. -/
theorem Crosses.unique {v' : Walker κ} (h : cx.Crosses s w v) (h' : cx.Crosses s w v') :
    v = v' := by
  obtain ⟨u, hu⟩ := h.2.2 s (.refl s)
  obtain ⟨u', hu'⟩ := h'.2.2 s (.refl s)
  rw [hu] at hu'
  obtain ⟨c, i⟩ := v
  obtain ⟨c', i'⟩ := v'
  cases hu'
  rfl

/-- What lies across the edge of a walker has the walker across its own edge. -/
theorem Involutive.back {p : Walker κ} (hinv : cx.Involutive s₀) (hs : cx.Reachable s₀ s)
    (h : cx.Crosses s w v) (h' : cx.Crosses s v p) : p = w := by
  obtain ⟨u, hu⟩ := h.2.2 s (.refl s)
  have hlater := Later.of_step hu
  obtain ⟨u', hback⟩ := hinv hs h.1 hu (.refl u)
  obtain ⟨u'', hback'⟩ := h'.2.2 u hlater
  simp only at hback
  rw [hback] at hback'
  obtain ⟨c, i⟩ := p
  cases hback'
  rfl

/-- A step settles what lies across the edge. -/
theorem Crosses.of_step (hcx : cx.Lawful s₀) (hs : cx.Reachable s₀ s) (hw : cx.Stands s w)
    (h : cx.step w.cell w.spin s = .ok (v.cell, v.spin) t) : cx.Crosses t w v :=
  ⟨hw.later hcx hs (.of_step h), hcx.step_lt hs hw h, fun _ hu => hcx.settled hs hw h hu⟩

/-! ### Directions -/

@[simp] theorem walker_cell (s : σ) (c : κ) (z : Int) : (cx.walker s c z).cell = c := rfl

theorem max_degree (hc : 0 < cx.degree s c) : Nat.max (cx.degree s c) 1 = cx.degree s c :=
  Nat.max_eq_left hc

/-- A walker is put on an edge of its cell, whatever number the edge is given by. -/
theorem walker_stands (hc : 0 < cx.degree s c) (z : Int) : cx.Stands s (cx.walker s c z) := by
  rw [Stands, walker, max_degree hc]
  exact cyclicIndex_lt z hc

/-- Walkers look in the directions of the integers. -/
theorem Stands.eq_walker (hw : cx.Stands s w) : cx.walker s w.cell w.spin = w := by
  rw [walker, max_degree hw.pos, cyclicIndex_of_lt hw]

/-- The edge that a walker is put on has the number that is given, up to full turns. -/
theorem walker_spin_modEq (hc : 0 < cx.degree s c) (z : Int) :
    ((cx.walker s c z).spin : Int) ≡ z [ZMOD cx.degree s c] := by
  rw [walker, max_degree hc]
  exact cyclicIndex_modEq z hc

/-- Numbers that differ by full turns put a walker on the same edge. -/
theorem walker_congr (hc : 0 < cx.degree s c) {z z' : Int} (h : z ≡ z' [ZMOD cx.degree s c]) :
    cx.walker s c z = cx.walker s c z' := by
  rw [walker, walker, max_degree hc, (cyclicIndex_eq_iff hc).mpr h]

theorem turned_first (s : σ) (c : κ) (d : Int) : cx.turned s ⟨c, 0⟩ d = cx.walker s c d := by
  rw [turned, Nat.cast_zero, zero_add]

/-- Turns add up. -/
theorem turned_walker (hc : 0 < cx.degree s c) (z d : Int) :
    cx.turned s (cx.walker s c z) d = cx.walker s c (z + d) :=
  walker_congr hc ((walker_spin_modEq hc z).add_right d)

/-- Where a walker is put does not change while the complex is explored. -/
theorem walker_later (hcx : cx.Lawful s₀) (hs : cx.Reachable s₀ s) (h : cx.Later s t)
    (hc : 0 < cx.degree s c) (z : Int) : cx.walker t c z = cx.walker s c z := by
  rw [walker, (hcx.later_stable hs h hc).1, walker]

/-- Where a walker turns to does not change while the complex is explored. -/
theorem turned_later (hcx : cx.Lawful s₀) (hs : cx.Reachable s₀ s) (h : cx.Later s t)
    (hw : 0 < cx.degree s w.cell) (d : Int) : cx.turned t w d = cx.turned s w d :=
  walker_later hcx hs h hw _

end Mosaic.CellComplex
