import Mosaic.Proofs.Anchor.Canonical
import Mosaic.Proofs.Atlas.Filing

/-!
# Atlas — the names of its cells

In an atlas of the hyperbolic plane every tile lies in a cell that is named by a canonical word
(`Celled`).  The first tile is settled in its cell from the central one, whose name has no letters,
and every other from the cell of a neighbour; settling keeps names canonical whatever sides it
crosses, so runs do (`after_celled`).
-/

namespace Mosaic.Atlas

variable {α : Type} [Scalar α] {m : Atlas α}

/-- Every tile has a place in a cell with a canonical name. -/
structure Celled (m : Atlas α) : Prop where
  hyperbolic : m.tiling.geometry = .hyperbolic
  housed : m.places.size = m.nodes.size
  cells : ∀ p ∈ m.places, p.key.IsCell

theorem Celled.place_isCell (h : Celled m) {id : Nat} (hid : id < m.nodes.size) :
    (m.place id).key.IsCell := by
  have hid' : id < m.places.size := h.housed ▸ hid
  rw [place, Array.getElem?_eq_getElem hid', Option.getD_some]
  exact h.cells _ (Array.getElem_mem hid')

omit [Scalar α] in
theorem Celled.insert (h : Celled m) (n : Node) {p : Placement α} (hp : p.key.IsCell) :
    Celled (m.insert n p) where
  hyperbolic := h.hyperbolic
  housed := by
    change (m.places.push p).size = (m.nodes.push n).size
    rw [Array.size_push, Array.size_push, h.housed]
  cells q hq := by
    rcases Array.mem_push.mp hq with hq | rfl
    · exact h.cells q hq
    · exact hp

omit [Scalar α] in
theorem Celled.link (h : Celled m) (a e b f : Nat) (mirror : Bool) :
    Celled (m.link a e b f mirror) :=
  ⟨h.hyperbolic, by simpa [Atlas.link] using h.housed, h.cells⟩

/-- A tile that is placed has been settled in its cell from the cell of its neighbour. -/
theorem Celled.isCell_of_placedFrom (h : Celled m) {id : Nat} (hid : id < m.nodes.size)
    {place : Placement α} (hplace : m.PlacedFrom id place) : place.key.IsCell := by
  cases hplace with
  | absolute haffine t =>
      rw [isAffine, h.hyperbolic] at haffine
      cases haffine
  | settled _ t => exact m.lattice.settle_isCell (h.place_isCell hid) t

/-- What a run keeps. -/
theorem after_celled (h : Celled m) (calls : List Call) : Celled (m.after calls) :=
  after_rule (fun _ a e b f mirror h => h.link a e b f mirror)
    (fun _ _ n _ hid hplace h => h.insert n (h.isCell_of_placedFrom hid hplace)) h calls

/-- The first tile is settled in its cell from the central one. -/
theorem ofTiling_celled {t : Tiling α} (ht : t.geometry = .hyperbolic)
    (h : ofTiling t = .ok m) : Celled m := by
  obtain ⟨first, -, rfl⟩ := ofTiling_ok h
  have hempty : Celled (empty t) := ⟨ht, rfl, fun p hp => absurd hp (Array.not_mem_empty p)⟩
  refine hempty.insert _ ?_
  have horigin : (empty t).lattice.originKey = .cell [] := by
    rw [empty, Tiling.space, ht]
    rfl
  rw [originPlace, if_neg (by rw [ht]; exact Bool.false_ne_true), horigin]
  exact Lattice.settle_isCell _ (AnchorKey.isCell_cell.mpr (Word.product_canonical [])) _

open Word

/-- **Names of cells stay reduced and canonical.**  A product of reflections is a shortest word for
them, and a normal form is the least spelling that swaps of commuting letters lead to.  So what is
named by a shortest word in its normal form stays so: by reflections in any sides one after another,
by settling a placement, and by going to a cell around; and to cross a side twice is to come back.
Every place in an atlas of the hyperbolic plane therefore has such a name, whatever calls have been
made. -/
theorem names_canonical :
    (∀ w : Word, (Equivalent w w.product ∧ w.product.Shortest) ∧
      Shuffle w w.normalForm ∧ ∀ v, Shuffle w v → AtMost w.normalForm v) ∧
    (∀ w : Word, w.Shortest → w.normalForm = w →
      (∀ g : Word, (g.foldl push w).normalForm.Canonical) ∧
      (∀ s, ((w.push s).push s).normalForm = w ∧
        ((w.push s).normalForm.push s).normalForm = w) ∧
      ∀ l : Lattice α,
        (∀ t, ∃ v, (l.settle (.cell w) t).key = .cell v ∧ v.Canonical) ∧
        ∀ x ∈ l.around (.cell w), ∃ v, x.1 = .cell v ∧ v.Canonical) ∧
    ∀ (t : Tiling α) (m₀ : Atlas α), t.geometry = .hyperbolic → ofTiling t = .ok m₀ →
      ∀ calls, let m := m₀.after calls
        m.places.size = m.size ∧ ∀ p ∈ m.places, ∃ v, p.key = .cell v ∧ v.Canonical := by
  have hcell {key : AnchorKey} (h : key.IsCell) : ∃ v, key = .cell v ∧ v.Canonical := by
    cases key with
    | cell v => exact ⟨v, rfl, h⟩
    | grid x y => exact h.elim
    | globe => exact h.elim
  refine ⟨fun w => ⟨⟨equivalent_product w, product_shortest w⟩, shuffle_normalForm w,
    fun v => normalForm_atMost⟩, fun w hshortest hspelled => ?_, fun t m₀ ht h₀ calls => ?_⟩
  · have hw : w.Canonical := ⟨hshortest, hspelled⟩
    have hkey : (AnchorKey.cell w).IsCell := AnchorKey.isCell_cell.mpr hw
    exact ⟨hw.reflected, fun s => ⟨hw.push_push s, hw.push_normalForm_push s⟩, fun l =>
      ⟨fun t => hcell (l.settle_isCell hkey t), fun x hx => hcell (l.around_isCell hkey hx)⟩⟩
  · have h := after_celled (ofTiling_celled ht h₀) calls
    exact ⟨h.housed, fun p hp => hcell (h.cells p hp)⟩

/-- The cell `20`, whose name loses a letter when side `0` is crossed and gets it back, and the
cells of the triangle of `kite` and of what is placed beside it. -/
theorem names_canonical_kite :
    Shortest [2, 0] ∧ push [2, 0] 0 = [2] ∧ (push (push [2, 0] 0) 0).normalForm = [2, 0] ∧
    (∀ v, Shuffle [2, 0, 1] v → AtMost [1, 2, 0] v) ∧
    ∃ m₀ : Atlas Float, ofTiling { kite with geometry := .hyperbolic } = .ok m₀ ∧
      ∀ calls, ∀ p ∈ (m₀.after calls).places, ∃ v, p.key = .cell v ∧ v.Canonical := by
  obtain ⟨hwords, hkeys, hatlas⟩ := names_canonical (α := Float)
  have hshortest : Shortest [2, 0] := (hwords [2, 0]).1.2
  obtain ⟨m₀, h₀⟩ : ∃ m₀, ofTiling { kite with geometry := .hyperbolic } = .ok m₀ := ⟨_, rfl⟩
  obtain ⟨-, hcross, -⟩ := hkeys [2, 0] hshortest (by decide)
  exact ⟨hshortest, by decide, (hcross 0).1, (hwords [2, 0, 1]).2.2, m₀, h₀,
    fun calls p hp => (hatlas _ m₀ rfl h₀ calls).2 p hp⟩

end Mosaic.Atlas
