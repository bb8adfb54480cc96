import Mosaic.Anchor.Lattice
import Mosaic.Proofs.Anchor.WordProblem

/-!
# Anchor — names of cells and neighbourhoods

Cells of the hyperbolic plane are named by words in a normal form, and one cell has one name
(`AnchorKey.IsName`, `cell_inj`).  A placement that is settled from a named cell gets a name
(`settle_isName`), and the cells around a named cell have names that all differ (`around_nodup`):
what leads from a cell to those that touch it are eleven different products of reflections, and
products differ by the same right factors wherever they start (`Equivalent.of_append_left`).
-/

namespace Mosaic

namespace Word

/-- Words that are equivalent after the same beginning are equivalent. -/
theorem Equivalent.of_append_left {u v w : Word} (h : Equivalent (u ++ v) (u ++ w)) :
    Equivalent v w := by
  induction u with
  | nil => exact h
  | cons c u ih =>
      have hcancel : ∀ x : Word, Equivalent (c :: c :: x) x := fun x => .of_move (.cancel [] x c)
      exact ih (((hcancel (u ++ v)).symm.trans (h.cons c)).trans (hcancel (u ++ w)))

theorem product_append (u g : Word) : (u ++ g).product = g.foldl push u.product :=
  List.foldl_append

/-- Reflections that start from a name end in a name once more. -/
theorem normalForm_foldl_push (u g : Word) :
    (g.foldl push u.product.normalForm).normalForm = (u ++ g).product.normalForm := by
  refine normalForm_eq_iff.mpr ?_
  have h := (shuffle_normalForm u.product).symm.reverse.foldl_reflect g
  rw [← reverse_foldl_push, ← reverse_foldl_push, ← product_append] at h
  simpa using h.reverse

/-- Equivalent words have products of one name. -/
theorem Equivalent.normalForm_eq {u v : Word} (h : Equivalent u v) :
    u.product.normalForm = v.product.normalForm :=
  normalForm_eq_iff.mpr (by simpa using h.shuffle.reverse)

/-- Words whose products have one name are equivalent. -/
theorem equivalent_of_normalForm_eq {u v : Word}
    (h : u.product.normalForm = v.product.normalForm) : Equivalent u v :=
  ((equivalent_product u).trans (normalForm_eq_iff.mp h).equivalent).trans
    (equivalent_product v).symm

end Word

/-- A cell of the hyperbolic plane is named by the least spelling of a reduced word. -/
def AnchorKey.IsName : AnchorKey → Prop
  | .cell w => ∃ u : Word, w = u.product.normalForm
  | _ => True

/-- One cell has one name. -/
theorem AnchorKey.IsName.cell_inj {v w : Word} (hv : (AnchorKey.cell v).IsName)
    (hw : (AnchorKey.cell w).IsName) : v = w ↔ Word.Equivalent v w := by
  obtain ⟨a, rfl⟩ := hv
  obtain ⟨b, rfl⟩ := hw
  have hspell : ∀ u : Word, Word.Equivalent u u.product.normalForm := fun u =>
    (Word.equivalent_product u).trans (Word.shuffle_normalForm _).equivalent
  constructor
  · rintro h
    exact h ▸ .refl _
  · intro h
    exact (((hspell a).trans h).trans (hspell b).symm).normalForm_eq

namespace Lattice

variable {α : Type} [Scalar α]

omit [Scalar α] in
theorem originKey_isName (l : Lattice α) : l.originKey.IsName := by
  unfold originKey
  split
  · trivial
  · exact ⟨[], rfl⟩
  · trivial

/-- Crossing sides of pentagons reflects in them. -/
theorem cross_fst (l : Lattice α) (fuel : Nat) (w : Word) (t : Motion α) :
    ∃ g : Word, (l.cross fuel w t).1 = g.foldl Word.push w := by
  induction fuel generalizing w t with
  | zero => exact ⟨[], rfl⟩
  | succ fuel ih =>
      unfold cross
      dsimp only
      split
      · obtain ⟨g, hg⟩ := ih (w.push (l.farthestSide (l.space.normalize t.originImage)).1)
          (l.mirrors.get (l.farthestSide (l.space.normalize t.originImage)).1 * t)
        exact ⟨_ :: g, hg⟩
      · exact ⟨[], rfl⟩

theorem settle_isName (l : Lattice α) {key : AnchorKey} (h : key.IsName) (t : Motion α) :
    (l.settle key t).key.IsName := by
  cases key with
  | grid x y => trivial
  | cell w =>
      obtain ⟨u, rfl⟩ := h
      obtain ⟨g, hg⟩ := l.cross_fst maxCrossings u.product.normalForm t
      refine ⟨u ++ g, ?_⟩
      rw [← Word.normalForm_foldl_push, ← hg]
      rfl
  | globe => trivial

/-! ### Neighbourhoods -/

/-- The cells around a cell are named by going on from its name. -/
theorem around_cell (l : Lattice α) (u : Word) :
    (l.around (.cell u.product.normalForm)).map Prod.fst =
      cellSteps.map fun g => .cell (u ++ g).product.normalForm := by
  simp only [around, List.map_map, Function.comp_def, Word.normalForm_foldl_push]

theorem around_isName (l : Lattice α) {key k : AnchorKey} (h : key.IsName)
    (hk : k ∈ (l.around key).map Prod.fst) : k.IsName := by
  cases key with
  | grid x y =>
      simp only [around, List.map_flatMap, List.map_map, List.mem_flatMap, List.mem_map] at hk
      obtain ⟨dx, -, dy, -, rfl⟩ := hk
      trivial
  | cell w =>
      obtain ⟨u, rfl⟩ := h
      rw [l.around_cell, List.mem_map] at hk
      obtain ⟨g, -, rfl⟩ := hk
      exact ⟨u ++ g, rfl⟩
  | globe =>
      obtain rfl := List.mem_singleton.mp hk
      trivial

/-- The ways from a cell to the cells that touch it lead to different cells. -/
theorem cellSteps_nodup : (cellSteps.map fun g => g.product.normalForm).Nodup := by decide

/-- The cells around a cell are all different. -/
theorem around_nodup (l : Lattice α) {key : AnchorKey} (h : key.IsName) :
    ((l.around key).map Prod.fst).Nodup := by
  cases key with
  | grid x y =>
      simp [around]
  | cell w =>
      obtain ⟨u, rfl⟩ := h
      rw [l.around_cell]
      refine List.Nodup.map_on (fun g hg g' hg' h => ?_) cellSteps_nodup.of_map
      refine List.inj_on_of_nodup_map cellSteps_nodup hg hg' ?_
      exact (Word.equivalent_of_normalForm_eq (AnchorKey.cell.inj h)).of_append_left.normalForm_eq
  | globe => exact List.nodup_singleton _

end Lattice

end Mosaic
