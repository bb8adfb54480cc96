import Mosaic.Proofs.Anchor.Canonical
import Mosaic.Scalar.Double

/-!
# Anchor — the frames of neighbouring cells

The frame of one cell seen from another is found in two ways: by undoing the reflections of the one
name and doing those of the other (`bridge`), and, for cells that touch, from a list of steps.  The
two meet: from a cell to one around it, the bridge is the step that leads there, up to swaps of
commuting letters (`bridge_step`).  Bridges lead where they should (`bridge_leads`) and back the
same way (`bridge_comm`), and steps are their own inverses, so cells touch each other or do not
(`mem_around_comm`).
-/

namespace Mosaic

namespace Word

/-! ### Undoing reflections -/

theorem Equivalent.append_left (u : Word) {v w : Word} (h : Equivalent v w) :
    Equivalent (u ++ v) (u ++ w) := by
  induction u with
  | nil => exact h
  | cons c u ih => exact ih.cons c

theorem Equivalent.append_right {v w : Word} (h : Equivalent v w) (u : Word) :
    Equivalent (v ++ u) (w ++ u) := by
  have hreverse := (h.reverse.append_left u.reverse).reverse
  simpa using hreverse

/-- Reflections after the same ones backwards are as if neither had been. -/
theorem equivalent_reverse_append (u w : Word) : Equivalent (u.reverse ++ (u ++ w)) w := by
  induction u with
  | nil => exact .refl w
  | cons c u ih =>
      have hmove : Equivalent (u.reverse ++ c :: c :: (u ++ w)) (u.reverse ++ (u ++ w)) :=
        .of_move (.cancel u.reverse (u ++ w) c)
      simpa using hmove.trans ih

theorem equivalent_append_reverse (u w : Word) : Equivalent (u ++ (u.reverse ++ w)) w := by
  simpa using equivalent_reverse_append u.reverse w

/-- Equivalent words have products that are shuffles of each other. -/
theorem Equivalent.shuffle_product {u v : Word} (h : Equivalent u v) :
    Shuffle u.product v.product := by
  simpa using h.shuffle.reverse

theorem Shortest.reverse {w : Word} (h : w.Shortest) : Shortest w.reverse := by
  intro v hv
  have hle := h v.reverse (by simpa using hv.reverse)
  simpa using hle

/-! ### Bridges -/

/-- The reflections that lead from the cell named `a` to the cell named `b`. -/
def bridge (a b : Word) : Word := product (a.reverse ++ b)

theorem equivalent_bridge (a b : Word) : Equivalent (a.reverse ++ b) (bridge a b) :=
  equivalent_product _

/-- A bridge leads to the other cell. -/
theorem bridge_leads (a : Word) {b : Word} (hb : b.Shortest) :
    (a ++ bridge a b).product.normalForm = b.normalForm := by
  have h : Equivalent (a ++ bridge a b) b :=
    ((equivalent_bridge a b).symm.append_left a).trans (equivalent_append_reverse a b)
  rw [h.normalForm_eq, hb.product_eq]

/-- The bridge back is the same read backwards. -/
theorem bridge_comm (a b : Word) : Shuffle (bridge b a) (bridge a b).reverse := by
  have h : Equivalent (b.reverse ++ a) (bridge a b).reverse := by
    simpa using (equivalent_bridge a b).reverse
  have hshortest : Shortest (bridge a b).reverse := (product_shortest _).reverse
  have hshuffle := h.shuffle_product
  rwa [hshortest.product_eq] at hshuffle

/-- A bridge to a cell that a shortest word leads to is that word. -/
theorem bridge_of_equivalent {a b g : Word} (hg : g.Shortest) (h : Equivalent (a ++ g) b) :
    Shuffle (bridge a b) g := by
  have hbridge : Equivalent (a.reverse ++ b) g :=
    (h.symm.append_left a.reverse).trans (equivalent_reverse_append a g)
  have hshuffle := hbridge.shuffle_product
  rwa [hg.product_eq] at hshuffle

end Word

namespace Lattice

open Word

variable {α : Type} [Scalar α]

/-! ### Steps between cells that touch -/

theorem between_cell (l : Lattice α) (a b : Word) :
    l.between (.cell a) (.cell b) = some (l.wordMotion (bridge a b)) := rfl

theorem length_le_two_of_mem_cellSteps : ∀ g ∈ cellSteps, g.length ≤ 2 := by decide

theorem product_of_mem_cellSteps : ∀ g ∈ cellSteps, g.product = g := by decide

theorem shortest_of_mem_cellSteps {g : Word} (hg : g ∈ cellSteps) : g.Shortest :=
  product_of_mem_cellSteps g hg ▸ product_shortest g

/-- The sides that meet at a corner commute, so a step leads back as well. -/
theorem reverse_of_mem_cellSteps : ∀ g ∈ cellSteps, normalForm g.reverse = normalForm g := by
  decide

/-- A step leads to the cell of its name. -/
theorem equivalent_step {a : Word} (ha : a.Canonical) (g : Word) :
    Equivalent (a ++ g) (g.foldl push a).normalForm := by
  have hproduct : (a ++ g).product = g.foldl push a := by
    rw [product_append, ha.shortest.product_eq]
  rw [← hproduct]
  exact (equivalent_product _).trans (shuffle_normalForm _).equivalent

/-- The bridge to a cell that a step leads to is that step. -/
theorem bridge_step {a g : Word} (ha : a.Canonical) (hg : g ∈ cellSteps) :
    Shuffle (bridge a (g.foldl push a).normalForm) g :=
  bridge_of_equivalent (shortest_of_mem_cellSteps hg) (equivalent_step ha g)

/-- A cell touches those to which steps lead. -/
theorem mem_around_iff (l : Lattice α) {a b : Word} (ha : a.Canonical) (hb : b.Canonical) :
    .cell b ∈ (l.around (.cell a)).map Prod.fst ↔ ∃ g ∈ cellSteps, Equivalent (a ++ g) b := by
  simp only [around, List.map_map, List.mem_map, Function.comp_apply, AnchorKey.cell.injEq]
  refine exists_congr fun g => and_congr_right fun _ => ?_
  constructor
  · rintro rfl
    exact equivalent_step ha g
  · intro h
    have hname := canonical_iff_isName.mp (ha.reflected g)
    exact (hname.cell_inj (canonical_iff_isName.mp hb)).mpr ((equivalent_step ha g).symm.trans h)

/-- Of two cells each touches the other or neither does. -/
theorem mem_around_comm (l : Lattice α) {a b : Word} (ha : a.Canonical) (hb : b.Canonical) :
    .cell b ∈ (l.around (.cell a)).map Prod.fst ↔
      .cell a ∈ (l.around (.cell b)).map Prod.fst := by
  have hback {a b : Word} : (∃ g ∈ cellSteps, Equivalent (a ++ g) b) →
      ∃ g ∈ cellSteps, Equivalent (b ++ g) a := by
    rintro ⟨g, hg, h⟩
    refine ⟨g, hg, ?_⟩
    have hreverse : Equivalent g.reverse g :=
      (normalForm_eq_iff.mp (reverse_of_mem_cellSteps g hg)).equivalent
    have hundo : Equivalent (g ++ g) [] := by
      have h := equivalent_reverse_append g []
      rw [List.append_nil] at h
      exact (hreverse.symm.append_right g).trans h
    have hboth : Equivalent (a ++ (g ++ g)) (a ++ []) := hundo.append_left a
    rw [← List.append_assoc, List.append_nil] at hboth
    exact (h.symm.append_right g).trans hboth
  rw [l.mem_around_iff ha hb, l.mem_around_iff hb ha]
  exact ⟨hback, hback⟩

theorem length_around (l : Lattice α) (a : Word) : (l.around (.cell a)).length = 11 := by
  rw [around, List.length_map]
  rfl

theorem self_mem_around (l : Lattice α) {a : Word} (ha : a.Canonical) :
    .cell a ∈ (l.around (.cell a)).map Prod.fst :=
  (l.mem_around_iff ha ha).mpr ⟨[], List.mem_cons_self, by rw [List.append_nil]; exact .refl a⟩

/-- **Neighbourhoods and relative frames agree.**  The motion between two cells is that of a word
that leads from the one name to the other, and the word of the motion back is the same read
backwards.  Eleven different cells touch a cell, itself among them, and are touched by it; and the
motion that is listed with each of them is that of a step of two letters at most, which is the word
of the motion between the two. -/
theorem frames_agree (l : Lattice α) {a b : Word} (ha : a.Shortest) (hb : b.Shortest) :
    l.between (.cell a) (.cell b) = some (l.wordMotion (bridge a b)) ∧
    (a ++ bridge a b).product.normalForm = b.normalForm ∧
    Shuffle (bridge b a) (bridge a b).reverse ∧
    (a.normalForm = a →
      (l.around (.cell a)).length = 11 ∧ ((l.around (.cell a)).map Prod.fst).Nodup ∧
      .cell a ∈ (l.around (.cell a)).map Prod.fst ∧
      (b.normalForm = b → (.cell b ∈ (l.around (.cell a)).map Prod.fst ↔
        .cell a ∈ (l.around (.cell b)).map Prod.fst)) ∧
      l.around (.cell a) =
        cellSteps.map (fun g => (.cell (g.foldl push a).normalForm, l.wordMotion g)) ∧
      ∀ g ∈ cellSteps, g.length ≤ 2 ∧
        Shuffle (bridge a (g.foldl push a).normalForm) g) := by
  refine ⟨l.between_cell a b, bridge_leads a hb, bridge_comm a b, fun hspelled => ?_⟩
  have ha' : a.Canonical := ⟨ha, hspelled⟩
  refine ⟨l.length_around a, l.around_nodup (canonical_iff_isName.mp ha'), l.self_mem_around ha',
    fun hb' => l.mem_around_comm ha' ⟨hb, hb'⟩, rfl,
    fun g hg => ⟨length_le_two_of_mem_cellSteps g hg, bridge_step ha' hg⟩⟩

/-- From the cell `02` to the cell `01` across the corner of the sides `1` and `2`, where a letter of
the name is lost on the way. -/
theorem frames_agree_across_corner : Shortest [0, 2] ∧ Shortest [0, 1] ∧
    ∃ l : Lattice Float, (.cell [0, 1], l.wordMotion [1, 2]) ∈ l.around (.cell [0, 2]) ∧
      .cell [0, 2] ∈ (l.around (.cell [0, 1])).map Prod.fst ∧
      l.between (.cell [0, 2]) (.cell [0, 1]) = some (l.wordMotion [2, 1]) ∧
      Shuffle [2, 1] [1, 2] := by
  have ha : Canonical [0, 2] := product_canonical [0, 2]
  have hb : Canonical [0, 1] := product_canonical [0, 1]
  let l : Lattice Float := ofSpace .hyperbolic
  obtain ⟨hbetween, -, -, haround⟩ := frames_agree l ha.shortest hb.shortest
  obtain ⟨-, -, -, hcomm, hsteps, hstep⟩ := haround ha.spelled
  have hmem : (.cell [0, 1], l.wordMotion [1, 2]) ∈ l.around (.cell [0, 2]) := by
    rw [hsteps]
    exact List.mem_map.mpr ⟨[1, 2], by decide, rfl⟩
  exact ⟨ha.shortest, hb.shortest, l, hmem, (hcomm hb.spelled).mp (List.mem_map_of_mem hmem),
    hbetween, (hstep [1, 2] (by decide)).2⟩

end Lattice

end Mosaic
