import Mosaic.Proofs.Anchor.Around

/-!
# Anchor — shortest words and least spellings

Names of cells are canonical in two ways.  A product of reflections is a shortest word for them
(`Shortest`): taking a letter in lengthens a word by one at most, equivalent words have products of
one length (`product_shortest`), and a shortest word loses no letter, so it is its own product
(`Shortest.product_eq`).  And a normal form is the least of all spellings that swaps of commuting
letters lead to (`normalForm_atMost`), because it takes the least letter that can come next every
time.

A word is the name of a cell exactly when it is shortest and its own normal form
(`canonical_iff_isName`).  Reflections keep names canonical, however many sides they cross
(`Canonical.reflected`), and to cross one side twice is to come back (`Canonical.push_push`).
-/

namespace Mosaic

namespace Word

/-- No word for the same reflections has fewer letters. -/
def Shortest (w : Word) : Prop := ∀ v : Word, Equivalent w v → w.length ≤ v.length

/-- A shortest word in its normal form. -/
structure Canonical (w : Word) : Prop where
  shortest : w.Shortest
  spelled : w.normalForm = w

/-! ### Shortest words -/

/-- One more reflection adds a letter or takes one away. -/
theorem push_cases (w : Word) (s : Side) :
    w.push s = w ++ [s] ∨ (w.push s).length + 1 = w.length := by
  by_cases hs : Leads s w.reverse
  · right
    have hlength := congrArg List.length (reverse_push w s)
    rw [reflect_of_leads hs, List.length_reverse, List.length_erase_of_mem hs.mem,
      List.length_reverse] at hlength
    have hpos : 0 < w.length := by
      rw [← List.length_reverse]
      exact List.length_pos_of_mem hs.mem
    omega
  · left
    have h := congrArg List.reverse (reverse_push w s)
    rwa [reflect_of_not_leads hs, List.reverse_reverse, List.reverse_cons, List.reverse_reverse] at h

theorem length_foldl_push_le (g w : Word) : (g.foldl push w).length ≤ w.length + g.length := by
  induction g generalizing w with
  | nil => exact Nat.le_refl _
  | cons s g ih =>
      have hpush := ih (w.push s)
      rw [List.foldl_cons, List.length_cons]
      rcases push_cases w s with h | h
      · rw [h, List.length_append, List.length_singleton] at hpush
        rw [h]
        omega
      · omega

/-- Reflections that lose no letter only add theirs. -/
theorem foldl_push_eq_append {g w : Word} (h : (g.foldl push w).length = w.length + g.length) :
    g.foldl push w = w ++ g := by
  induction g generalizing w with
  | nil => exact (List.append_nil w).symm
  | cons s g ih =>
      rw [List.foldl_cons, List.length_cons] at h
      rcases push_cases w s with hpush | hpush
      · rw [List.foldl_cons, hpush]
        rw [hpush] at h
        rw [ih (by rw [h, List.length_append, List.length_singleton]; omega), List.append_assoc]
        rfl
      · have hle := length_foldl_push_le g (w.push s)
        omega

theorem length_product_le (w : Word) : w.product.length ≤ w.length := by
  simpa [product] using length_foldl_push_le w []

/-- A product is a shortest word. -/
theorem product_shortest (w : Word) : w.product.Shortest := by
  intro v hv
  have h : Equivalent w v := (equivalent_product w).trans hv
  have hlength := h.shuffle.length_eq
  rw [List.length_reverse, List.length_reverse] at hlength
  exact hlength.symm ▸ length_product_le v

/-- A shortest word is its own product. -/
theorem Shortest.product_eq {w : Word} (h : w.Shortest) : w.product = w := by
  have hle := h _ (equivalent_product w)
  have hge := length_product_le w
  simpa [product] using foldl_push_eq_append (g := w) (w := [])
    (by rw [List.length_nil, Nat.zero_add]; exact Nat.le_antisymm hge hle)

theorem Shortest.of_shuffle {v w : Word} (h : v.Shortest) (hs : Shuffle v w) : w.Shortest :=
  fun u hu => hs.length_eq ▸ h u (hs.equivalent.trans hu)

/-! ### Least spellings -/

/-- The words are the same, or the first one comes before the other in lexicographic order. -/
def AtMost (w v : Word) : Prop := w = v ∨ List.Lex (fun c d : Side => c < d) w v

theorem AtMost.nil (v : Word) : AtMost [] v := by
  cases v with
  | nil => exact .inl rfl
  | cons d v => exact .inr .nil

theorem AtMost.cons {w v : Word} (h : AtMost w v) (c : Side) : AtMost (c :: w) (c :: v) :=
  h.imp (congrArg (c :: ·)) .cons

/-- A spelling that takes the least letter every time comes before all others. -/
theorem leastSpelling_atMost {n : Nat} : ∀ {w v : Word}, Shuffle w v → w.length ≤ n →
    AtMost (leastSpelling n w) v := by
  induction n with
  | zero => intro w v _ _; exact .nil v
  | succ n ih =>
      intro w v h hw
      cases v with
      | nil =>
          obtain rfl : w = [] := List.eq_nil_of_length_eq_zero h.length_eq
          exact .nil _
      | cons d v =>
          have hd : Leads d w := (h.leads_iff d).mpr (leads_head d v)
          cases hleast : least? w.heads with
          | none =>
              rw [← mem_heads, least?_eq_none_iff.mp hleast] at hd
              cases hd
          | some c =>
              obtain ⟨hc, hle⟩ := least?_eq_some_iff.mp hleast
              simp only [leastSpelling, hleast]
              rcases Nat.lt_or_eq_of_le (hle d (mem_heads.mpr hd)) with hlt | heq
              · exact .inr (.rel hlt)
              · obtain rfl := Fin.ext heq
                have hlength := List.length_erase_of_mem (mem_heads.mp hc).mem
                exact (ih (by simpa using h.erase c) (by omega)).cons c

/-- The normal form is the least of all spellings. -/
theorem normalForm_atMost {w v : Word} (h : Shuffle w v) : AtMost w.normalForm v :=
  leastSpelling_atMost h (Nat.le_refl _)

theorem normalForm_normalForm (w : Word) : w.normalForm.normalForm = w.normalForm :=
  normalForm_eq_iff.mpr (shuffle_normalForm w).symm

/-! ### Names of cells -/

theorem product_canonical (u : Word) : u.product.normalForm.Canonical :=
  ⟨u.product_shortest.of_shuffle (shuffle_normalForm _), normalForm_normalForm _⟩

/-- The words that name cells are the canonical ones. -/
theorem canonical_iff_isName {w : Word} : w.Canonical ↔ (AnchorKey.cell w).IsName := by
  constructor
  · intro h
    exact ⟨w, by rw [h.shortest.product_eq, h.spelled]⟩
  · rintro ⟨u, rfl⟩
    exact product_canonical u

namespace Canonical

variable {w : Word} (h : w.Canonical)

include h

/-- Reflections that start from a name end in one. -/
theorem reflected (g : Word) : (g.foldl push w).normalForm.Canonical := by
  obtain ⟨u, rfl⟩ := canonical_iff_isName.mp h
  rw [normalForm_foldl_push]
  exact product_canonical _

/-- Crossing one side twice leads back. -/
theorem push_push (s : Side) : ((w.push s).push s).normalForm = w := by
  have hmove : Equivalent (w ++ [s, s]) w := by
    simpa using Equivalent.of_move (.cancel w [] s)
  calc ((w.push s).push s).normalForm
      = (w ++ [s, s]).product.normalForm := by
        rw [product_append, h.shortest.product_eq]
        rfl
    _ = w.product.normalForm := hmove.normalForm_eq
    _ = w := by rw [h.shortest.product_eq, h.spelled]

/-- Also when the name is spelled anew in between. -/
theorem push_normalForm_push (s : Side) :
    ((w.push s).normalForm.push s).normalForm = w := by
  have hpush : w.push s = (w ++ [s]).product := by
    rw [product_append, h.shortest.product_eq]
    rfl
  have hspell := normalForm_foldl_push (w ++ [s]) [s]
  rw [List.foldl_cons, List.foldl_nil, ← hpush, product_append, ← hpush] at hspell
  exact hspell.trans (h.push_push s)

end Canonical

end Word

/-! ### Cells that are settled in and cells around -/

/-- The key of a cell of the hyperbolic plane with a canonical word. -/
def AnchorKey.IsCell : AnchorKey → Prop
  | .cell w => w.Canonical
  | _ => False

theorem AnchorKey.isCell_cell {w : Word} : (AnchorKey.cell w).IsCell ↔ w.Canonical := Iff.rfl

namespace Lattice

variable {α : Type} [Scalar α]

theorem settle_isCell (l : Lattice α) {key : AnchorKey} (h : key.IsCell) (t : Motion α) :
    (l.settle key t).key.IsCell := by
  cases key with
  | cell w =>
      exact Word.canonical_iff_isName.mpr (l.settle_isName (Word.canonical_iff_isName.mp h) t)
  | grid x y => exact h
  | globe => exact h

theorem around_isCell (l : Lattice α) {key : AnchorKey} (h : key.IsCell)
    {x : AnchorKey × Motion α} (hx : x ∈ l.around key) : x.1.IsCell := by
  cases key with
  | cell w =>
      obtain ⟨g, -, rfl⟩ := List.mem_map.mp hx
      exact Word.Canonical.reflected h g
  | grid x y => exact h.elim
  | globe => exact h.elim

end Lattice

end Mosaic
