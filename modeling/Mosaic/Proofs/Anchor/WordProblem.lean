import Mathlib.Logic.Relation
import Mosaic.Proofs.Anchor.Shuffle

/-!
# Anchor — the word problem of the pentagon group

Two words of sides stand for one product of reflections when they can be turned into each other by
inserting or deleting a letter written twice and by swapping neighbouring letters of sides that
follow each other around the pentagon (`Equivalent`).  That is what the group of the pentagon
tiling is given by, and names of cells decide it: equivalent words, and only those, have one
name (`normalForm_product_eq_iff`).

The products computed by `Word.product` are *reduced* (`Reduced`): no letter of them can be moved
next to an equal one.  One more reflection acts on reduced words, up to shuffles, as an involution
(`shuffle_reflect_reflect`), and reflections in sides that follow each other commute
(`shuffle_reflect_comm`).  So every equivalence of words is seen in their products as a shuffle.

Words are read backwards here, as `cancel?` does: the last reflection comes first.
-/

namespace Mosaic.Word

/-- A single change that leaves the product of reflections as it is. -/
inductive Move : Word → Word → Prop where
  | cancel (x y : Word) (s : Side) : Move (x ++ s :: s :: y) (x ++ y)
  | swap (x y : Word) {a b : Side} (h : b = a.next ∨ a = b.next) :
      Move (x ++ a :: b :: y) (x ++ b :: a :: y)

/-- The words are turned into each other by insertions and deletions of letters written twice and
by swaps of neighbouring letters of sides that follow each other. -/
def Equivalent : Word → Word → Prop := Relation.EqvGen Move

theorem commutes_iff {a b : Side} : a.commutes b ↔ b = a.next ∨ a = b.next := by
  simp only [Side.commutes, Bool.or_eq_true, beq_iff_eq]
  exact or_comm

namespace Equivalent

theorem refl (u : Word) : Equivalent u u := Relation.EqvGen.refl u

theorem symm {u v : Word} (h : Equivalent u v) : Equivalent v u := Relation.EqvGen.symm _ _ h

theorem trans {u v w : Word} (h₁ : Equivalent u v) (h₂ : Equivalent v w) : Equivalent u w :=
  Relation.EqvGen.trans _ _ _ h₁ h₂

theorem of_move {u v : Word} (h : Move u v) : Equivalent u v := .rel _ _ h

/-- A map of words that takes moves to equivalences takes equivalences to equivalences. -/
theorem map {f : Word → Word} (hf : ∀ {u v}, Move u v → Equivalent (f u) (f v)) {u v : Word}
    (h : Equivalent u v) : Equivalent (f u) (f v) := by
  induction h with
  | rel u v h => exact hf h
  | refl u => exact .refl _
  | symm u v _ ih => exact ih.symm
  | trans u v w _ _ ih₁ ih₂ => exact ih₁.trans ih₂

/-- One more reflection before both words. -/
theorem cons (c : Side) {u v : Word} (h : Equivalent u v) : Equivalent (c :: u) (c :: v) := by
  refine h.map (f := (c :: ·)) fun m => ?_
  cases m with
  | cancel x y s => exact of_move (.cancel (c :: x) y s)
  | swap x y h => exact of_move (.swap (c :: x) y h)

/-- Equivalent words are equivalent when they are read backwards. -/
theorem reverse {u v : Word} (h : Equivalent u v) : Equivalent u.reverse v.reverse := by
  refine h.map (f := List.reverse) fun m => ?_
  cases m with
  | cancel x y s => simpa using of_move (.cancel y.reverse x.reverse s)
  | swap x y h => simpa using of_move (.swap y.reverse x.reverse h.symm)

end Equivalent

/-- Words that differ by swaps of commuting letters are equivalent. -/
theorem Shuffle.equivalent {u v : Word} (h : Shuffle u v) : Equivalent u v := by
  induction h with
  | refl u => exact .refl u
  | cons c _ ih => exact ih.cons c
  | swap u h => exact .of_move (.swap [] u (commutes_iff.mp h))
  | trans _ _ ih₁ ih₂ => exact ih₁.trans ih₂

/-! ### One more reflection -/

/-- The word `w`, read backwards, after one more reflection. -/
def reflect (s : Side) (w : Word) : Word := (cancel? s w).getD (s :: w)

/-- A letter that can be moved to the front cancels with the reflection. -/
theorem reflect_of_leads {s : Side} {w : Word} (h : Leads s w) : reflect s w = w.erase s := by
  simp [reflect, cancel?_eq, h]

/-- Any other reflection adds a letter. -/
theorem reflect_of_not_leads {s : Side} {w : Word} (h : ¬ Leads s w) : reflect s w = s :: w := by
  simp [reflect, cancel?_eq, h]

/-- To push a letter is to reflect the word that is read backwards. -/
theorem reverse_push (w : Word) (s : Side) : (w.push s).reverse = reflect s w.reverse := by
  unfold push reflect
  cases cancel? s w.reverse <;> simp

theorem reverse_foldl_push (u w : Word) :
    (u.foldl push w).reverse = u.foldl (fun w s => reflect s w) w.reverse := by
  induction u generalizing w with
  | nil => rfl
  | cons c u ih => rw [List.foldl_cons, List.foldl_cons, ih, reverse_push]

/-- Reflection respects swaps of commuting letters. -/
theorem Shuffle.reflect {u v : Word} (h : Shuffle u v) (s : Side) :
    Shuffle (reflect s u) (reflect s v) := by
  by_cases hs : Leads s u
  · rw [reflect_of_leads hs, reflect_of_leads ((h.leads_iff s).mp hs)]
    exact h.erase s
  · rw [reflect_of_not_leads hs, reflect_of_not_leads (mt (h.leads_iff s).mpr hs)]
    exact h.cons s

theorem Shuffle.foldl_reflect {v w : Word} (u : Word) (h : Shuffle v w) :
    Shuffle (u.foldl (fun w s => Word.reflect s w) v) (u.foldl (fun w s => Word.reflect s w) w) := by
  induction u generalizing v w with
  | nil => exact h
  | cons c u ih => exact ih (h.reflect c)

/-- Reflection is multiplication in the group. -/
theorem equivalent_reflect (s : Side) (w : Word) : Equivalent (s :: w) (reflect s w) := by
  by_cases hs : Leads s w
  · rw [reflect_of_leads hs]
    exact (hs.shuffle.equivalent.cons s).trans (.of_move (.cancel [] (w.erase s) s))
  · rw [reflect_of_not_leads hs]
    exact .refl _

/-- Reflections in sides that follow each other commute. -/
theorem shuffle_reflect_comm {a b : Side} (hab : a.commutes b) (w : Word) :
    Shuffle (reflect b (reflect a w)) (reflect a (reflect b w)) := by
  have hba : b.commutes a := Side.commutes_comm a b ▸ hab
  have hne : a ≠ b := Side.ne_of_commutes hab
  by_cases ha : Leads a w <;> by_cases hb : Leads b w
  · rw [reflect_of_leads ha, reflect_of_leads hb,
      reflect_of_leads ((leads_erase_iff hab ha).mpr hb),
      reflect_of_leads ((leads_erase_iff hba hb).mpr ha), List.erase_comm]
    exact .refl _
  · have hb' : ¬ Leads b (w.erase a) := mt (leads_erase_iff hab ha).mp hb
    have ha' : Leads a (b :: w) := Or.inr ⟨hba, ha⟩
    rw [reflect_of_leads ha, reflect_of_not_leads hb, reflect_of_not_leads hb',
      reflect_of_leads ha', List.erase_cons_tail (by simpa using hne.symm)]
    exact .refl _
  · have ha' : ¬ Leads a (w.erase b) := mt (leads_erase_iff hba hb).mp ha
    have hb' : Leads b (a :: w) := Or.inr ⟨hab, hb⟩
    rw [reflect_of_leads hb, reflect_of_not_leads ha, reflect_of_not_leads ha',
      reflect_of_leads hb', List.erase_cons_tail (by simpa using hne)]
    exact .refl _
  · have hb' : ¬ Leads b (a :: w) := by simp [hne, hb]
    have ha' : ¬ Leads a (b :: w) := by simp [hne.symm, ha]
    rw [reflect_of_not_leads ha, reflect_of_not_leads hb, reflect_of_not_leads hb',
      reflect_of_not_leads ha']
    exact .swap w hba

/-! ### Reduced words -/

/-- No letter can be moved next to an equal one that follows it. -/
def Reduced : Word → Prop
  | [] => True
  | c :: w => ¬ Leads c w ∧ Reduced w

@[simp] theorem reduced_nil : Reduced [] := trivial

@[simp] theorem reduced_cons (c : Side) (w : Word) :
    Reduced (c :: w) ↔ ¬ Leads c w ∧ Reduced w := Iff.rfl

/-- In a reduced word a letter does not come to the front twice. -/
theorem Reduced.not_leads_erase {s : Side} :
    ∀ {w : Word}, Reduced w → Leads s w → ¬ Leads s (w.erase s)
  | c :: w, ⟨hc, hw⟩, h => by
      by_cases hcs : c = s
      · subst hcs; simpa using hc
      · obtain ⟨-, hs⟩ := h.resolve_left hcs
        simp [hcs, hw.not_leads_erase hs]

/-- A reduced word without a letter that can be moved to its front is reduced. -/
theorem Reduced.erase {s : Side} : ∀ {w : Word}, Reduced w → Leads s w → Reduced (w.erase s)
  | c :: w, ⟨hc, hw⟩, h => by
      by_cases hcs : c = s
      · subst hcs; simpa using hw
      · obtain ⟨hcom, hs⟩ := h.resolve_left hcs
        have hc' : ¬ Leads c (w.erase s) :=
          mt (leads_erase_iff (Side.commutes_comm c s ▸ hcom) hs).mp hc
        simpa [List.erase_cons, hcs] using ⟨hc', hw.erase hs⟩

/-- Reflection keeps a word reduced. -/
theorem Reduced.reflect {w : Word} (hw : Reduced w) (s : Side) : Reduced (reflect s w) := by
  by_cases hs : Leads s w
  · rw [reflect_of_leads hs]
    exact hw.erase hs
  · rw [reflect_of_not_leads hs]
    exact ⟨hs, hw⟩

theorem Reduced.foldl_reflect {w : Word} (hw : Reduced w) (u : Word) :
    Reduced (u.foldl (fun w s => Word.reflect s w) w) := by
  induction u generalizing w with
  | nil => exact hw
  | cons c u ih => exact ih (hw.reflect c)

/-- Reflecting twice in one side leads back. -/
theorem shuffle_reflect_reflect {w : Word} (hw : Reduced w) (s : Side) :
    Shuffle (reflect s (reflect s w)) w := by
  by_cases hs : Leads s w
  · rw [reflect_of_leads hs, reflect_of_not_leads (hw.not_leads_erase hs)]
    exact hs.shuffle.symm
  · rw [reflect_of_not_leads hs, reflect_of_leads (leads_head s w), List.erase_cons_head]
    exact .refl w

/-! ### Products -/

/-- The product of a word, read backwards: its letters are reflected in one after another. -/
theorem reverse_product (u : Word) :
    u.product.reverse = u.foldl (fun w s => reflect s w) [] := reverse_foldl_push u []

/-- Reflections one after the other are multiplication by a word. -/
theorem equivalent_foldl_reflect (u w : Word) :
    Equivalent (u.reverse ++ w) (u.foldl (fun w s => reflect s w) w) := by
  induction u generalizing w with
  | nil => exact .refl w
  | cons c u ih =>
      have h : Equivalent (u.reverse ++ c :: w) (u.reverse ++ reflect c w) := by
        induction u.reverse with
        | nil => exact equivalent_reflect c w
        | cons d x ih => exact ih.cons d
      simpa using h.trans (ih (reflect c w))

/-- A word and its product stand for the same reflections. -/
theorem equivalent_product (u : Word) : Equivalent u u.product := by
  have h : Equivalent u.reverse u.product.reverse := by
    rw [reverse_product]
    simpa using equivalent_foldl_reflect u []
  simpa using h.reverse

/-- A move leaves the product as it is, up to a shuffle of the word read backwards. -/
theorem Move.shuffle {u v : Word} (h : Move u v) : Shuffle u.product.reverse v.product.reverse := by
  rw [reverse_product, reverse_product]
  cases h with
  | cancel x y s =>
      simp only [List.foldl_append, List.foldl_cons]
      have hx : Reduced (x.foldl (fun w s => reflect s w) []) := Reduced.foldl_reflect reduced_nil x
      exact (shuffle_reflect_reflect hx s).foldl_reflect y
  | swap x y hab =>
      simp only [List.foldl_append, List.foldl_cons]
      exact (shuffle_reflect_comm (commutes_iff.mpr hab) _).foldl_reflect y

/-- Equivalent words have reduced words that differ by swaps only. -/
theorem Equivalent.shuffle {u v : Word} (h : Equivalent u v) :
    Shuffle u.product.reverse v.product.reverse := by
  induction h with
  | rel u v h => exact h.shuffle
  | refl u => exact .refl _
  | symm u v _ ih => exact ih.symm
  | trans u v w _ _ ih₁ ih₂ => exact ih₁.trans ih₂

theorem Shuffle.append_right {u v : Word} (h : Shuffle u v) (w : Word) :
    Shuffle (u ++ w) (v ++ w) := by
  induction h with
  | refl u => exact .refl _
  | cons c _ ih => exact ih.cons c
  | swap u h => exact .swap (u ++ w) h
  | trans _ _ ih₁ ih₂ => exact ih₁.trans ih₂

theorem Shuffle.append_left (w : Word) {u v : Word} (h : Shuffle u v) :
    Shuffle (w ++ u) (w ++ v) := by
  induction w with
  | nil => exact h
  | cons c w ih => exact ih.cons c

theorem Shuffle.reverse {u v : Word} (h : Shuffle u v) : Shuffle u.reverse v.reverse := by
  induction h with
  | refl u => exact .refl _
  | cons c _ ih => simpa using ih.append_right [c]
  | @swap a b u h =>
      have h' : Shuffle [b, a] [a, b] := .swap [] (Side.commutes_comm a b ▸ h)
      simpa using h'.append_left u.reverse
  | trans _ _ ih₁ ih₂ => exact ih₁.trans ih₂

/-- **The word problem.**  The names of two words are equal exactly when the words are turned into
each other by the relations of the pentagon group. -/
theorem normalForm_product_eq_iff (u v : Word) :
    u.product.normalForm = v.product.normalForm ↔ Equivalent u v := by
  rw [normalForm_eq_iff]
  constructor
  · intro h
    exact ((equivalent_product u).trans h.equivalent).trans (equivalent_product v).symm
  · intro h
    simpa using h.shuffle.reverse

end Mosaic.Word
