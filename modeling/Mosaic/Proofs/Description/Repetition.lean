import Mathlib
import Mosaic.Proofs.Description.Entries
import Mosaic.Proofs.Scalar.Whole

/-!
# Description — repetitions abbreviate

A factor after the entries of a tile stands for these entries as many times over.  The two ways to
write the tile are read to the same corners (`corners?_replicate`), and a shape does not depend on
how often its corners are declared to repeat, but in the field that says so (`newShape_repeat`).  So
both are refused alike, or add the same shape (`repetition_abbreviates`).
-/

namespace Mosaic

open Expression (Tree)

variable {α : Type} [Scalar α]

/-- The number that a factor comes to, unless it is infinite. -/
def Draft.factor? (d : Draft α) (t : Tree .sum) : Option Int :=
  (d.value? t).bind fun x =>
    if (x == Scalar.infinity) = false ∧ Scalar.isFinite x then some (Scalar.round x) else none

/-- The draft with one more shape. -/
def Draft.addShape (d : Draft α) (s : Shape α) : Draft α :=
  { d with tiling := { d.tiling with shapes := d.tiling.shapes.push s } }

namespace Drafting

open Entry

variable {unit : Bool} {d : Draft α} {entries : List (Entry unit)} {corners : List (Corner α)}

/-! ### The corners -/

theorem repeatItems_toArray {β : Type} (l : List β) (n : Nat) :
    repeatItems l.toArray n = (List.replicate n l).flatten.toArray := by
  induction n with
  | zero => rfl
  | succ n ih =>
      rw [repeatItems, ih, List.replicate_succ', List.flatten_append, List.flatten_singleton,
        List.append_toArray]

/-- Entries that are written `n` times come to their corners `n` times over. -/
theorem corners?_replicate (h : corners? d entries = some corners) (n : Nat) :
    corners? d (List.replicate n entries).flatten =
      some (List.replicate n corners).flatten := by
  induction n with
  | zero => rfl
  | succ n ih =>
      rw [corners?] at h ih ⊢
      rw [List.replicate_succ, List.flatten_cons, List.flatMap_append, List.mapM_append, h, ih]
      rfl

/-- Every entry has a corner. -/
theorem eq_nil_of_corners? (h : corners? d entries = some ([] : List (Corner α))) :
    entries = [] := by
  cases entries with
  | nil => rfl
  | cons e es =>
      rw [corners?, List.flatMap_cons, List.mapM_append] at h
      obtain ⟨cs, cs', hcs, -, hnil⟩ := Tree.binary_eq_some.mp h
      obtain ⟨rfl, -⟩ := List.append_eq_nil_iff.mp hnil
      cases e with
      | plain | unitPlain =>
          obtain ⟨_, -, h⟩ := corners_one hcs
          cases h
      | bracketed | ideal | unitIdeal =>
          obtain ⟨_, _, -, -, h⟩ := corners_two hcs
          cases h

/-- A factor in bounds repeats the corners. -/
theorem ending?_factor {t : Tree .sum} {xs : Array (Corner α)} {n : Nat}
    (ht : d.factor? t = some (n : Int)) (hn : n ≤ maxRepeat)
    (hsize : xs.size * n ≤ maxShapeEdges) :
    ending? d xs (some t) = some ⟨repeatItems xs n, false, n⟩ := by
  obtain ⟨x, hx, hround⟩ := Option.bind_eq_some_iff.mp ht
  obtain ⟨⟨hinfinite, hfinite⟩, hround⟩ := Option.ite_none_right_eq_some.mp hround
  have hround : Scalar.round x = n := Option.some.inj hround
  have hbounds : inRepeatBounds n = true := by
    simpa [inRepeatBounds] using hn
  refine Option.bind_eq_some_iff.mpr ⟨x, hx, ?_⟩
  rw [repeated?, if_neg (by rw [hinfinite]; exact Bool.false_ne_true), if_pos hfinite, hround]
  dsimp only
  rw [if_neg (by omega), Int.toNat_natCast, if_neg]
  rw [hbounds]
  simpa using hsize

/-! ### The shape -/

/-- The repetitions of an outline are told by the shape, and by nothing else of it. -/
theorem newShape_repeat (t : Tiling α) (xs : Array (Corner α)) (n : Nat) :
    newShape t ⟨xs, false, n⟩ =
      (newShape t ⟨xs, false, 1⟩).map fun (s, b) => ({ s with repeatCount := n }, b) := by
  unfold newShape Shape.ofCorners
  cases Polygon.ofCorners t.space t.isCombinatorial false xs <;> rfl

theorem addTile_repeat {text : ByteArray} {j : Nat} (xs : Array (Corner α)) (n : Nat) :
    addTile ⟨xs, false, n⟩ text ⟨j, d⟩ =
      match newShape d.tiling ⟨xs, false, 1⟩ with
      | .ok (s, _) => .ok () ⟨j, d.addShape { s with repeatCount := n }⟩
      | .error e => .error (.openPolygon ⟨d.tiling.shapes.size, e.chain, inUnits d e.defect,
          d.bindings.toList⟩) ⟨j, d⟩ := by
  rw [addTile_apply, newShape_repeat]
  cases newShape d.tiling ⟨xs, false, 1⟩ <;> rfl

/-- **Repetitions abbreviate.**  At the same draft, a tile whose entries are followed by a factor
that comes to `n` and the tile with the entries written out `n` times are refused for the same
polygon that does not close, or add the same shape, which is said to repeat `n` times or once, and
`n` divides the number of its vertices.  Both are refused without a look at the polygon if the
catalogue is full or the list is empty.  The corners of an ideal corner count twice, as they do for
the limit on edges. -/
theorem repetition_abbreviates {factor : Tree .sum} {n : Nat} {text text' : ByteArray}
    {i j i' j' : Nat} (place : Nat) (hrepeated : Lists text entries (some factor) i j)
    (hwritten : Lists text' (List.replicate n entries).flatten none i' j')
    (hcorners : corners? d entries = some corners) (hfactor : d.factor? factor = some (n : Int))
    (hpos : 1 ≤ n) (hn : n ≤ maxRepeat) (hsize : n * corners.length ≤ maxShapeEdges) :
    ((maxShapes ≤ d.tiling.shapes.size ∨ entries = []) ∧ ∃ fault,
      refusal (tile unit place text ⟨i, d⟩) =
        some (.malformed ⟨fault, Position.of text place⟩) ∧
      refusal (tile unit place text' ⟨i', d⟩) =
        some (.malformed ⟨fault, Position.of text' place⟩)) ∨
    (∃ e, refusal (tile unit place text ⟨i, d⟩) = some (.openPolygon e) ∧
      refusal (tile unit place text' ⟨i', d⟩) = some (.openPolygon e)) ∨
    ∃ s : Shape α,
      tile unit place text ⟨i, d⟩ = .ok () ⟨j, d.addShape { s with repeatCount := n }⟩ ∧
      tile unit place text' ⟨i', d⟩ = .ok () ⟨j', d.addShape { s with repeatCount := 1 }⟩ ∧
      n ∣ s.size := by
  rcases Nat.lt_or_ge d.tiling.shapes.size maxShapes with hshapes | hfull
  · obtain ⟨hfits, hrepeated⟩ := tile_of_lists place hrepeated hcorners
      ((Nat.le_mul_of_pos_left _ hpos).trans hsize)
      (ending?_factor hfactor hn (by rwa [List.size_toArray, Nat.mul_comm])) hshapes
    obtain ⟨-, hwritten⟩ := tile_of_lists place hwritten (corners?_replicate hcorners n)
      (by simpa using hsize) rfl hshapes
    rw [← repeatItems_toArray] at hwritten
    dsimp only at hrepeated hwritten
    cases hempty : (repeatItems corners.toArray n).isEmpty with
    | true =>
        simp only [hempty, if_true] at hrepeated hwritten
        refine .inl ⟨.inr ?_, _, by rw [hrepeated]; rfl, by rw [hwritten]; rfl⟩
        rw [Array.isEmpty_iff_size_eq_zero, size_repeatItems, List.size_toArray] at hempty
        have hnil := (Nat.mul_eq_zero.mp hempty).resolve_left (Nat.ne_of_gt hpos)
        rw [List.eq_nil_of_length_eq_zero hnil] at hcorners
        exact eq_nil_of_corners? hcorners
    | false =>
        simp only [hempty, Bool.false_eq_true, if_false, addTile_repeat] at hrepeated hwritten
        cases hs : newShape d.tiling ⟨repeatItems corners.toArray n, false, 1⟩ with
        | error e =>
            simp only [hs] at hrepeated hwritten
            exact .inr (.inl ⟨_, by rw [hrepeated]; rfl, by rw [hwritten]; rfl⟩)
        | ok p =>
            obtain ⟨s, b⟩ := p
            simp only [hs] at hrepeated hwritten
            refine .inr (.inr ⟨s, hrepeated, hwritten, ?_⟩)
            have hs' : newShape d.tiling ⟨repeatItems corners.toArray n, false, n⟩ =
                .ok ({ s with repeatCount := n }, b) := by
              rw [newShape_repeat, hs]
              rfl
            exact (hfits.orderly (by simpa using hempty) hs').2.1.repeat_dvd
  · exact .inl ⟨.inl hfull, _, by rw [tile_of_full place hfull]; rfl,
      by rw [tile_of_full place hfull]; rfl⟩

/-! ### A square with straight corners -/

/-- A number of one digit, as an expression. -/
def digit (n : Nat) : Tree .sum := .term (.factor (.base (.number ⟨n, 0⟩)))

theorem gap_of_byte {text : ByteArray} {i : Nat} {c : UInt8} (hi : text[i]? = some c)
    (hc : isBlank c = false) : gap text i = i :=
  gap_eq (by rw [hi, Option.any_some, hc]; exact Bool.false_ne_true)

theorem token_of_byte {text : ByteArray} {i : Nat} {a : Char} (hi : text[i]? = some a.toUInt8)
    (ha : isBlank a.toUInt8 = false) : Token text a i (i + 1) := by
  have hgap := gap_of_byte hi ha
  exact ⟨by rw [hgap, hi], by rw [hgap]⟩

theorem digit_spelled {text : ByteArray} {i : Nat} {c : UInt8} (hi : text[i]? = some c)
    (hc : isDigit c = true) : (digit (c.toNat - 48)).Spells text i (i + 1) := by
  have hgap : gap text i = i := gap_of_byte hi (by grind [isDigit, isBlank])
  refine .term (.factor (.base (.number ⟨i + 1, i + 1, i + 1, 0, ?_⟩)))
  rw [hgap]
  exact
    { whole := .cons (by rw [hi]; exact hc) .refl
      fraction := .inl ⟨rfl, rfl⟩
      some_digit := .inl (Nat.lt_succ_self i)
      exponent := .absent
      value := by simp [digitsValue, hi] }

/-- The draft of a tiling without shapes behind `a2.angleunit(pi/2)`. -/
def flatDraft : Draft Whole :=
  ⟨{ (Tiling.empty : Tiling Whole) with geometry := .affine }, ∅, 1, Scalar.pi / 2⟩

theorem straight_spelled {text : ByteArray} {i : Nat}
    (h : ∀ k < 9, text[i + k]? = "1,[2,1,1]".toByteArray[k]?) :
    (Entry.ideal (digit 1) (digit 2) (digit 1) (digit 1)).Spells text i (i + 9) :=
  .ideal (digit_spelled (c := 49) (h 0 (by decide)) rfl) (token_of_byte (h 1 (by decide)) rfl)
    (token_of_byte (h 2 (by decide)) rfl)
    ⟨digit_spelled (c := 50) (h 3 (by decide)) rfl, token_of_byte (h 4 (by decide)) rfl,
      digit_spelled (c := 49) (h 5 (by decide)) rfl, token_of_byte (h 6 (by decide)) rfl,
      digit_spelled (c := 49) (h 7 (by decide)) rfl, token_of_byte (h 8 (by decide)) rfl⟩

theorem right_spelled {text : ByteArray} {i : Nat}
    (h : ∀ k < 3, text[i + k]? = "2,1".toByteArray[k]?) :
    (Entry.plain (digit 2) (digit 1)).Spells text i (i + 3) :=
  .plain (digit_spelled (c := 50) (h 0 (by decide)) rfl) (token_of_byte (h 1 (by decide)) rfl)
    (digit_spelled (c := 49) (h 2 (by decide)) rfl)

set_option maxRecDepth 10000 in
/-- A square two of whose edges are made of two steps: six corners and four vertices, written with a
factor and written out. -/
theorem repetition_abbreviates_square : ∃ s : Shape Whole,
    tile false 0 "1,[2,1,1],2,1,*2)".toByteArray ⟨0, flatDraft⟩ =
      .ok () ⟨17, flatDraft.addShape { s with repeatCount := 2 }⟩ ∧
    tile false 0 "1,[2,1,1],2,1,1,[2,1,1],2,1)".toByteArray ⟨0, flatDraft⟩ =
      .ok () ⟨28, flatDraft.addShape { s with repeatCount := 1 }⟩ ∧ 2 ∣ s.size := by
  have hadded : refusal (tile false 0 "1,[2,1,1],2,1,*2)".toByteArray ⟨0, flatDraft⟩) = none := by
    cbv
  let entries : List (Entry false) :=
    [.ideal (digit 1) (digit 2) (digit 1) (digit 1), .plain (digit 2) (digit 1)]
  have hrepeated : Lists "1,[2,1,1],2,1,*2)".toByteArray entries (some (digit 2)) 0 17 :=
    .more (straight_spelled (by decide)) (token_of_byte (by decide) rfl)
      (.more (right_spelled (by decide)) (token_of_byte (by decide) rfl)
        (.factor (token_of_byte (by decide) rfl) (digit_spelled (c := 50) (by decide) rfl)
          (token_of_byte (by decide) rfl)))
  have hwritten : Lists "1,[2,1,1],2,1,1,[2,1,1],2,1)".toByteArray
      (List.replicate 2 entries).flatten none 0 28 :=
    .more (straight_spelled (by decide)) (token_of_byte (by decide) rfl)
      (.more (right_spelled (by decide)) (token_of_byte (by decide) rfl)
        (.more (straight_spelled (by decide)) (token_of_byte (by decide) rfl)
          (.last (right_spelled (by decide)) (token_of_byte (by decide) rfl))))
  have hcorners : corners? flatDraft entries =
      some [⟨1, 2, true⟩, ⟨1, 1, false⟩, ⟨2, 1, false⟩] := rfl
  rcases repetition_abbreviates 0 hrepeated hwritten hcorners rfl (by decide) (by decide)
    (by decide) with ⟨-, fault, h, -⟩ | ⟨e, h, -⟩ | h
  · cases hadded.symm.trans h
  · cases hadded.symm.trans h
  · exact h

end Drafting

end Mosaic
