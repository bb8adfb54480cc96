import Mathlib
import Mosaic.Proofs.Description.Stage
import Mosaic.Proofs.Reading.Insertion
import Mosaic.Proofs.Scalar.Whole

/-!
# Description — comments are transparent

A comment line may be put between two directives (`Drafting.Boundary`).  Up to there both runs are
in lockstep; the round of the comment leaves the draft as it is; and behind the line they are in
lockstep again, further on in the longer text (`Drafting.description_comment`).  The comment has to
end with its line, which it does unless a control character ends it before (`Tiling.load_comment`).
-/

namespace Mosaic

variable {α : Type} [Scalar α]

omit [Scalar α] in
/-- Drafts that may differ in the generation of the tiling, and do not. -/
theorem Draft.Alike.tiling_eq {d e : Draft α} (h : d.Alike True e)
    (horder : e.tiling.order = d.tiling.order) : e.tiling = d.tiling := by
  obtain ⟨order, ht⟩ := h.tiling trivial
  rw [ht] at horder ⊢
  obtain rfl : order = d.tiling.order := horder
  rfl

namespace Drafting

variable {settings : Settings} {prior : Option (Tiling α)} {text : ByteArray} {s t : Desk α}

/-- The load of a description stands between two directives at this place, or among the blanks that
follow one. -/
def Boundary (settings : Settings) (prior : Option (Tiling α)) (text : ByteArray) (place : Nat) :
    Prop :=
  ∃ s, Stage settings prior text s ∧ AllBytes isBlank text s.offset place

/-- A line that is a comment with a single mark, and ends with the comment or with blanks after
it. -/
structure Hushed (I : Insertion) : Prop where
  mark : I.second[I.place + 1]? = some 35
  single : doubled I.second (I.place + 1) = false
  ends : AllBytes isBlank I.second (commentEnd I.second (I.place + 1)) (I.place + I.length)

omit [Scalar α] in
/-- A comment with a single mark ends behind characters that are none of control, and before the
line feed. -/
theorem commentEnd_between {i j k : Nat} (hsingle : doubled text i = false)
    (h : ∀ m, i + 1 ≤ m → m < j → (text[m]?).any (32 ≤ ·)) (hj : i + 1 ≤ j) (hjk : j ≤ k)
    (hk : text[k]? = some 10) : j ≤ commentEnd text i ∧ commentEnd text i ≤ k := by
  have hstart : i + 1 ≤ commentStart text i := lt_commentStart text i
  have hle := commentStart_le text i
  refine ⟨?_, ?_⟩
  · by_contra hlt
    exact (runEnd_spec (32 ≤ ·) text (commentStart text i)).2
      (h (commentEnd text i) (by omega) (by omega))
  · have hstart' : commentStart text i ≤ k := by
      rw [commentStart, hsingle]
      exact runEnd_le_of_not (by simp; omega) (by rw [hk]; decide)
    exact runEnd_le_of_not hstart' (by rw [hk]; decide)

/-- The round that reads a comment with a single mark. -/
theorem description_of_comment {i : Nat} (hgap : gap text s.offset = i) (h : text[i]? = some 35)
    (hsingle : doubled text i = false) :
    description prior text s = description prior text ⟨commentEnd text i, unitsBound s.draft⟩ := by
  have hsize : i < text.size := by
    by_contra hge
    rw [getElem?_neg text i hge] at h
    cases h
  rw [description_apply, hgap, if_neg (Nat.not_le_of_lt hsize)]
  have hentry : entry prior text ⟨i, unitsBound s.draft⟩ =
      .ok (.inl ()) ⟨commentEnd text i, unitsBound s.draft⟩ := by
    rw [entry_apply, if_pos h, commentDraft, hsingle]
    rfl
  exact bind_apply (x := entry prior) hentry

/-- Behind the line the description goes on as it does without it. -/
theorem description_behind {I : Insertion} {i : Nat} {e : Draft α}
    (hends : AllBytes isBlank I.second i (I.place + I.length))
    (hblanks : AllBytes isBlank I.first s.offset I.place)
    (h : description prior I.first s = .ok () t) (hheeds : t.draft.tiling.Heeds prior)
    (hdraft : s.draft.Alike True e) : ∃ u,
    description prior I.second ⟨i, unitsBound e⟩ = .ok () u ∧ t.draft.Alike True u.draft := by
  have hgap : gap I.first s.offset = gap I.first I.place := gap_of_blanks hblanks
  let S := I.tail (I.first.size + I.place + t.offset + 1) (by omega) (by omega)
  have hshift (hlt : gap I.first s.offset < S.hi) :
      gap I.second i = gap I.first s.offset + I.length := by
    rw [gap_of_blanks hends, hgap]
    exact S.gap_shift (Nat.le_refl I.place) (hgap ▸ hlt)
  have hin : (lockstep S True prior prior).inside t :=
    ⟨by change t.offset < _ + 1; omega, fun _ => hheeds⟩
  have hlo : I.place ≤ gap I.first s.offset := hgap ▸ le_gap _ _
  have hanswer := description_answers (S := S) (u := ⟨i, unitsBound e⟩) h hin hlo hshift
    (unitsBound_again hdraft)
  change Lockstep.Answers _ _ _ _ (description prior I.second _) at hanswer
  generalize description prior I.second ⟨i, unitsBound e⟩ = r at hanswer
  cases hanswer with
  | error hne => exact absurd trivial hne
  | ok _ hlike => exact ⟨_, rfl, hlike.2⟩

/-- A description that is read is read to the same tiling with a comment line put into it. -/
theorem description_comment {I : Insertion} (hI : Hushed I)
    (hplace : Boundary settings prior I.first I.place)
    (h : description prior I.first (start settings prior) = .ok () t) : ∃ u,
    description prior I.second (start settings prior) = .ok () u ∧
      u.draft.tiling = t.draft.tiling := by
  obtain ⟨d, hd, hblanks⟩ := hplace
  have hrest : description prior I.first d = .ok () t := hd.description_eq.symm.trans h
  have hgrows := description_grows hrest
  have hheeds : t.draft.tiling.Heeds prior := heeds_of_start (hd.grows.trans hgrows)
  -- up to the line both runs go through the same stages
  obtain ⟨v, ⟨⟨-, hv⟩, hdv⟩, hhead⟩ : ∃ v, (lockstep I.head True prior prior).like d v ∧
      description prior I.second (start settings prior) = description prior I.second v :=
    Later.accompanied (S := I.head) hd trivial ⟨⟨Nat.zero_le _, rfl⟩, .refl _⟩
      ⟨hblanks.1, fun _ => hheeds.of_grows hgrows⟩
  -- the line is one round of the second run
  have hgap : gap I.second v.offset = I.place + 1 := by
    refine runEnd_eq (hv ▸ (I.allBytes_head hblanks).trans (.cons ?_ .refl)) ?_
    · rw [I.lineFeed]
      rfl
    · rw [hI.mark]
      decide
  obtain ⟨u, hu, htu⟩ := description_behind hI.ends hblanks hrest hheeds hdv
  rw [← description_of_comment hgap hI.mark hI.single, ← hhead] at hu
  refine ⟨u, hu, htu.tiling_eq ?_⟩
  exact (description_grows hu).order.trans (description_grows h).order.symm

end Drafting

/-! ### Comment lines -/

/-- A line feed, a mark, a text, and what follows it in the line. -/
def commentLine (c w : String) : String := "\n#" ++ (c ++ (w ++ "\n"))

section CommentLine

variable {c w : String} {k : Nat}

theorem size_commentLine (c w : String) :
    (commentLine c w).utf8ByteSize = 2 + c.utf8ByteSize + w.utf8ByteSize + 1 := by
  rw [commentLine, String.utf8ByteSize_append, String.utf8ByteSize_append,
    String.utf8ByteSize_append]
  change 2 + (c.utf8ByteSize + (w.utf8ByteSize + 1)) = _
  omega

theorem commentLine_mark (hk : k < 2) :
    (commentLine c w).toByteArray[k]? = "\n#".toByteArray[k]? :=
  append_getElem?_left hk _

theorem commentLine_text (hk : k < c.utf8ByteSize) :
    (commentLine c w).toByteArray[2 + k]? = c.toByteArray[k]? := by
  rw [commentLine, append_getElem?_right (Nat.le_add_right 2 k)]
  change (c ++ _).toByteArray[2 + k - 2]? = _
  rw [Nat.add_sub_cancel_left, append_getElem?_left hk]

theorem commentLine_rest (k : Nat) :
    (commentLine c w).toByteArray[2 + c.utf8ByteSize + k]? = (w ++ "\n").toByteArray[k]? := by
  rw [commentLine, Nat.add_assoc, append_getElem?_right (Nat.le_add_right 2 _)]
  change (c ++ _).toByteArray[2 + (c.utf8ByteSize + k) - 2]? = _
  rw [Nat.add_sub_cancel_left, append_getElem?_right (Nat.le_add_right _ k),
    Nat.add_sub_cancel_left]

/-- After the text the line has blanks only. -/
theorem commentLine_blank (hw : ∀ x ∈ w.toList, x = ' ' ∨ x = '\t' ∨ x = '\r')
    (hk : k < w.utf8ByteSize + 1) :
    ((commentLine c w).toByteArray[2 + c.utf8ByteSize + k]?).any isBlank := by
  rw [commentLine_rest]
  refine any_toByteArray (fun x hx b hb => ?_) (by rwa [String.utf8ByteSize_append])
  rw [String.toList_append, List.mem_append] at hx
  have hx : x = ' ' ∨ x = '\t' ∨ x = '\r' ∨ x = '\n' := by
    rcases hx with hx | hx
    · rcases hw x hx with rfl | rfl | rfl <;> decide
    · exact .inr (.inr (.inr (List.mem_singleton.mp hx)))
  rcases hx with rfl | rfl | rfl | rfl <;>
  · obtain rfl := List.mem_singleton.mp hb
    decide

/-- The comment line between two texts. -/
def commentInsertion (A B c w : String) : Insertion :=
  .between A (commentLine c w) B (by rw [size_commentLine]; omega)
    (commentLine_mark Nat.zero_lt_two)

theorem commentInsertion_line {A B : String} (hk : k < (commentLine c w).utf8ByteSize) :
    (commentInsertion A B c w).second[A.utf8ByteSize + k]? = (commentLine c w).toByteArray[k]? :=
  Insertion.between_line hk

theorem commentLine_single {A B : String} (hmark : c.toList.head? ≠ some '#')
    (hw : ∀ x ∈ w.toList, x = ' ' ∨ x = '\t' ∨ x = '\r') :
    Drafting.doubled (commentInsertion A B c w).second (A.utf8ByteSize + 1) = false := by
  have hhead : (c ++ (w ++ "\n")).toList.head? ≠ some '#' := by
    rw [String.toList_append, String.toList_append]
    cases hcs : c.toList with
    | cons x l =>
        rw [hcs] at hmark
        exact hmark
    | nil =>
        cases hws : w.toList with
        | nil => decide
        | cons x l =>
            rcases hw x (by rw [hws]; exact List.mem_cons_self) with rfl | rfl | rfl <;>
              (intro h; cases h)
  have hbyte : (commentInsertion A B c w).second[A.utf8ByteSize + 1 + 1]? ≠ some 35 := by
    have hsize := size_commentLine c w
    rw [Nat.add_assoc, commentInsertion_line (by omega), commentLine,
      append_getElem?_right (Nat.le_refl 2)]
    exact toByteArray_head_ne (by decide) hhead
  rw [Drafting.doubled, Bool.eq_false_iff]
  intro h
  obtain ⟨b, hb, h35⟩ := (Option.any_eq_true _ _).mp h
  exact hbyte (hb.trans (congrArg some (beq_iff_eq.mp h35)))

/-- The comment ends behind its text, and with its line. -/
theorem commentLine_hushed {A B : String} (hc : ∀ x ∈ c.toList, ' ' ≤ x)
    (hmark : c.toList.head? ≠ some '#') (hw : ∀ x ∈ w.toList, x = ' ' ∨ x = '\t' ∨ x = '\r') :
    Drafting.Hushed (commentInsertion A B c w) := by
  have hsize := size_commentLine c w
  have hsingle := commentLine_single (A := A) (B := B) hmark hw
  have htext (k : Nat) (hk : A.utf8ByteSize + 2 ≤ k)
      (hk' : k < A.utf8ByteSize + 2 + c.utf8ByteSize) :
      ((commentInsertion A B c w).second[k]?).any (32 ≤ ·) := by
    obtain ⟨k, rfl⟩ := Nat.exists_eq_add_of_le hk
    rw [Nat.add_assoc, commentInsertion_line (by omega), commentLine_text (by omega)]
    exact any_toByteArray (fun x hx b hb => decide_eq_true (le_of_mem_utf8EncodeChar (hc x hx) hb))
      (by omega)
  have hblank (k : Nat) (hk : A.utf8ByteSize + 2 + c.utf8ByteSize ≤ k)
      (hk' : k < A.utf8ByteSize + (commentLine c w).utf8ByteSize) :
      ((commentInsertion A B c w).second[k]?).any isBlank := by
    obtain ⟨k, rfl⟩ := Nat.exists_eq_add_of_le hk
    rw [Nat.add_assoc, Nat.add_assoc, ← Nat.add_assoc 2, commentInsertion_line (by omega)]
    exact commentLine_blank hw (by omega)
  have hlast : (commentInsertion A B c w).second[A.utf8ByteSize + 2 + c.utf8ByteSize +
      w.utf8ByteSize]? = some 10 := by
    rw [Nat.add_assoc, Nat.add_assoc, ← Nat.add_assoc 2, Nat.add_assoc _ _ w.utf8ByteSize,
      commentInsertion_line (by omega), ← Nat.add_assoc,
      commentLine_rest, append_getElem?_right (Nat.le_refl _), Nat.sub_self]
    rfl
  obtain ⟨hle, hge⟩ := Drafting.commentEnd_between hsingle htext (by omega) (Nat.le_add_right _ _)
    hlast
  refine ⟨?_, hsingle, ?_⟩
  · exact (commentInsertion_line (by omega)).trans (commentLine_mark Nat.one_lt_two)
  · change AllBytes _ _ (Drafting.commentEnd _ (A.utf8ByteSize + 1))
      (A.utf8ByteSize + (commentLine c w).utf8ByteSize)
    exact ⟨by omega, fun k hk => hblank k (by omega)⟩

end CommentLine

namespace Tiling

open Drafting

variable {A B c w : String} {settings : Settings} {prior : Option (Tiling α)}
  {rules : Tiling α → Except String Unit} {t : Tiling α}

/-- **Comments are transparent.**  A line with a comment may be put between two directives of a
description, if the comment has a single mark and no control characters before its end. -/
theorem load_comment (h : load (A ++ B) settings prior rules = .ok t)
    (hA : Boundary settings prior (A ++ B).toByteArray A.utf8ByteSize)
    (hc : ∀ x ∈ c.toList, ' ' ≤ x) (hmark : c.toList.head? ≠ some '#')
    (hw : ∀ x ∈ w.toList, x = ' ' ∨ x = '\t' ∨ x = '\r')
    (hsize : (A ++ commentLine c w ++ B).utf8ByteSize ≤ maxSourceLength) :
    load (A ++ commentLine c w ++ B) settings prior rules = .ok t := by
  obtain ⟨u, hu, hfinish, hrules⟩ := load_ok.mp h
  obtain ⟨-, desk, hdesk, rfl⟩ := read_ok.mp hu
  obtain ⟨desk', hdesk', htiling⟩ :=
    description_comment (commentLine_hushed (A := A) (B := B) hc hmark hw) hA hdesk
  exact load_ok.mpr ⟨_, read_ok.mpr ⟨hsize, desk', hdesk', htiling⟩, hfinish, hrules⟩

/-! ### A comment before a square -/

set_option maxRecDepth 10000 in
theorem square_boundary : Boundary .default (none : Option (Tiling Whole))
    ("e2." ++ " tile(1,355/226,*4)").toByteArray "e2.".utf8ByteSize := by
  have hround : answer (round (none : Option (Tiling Whole)) ()
      ("e2." ++ " tile(1,355/226,*4)").toByteArray (start .default none)) = some (.inl ()) := by cbv
  have hoffset : (left (round (none : Option (Tiling Whole)) ()
      ("e2." ++ " tile(1,355/226,*4)").toByteArray (start .default none))).offset = 3 := by cbv
  refine ⟨_, .more .refl (eq_ok_of_answer hround), ?_⟩
  rw [hoffset]
  exact .refl

set_option maxRecDepth 10000 in
theorem square_loads : ∃ t : Tiling Whole,
    load ("e2." ++ " tile(1,355/226,*4)") .default none (fun _ => .ok ()) = .ok t := by
  have hload : (match (load ("e2." ++ " tile(1,355/226,*4)") .default none (fun _ => .ok ()) :
      Except (LoadError Whole) (Tiling Whole)) with
    | .ok _ => true
    | .error _ => false) = true := by cbv
  split at hload
  case h_1 t ht => exact ⟨t, ht⟩
  case h_2 => cases hload

/-- A comment with letters, quotes, parentheses and marks, and blanks behind it. -/
theorem load_comment_square : ∃ t : Tiling Whole,
    load ("e2." ++ " tile(1,355/226,*4)") .default none (fun _ => .ok ()) = .ok t ∧
    load ("e2." ++ commentLine " ∠ = \"π/2\" (#4" "\t\r" ++ " tile(1,355/226,*4)") .default none
      (fun _ => .ok ()) = .ok t := by
  obtain ⟨t, ht⟩ := square_loads
  exact ⟨t, ht, load_comment ht square_boundary (by simp) (by simp) (by simp)
    (by decide +kernel)⟩

set_option maxRecDepth 10000 in
/-- A tabulator ends a comment, and what follows it is read as a directive. -/
theorem load_comment_tabulator : ∃ t : Tiling Whole,
    load ("e2." ++ " tile(1,355/226,*4)") .default none (fun _ => .ok ()) = .ok t ∧
    Boundary .default (none : Option (Tiling Whole)) ("e2." ++ " tile(1,355/226,*4)").toByteArray
      "e2.".utf8ByteSize ∧
    '\n' ∉ "left\tright".toList ∧ "left\tright".toList.head? ≠ some '#' ∧
    ("e2." ++ commentLine "left\tright" "" ++ " tile(1,355/226,*4)").utf8ByteSize ≤ maxSourceLength ∧
    load ("e2." ++ commentLine "left\tright" "" ++ " tile(1,355/226,*4)") .default none
      (fun _ => .ok ()) ≠ .ok t := by
  obtain ⟨t, ht⟩ := square_loads
  have hrefused : (match (load ("e2." ++ commentLine "left\tright" "" ++ " tile(1,355/226,*4)") .default
      none (fun _ => .ok ()) : Except (LoadError Whole) (Tiling Whole)) with
    | .ok _ => false
    | .error _ => true) = true := by cbv
  refine ⟨t, ht, square_boundary, by decide, by decide, by decide +kernel, fun h => ?_⟩
  rw [h] at hrefused
  cases hrefused

end Tiling

end Mosaic
