import Mathlib.Data.List.TakeWhile
import Mosaic.Reading.Fault
import Mosaic.Proofs.Reading.Reader

/-!
# Reading — places in a text

A place points at an offset of a text if its line is one more than the number of line feeds before
the offset and its column one more than the number of bytes after the last of them
(`Position.PointsAt`).  That is what counting from the beginning of the text comes to
(`Position.of_pointsAt`).
-/

namespace Mosaic.Position

variable {text : ByteArray} {i j : Nat}

/-- The bytes before an offset. -/
def before (text : ByteArray) (offset : Nat) : List UInt8 := text.data.toList.take offset

/-- How many line feeds stand before an offset. -/
def lineFeeds (text : ByteArray) (offset : Nat) : Nat := (before text offset).count 10

/-- How many bytes stand between the last line feed before an offset and the offset. -/
def sinceLineFeed (text : ByteArray) (offset : Nat) : Nat :=
  ((before text offset).reverse.takeWhile (· != 10)).length

/-- The line is the one that the offset is in. -/
structure OnLine (text : ByteArray) (p : Position) : Prop where
  offset : p.offset ≤ text.size
  line : p.line = lineFeeds text p.offset + 1

/-- Offset, line and column are those of one place of the text. -/
structure PointsAt (text : ByteArray) (p : Position) : Prop extends OnLine text p where
  column : p.column = sinceLineFeed text p.offset + 1

theorem getElem?_toList (text : ByteArray) (i : Nat) : text.data.toList[i]? = text[i]? := by
  rw [Array.getElem?_toList]
  rfl

theorem before_succ {c : UInt8} (h : text[i]? = some c) :
    before text (i + 1) = before text i ++ [c] := by
  rw [before, List.take_add_one, getElem?_toList, h]
  rfl

/-- A byte adds a line if it is a line feed. -/
theorem lineFeeds_succ {c : UInt8} (h : text[i]? = some c) :
    lineFeeds text (i + 1) = lineFeeds text i + if c == 10 then 1 else 0 := by
  rw [lineFeeds, before_succ h, List.count_append, List.count_singleton]
  rfl

/-- A byte is one column further, or begins a line. -/
theorem sinceLineFeed_succ {c : UInt8} (h : text[i]? = some c) :
    sinceLineFeed text (i + 1) = if c == 10 then 0 else sinceLineFeed text i + 1 := by
  rw [sinceLineFeed, before_succ h, List.reverse_append, List.reverse_singleton,
    List.singleton_append, List.takeWhile_cons]
  cases hc : c == 10 <;> simp [bne, hc, sinceLineFeed]

/-- Along bytes that are no line feeds, the line stays and the columns count up. -/
theorem of_stretch (h : AllBytes (· != 10) text i j) :
    lineFeeds text j = lineFeeds text i ∧
      sinceLineFeed text j = sinceLineFeed text i + (j - i) := by
  obtain ⟨hle, hbytes⟩ := h
  induction j, hle using Nat.le_induction with
  | base => simp
  | succ j hle ih =>
      obtain ⟨c, hc, hne⟩ := (Option.any_eq_true _ _).mp (hbytes j hle (Nat.lt_succ_self j))
      have hne : (c == 10) = false := by simpa using hne
      obtain ⟨hline, hcolumn⟩ := ih fun k hk hkj => hbytes k hk (Nat.lt_succ_of_lt hkj)
      rw [lineFeeds_succ hc, sinceLineFeed_succ hc, hne, hline, hcolumn]
      refine ⟨by simp, ?_⟩
      change _ + _ + 1 = _
      omega

/-- Line and column after the bytes before an offset of the text. -/
theorem fold_advance (h : i ≤ text.size) :
    Nat.fold i (fun k _ p => advance p ((text[k]?).getD 0)) (1, 1) =
      (lineFeeds text i + 1, sinceLineFeed text i + 1) := by
  induction i with
  | zero => simp [lineFeeds, sinceLineFeed, before]
  | succ i ih =>
      have hbyte : text[i]? = some text[i] := getElem?_pos text i h
      rw [Nat.fold_succ, ih (Nat.le_of_succ_le h), hbyte, lineFeeds_succ hbyte,
        sinceLineFeed_succ hbyte, advance, Option.getD_some]
      split <;> rfl

/-- A place of the text has one more than the lines and the columns before it. -/
theorem of_eq (h : i ≤ text.size) :
    of text i = ⟨i, lineFeeds text i + 1, sinceLineFeed text i + 1⟩ := by
  rw [of, Nat.min_eq_left h, fold_advance h]

/-- The place at an offset points there. -/
theorem of_pointsAt (h : i ≤ text.size) : (of text i).PointsAt text := by
  rw [of_eq h]
  exact ⟨⟨h, rfl⟩, rfl⟩

end Mosaic.Position
