import Mathlib.Data.Bool.Basic
import Mosaic.Expression.Numeral
import Mosaic.Proofs.Reading.Reader

/-!
# Expression — the spelling of numbers

A number is spelled by digits with at most one point, and an exponent (`NumberAt`).  The reader
takes the longest spelling there is; a spelling that is followed neither by a byte of a name nor by
a point is the longest (`Reader.numeral_of_numberAt`).
-/

namespace Mosaic

variable {text : ByteArray} {i j : Nat}

/-- The letter `e`, large or small. -/
def isMark (c : UInt8) : Bool := c == 101 || c == 69

/-- From `i` to `j` an exponent of the given value is spelled, or nothing. -/
inductive ExponentAt (text : ByteArray) (i : Nat) : Nat → Int → Prop where
  | absent : ExponentAt text i i 0
  | unsigned {j : Nat} (hmark : (text[i]?).any isMark) (hdigits : AllBytes isDigit text (i + 1) j)
      (hj : i + 1 < j) : ExponentAt text i j (exponentValue text (i + 1) j 0)
  | plus {j : Nat} (hmark : (text[i]?).any isMark) (hsign : text[i + 1]? = some 43)
      (hdigits : AllBytes isDigit text (i + 2) j) (hj : i + 2 < j) :
      ExponentAt text i j (exponentValue text (i + 2) j 0)
  | minus {j : Nat} (hmark : (text[i]?).any isMark) (hsign : text[i + 1]? = some 45)
      (hdigits : AllBytes isDigit text (i + 2) j) (hj : i + 2 < j) :
      ExponentAt text i j (-(exponentValue text (i + 2) j 0 : Int))

/-- From `i` to `j` a number is spelled: digits up to `point`, and from `first` to `stop` those
after the point, if there is one; at least one digit; and an exponent. -/
structure NumberSpelled (text : ByteArray) (i j : Nat) (n : Numeral) (point first stop : Nat)
    (e : Int) : Prop where
  whole : AllBytes isDigit text i point
  fraction : (first = point ∧ stop = point) ∨
    (text[point]? = some 46 ∧ first = point + 1 ∧ AllBytes isDigit text first stop)
  some_digit : i < point ∨ first < stop
  exponent : ExponentAt text stop j e
  value : n = ⟨digitsValue text i point * Nat.pow 10 (stop - first) + digitsValue text first stop,
    e - (stop - first : Nat)⟩

/-- From `i` to `j` the number `n` is spelled. -/
def NumberAt (text : ByteArray) (i j : Nat) (n : Numeral) : Prop :=
  ∃ point first stop e, NumberSpelled text i j n point first stop e

theorem ExponentAt.le {e : Int} (h : ExponentAt text i j e) : i ≤ j := by
  cases h with
  | absent => exact Nat.le_refl i
  | unsigned _ _ hj => exact Nat.le_of_succ_le (Nat.le_of_lt hj)
  | plus _ _ _ hj | minus _ _ _ hj => exact Nat.le_of_succ_le (Nat.le_of_succ_le (Nat.le_of_lt hj))

namespace NumberAt

variable {n : Numeral}

theorem lt (h : NumberAt text i j n) : i < j := by
  obtain ⟨point, first, stop, e, hwhole, hfraction, hsome, hexponent, -⟩ := h
  have hlast := hexponent.le
  have hfirst := hwhole.1
  rcases hfraction with ⟨rfl, rfl⟩ | ⟨-, rfl, hfraction⟩
  · omega
  · have := hfraction.1
    omega

/-- A number begins with a digit or a point. -/
theorem head (h : NumberAt text i j n) : (text[i]?).any fun c => isDigit c || c == 46 := by
  obtain ⟨point, first, stop, e, hwhole, hfraction, hsome, -, -⟩ := h
  rcases Nat.eq_or_lt_of_le hwhole.1 with rfl | hlt
  · rcases hfraction with ⟨rfl, rfl⟩ | ⟨hpoint, -, -⟩
    · exact absurd hsome (by omega)
    · rw [hpoint]
      rfl
  · obtain ⟨c, hc, hdigit⟩ := (Option.any_eq_true _ _).mp (hwhole.head hlt)
    exact (Option.any_eq_true _ _).mpr ⟨c, hc, by rw [hdigit, Bool.true_or]⟩

end NumberAt

/-- No longer spelling of a number or of a name can go on here. -/
def Ends (text : ByteArray) (i : Nat) : Prop := ¬ (text[i]?).any fun c => isNamePart c || c == 46

/-- Names may have digits. -/
theorem isDigit_isNamePart {c : UInt8} (h : isDigit c) : isNamePart c := by
  rw [isNamePart, h, Bool.or_true]

/-- The mark of an exponent is a letter, so it would go on with a name. -/
theorem isMark_isNamePart {c : UInt8} (h : isMark c) : isNamePart c := by
  rw [isMark, Bool.or_eq_true, beq_iff_eq, beq_iff_eq] at h
  rcases h with rfl | rfl <;> rfl

namespace Ends

/-- Where something ends, nothing follows that could go on with a name. -/
theorem not_any {p : UInt8 → Bool} (h : Ends text i) (hp : ∀ c, p c → isNamePart c) :
    ¬ (text[i]?).any p := by
  intro hany
  obtain ⟨c, hc, hpc⟩ := (Option.any_eq_true _ _).mp hany
  exact h ((Option.any_eq_true _ _).mpr ⟨c, hc, by rw [hp c hpc, Bool.true_or]⟩)

theorem not_digit (h : Ends text i) : ¬ (text[i]?).any isDigit :=
  h.not_any fun _ => isDigit_isNamePart

theorem not_mark (h : Ends text i) : ¬ (text[i]?).any isMark :=
  h.not_any fun _ => isMark_isNamePart

theorem not_point (h : Ends text i) : text[i]? ≠ some 46 := by
  intro hi
  exact h (by rw [hi]; rfl)

end Ends

/-- Nothing goes on before a blank, so it is the first byte after blanks that counts. -/
theorem ends_of_gap (h : ∀ c, text[gap text i]? = some c → (isNamePart c || c == 46) = false) :
    Ends text i := by
  intro hany
  obtain ⟨c, hc, hpart⟩ := (Option.any_eq_true _ _).mp hany
  rcases Nat.eq_or_lt_of_le (le_gap text i) with hi | hlt
  · rw [h c (hi ▸ hc)] at hpart
    cases hpart
  · have hblank := (runEnd_spec isBlank text i).1.head hlt
    rw [hc, Option.any_some] at hblank
    grind [isBlank, isNamePart, isNameStart, isDigit]

/-- Before a token that is no part of a name or a number, both end. -/
theorem Token.ends {c : Char} (h : Token text c i j)
    (hc : (isNamePart c.toUInt8 || c.toUInt8 == 46) = false) : Ends text i := by
  refine ends_of_gap fun b hb => ?_
  rw [h.byte] at hb
  cases hb
  exact hc

theorem not_digit_of_mark (h : (text[i]?).any isMark) : ¬ (text[i]?).any isDigit := by
  obtain ⟨c, hc, hmark⟩ := (Option.any_eq_true _ _).mp h
  rw [isMark, Bool.or_eq_true, beq_iff_eq, beq_iff_eq] at hmark
  rw [hc]
  rcases hmark with rfl | rfl <;> decide

theorem not_point_of_mark (h : (text[i]?).any isMark) : text[i]? ≠ some 46 := by
  intro hi
  rw [hi] at h
  exact absurd h (by decide)

theorem not_sign_of_digit (h : (text[i]?).any isDigit) :
    (text[i]? == some 43) = false ∧ (text[i]? == some 45) = false := by
  constructor <;> refine beq_eq_false_iff_ne.mpr fun hi => ?_ <;> rw [hi] at h <;>
    exact absurd h (by decide)

/-- Where a number is spelled, neither a digit nor a point stands after its last digit. -/
theorem ExponentAt.not_digit {e : Int} (h : ExponentAt text i j e) (hj : Ends text j) :
    ¬ (text[i]?).any isDigit ∧ text[i]? ≠ some 46 := by
  cases h with
  | absent => exact ⟨hj.not_digit, hj.not_point⟩
  | unsigned hmark _ _ => exact ⟨not_digit_of_mark hmark, not_point_of_mark hmark⟩
  | plus hmark _ _ _ => exact ⟨not_digit_of_mark hmark, not_point_of_mark hmark⟩
  | minus hmark _ _ _ => exact ⟨not_digit_of_mark hmark, not_point_of_mark hmark⟩

namespace Reader

/-- Where the digits of an exponent begin. -/
def exponentStart (text : ByteArray) (i : Nat) : Nat :=
  if text[i + 1]? == some 43 || text[i + 1]? == some 45 then i + 2 else i + 1

/-- The exponent that is taken, and where it ends. -/
def exponentTaken (text : ByteArray) (i : Nat) : Int × Nat :=
  let first := exponentStart text i
  let stop := runEnd isDigit text first
  if (text[i]?).any isMark && first < stop then
    let n := exponentValue text first stop 0
    (if text[i + 1]? == some 45 then -(n : Int) else n, stop)
  else (0, i)

/-- What an exponent is read as. -/
theorem exponent_eq (text : ByteArray) (i : Nat) :
    exponent text i = .ok (exponentTaken text i).1 (exponentTaken text i).2 := by
  change (if (text[i]?).any isMark then _ else _ : Reader Int) text i = _
  rw [exponentTaken]
  split
  · rename_i hmark
    change (if exponentStart text i < runEnd isDigit text (exponentStart text i) then _ else _ :
      Reader Int) text i = _
    rw [hmark, Bool.true_and]
    split
    · rename_i hlt
      rw [if_pos (decide_eq_true hlt)]
      rfl
    · rename_i hlt
      rw [if_neg (by simpa using hlt)]
      rfl
  · rename_i hmark
    rw [Bool.eq_false_iff.mpr hmark, Bool.false_and]
    rfl

/-- What is taken for an exponent is one. -/
theorem exponentAt_taken (text : ByteArray) (i : Nat) :
    ExponentAt text i (exponentTaken text i).2 (exponentTaken text i).1 := by
  rw [exponentTaken]
  split
  · rename_i h
    obtain ⟨hmark, hlt⟩ := Bool.and_eq_true_iff.mp h
    have hlt := of_decide_eq_true hlt
    have hrun := (runEnd_spec isDigit text (exponentStart text i)).1
    unfold exponentStart at hlt hrun ⊢
    split at hlt <;> rename_i hsign
    · rw [if_pos hsign] at hrun ⊢
      rcases (Bool.or_eq_true _ _).mp hsign with hplus | hminus
      · have hne : (text[i + 1]? == some 45) = false := by rw [beq_iff_eq.mp hplus]; rfl
        rw [hne]
        exact .plus hmark (beq_iff_eq.mp hplus) hrun hlt
      · rw [hminus]
        exact .minus hmark (beq_iff_eq.mp hminus) hrun hlt
    · rw [if_neg hsign] at hrun ⊢
      have hne : (text[i + 1]? == some 45) = false := by
        cases h : text[i + 1]? == some 45 with
        | false => rfl
        | true => exact absurd (by rw [h, Bool.or_true]) hsign
      rw [hne]
      exact .unsigned hmark hrun hlt
  · exact .absent

/-- An exponent that ends is taken whole. -/
theorem exponentTaken_eq {e : Int} (h : ExponentAt text i j e) (hj : Ends text j) :
    exponentTaken text i = (e, j) := by
  rw [exponentTaken]
  cases h with
  | absent =>
      rw [Bool.eq_false_iff.mpr hj.not_mark, Bool.false_and]
      rfl
  | unsigned hmark hdigits hlt =>
      obtain ⟨hplus, hminus⟩ := not_sign_of_digit (hdigits.head hlt)
      have hstart : exponentStart text i = i + 1 := by
        rw [exponentStart, hplus, hminus]
        rfl
      rw [hstart, runEnd_eq hdigits hj.not_digit, hmark, hminus, Bool.true_and,
        if_pos (decide_eq_true hlt)]
      rfl
  | plus hmark hsign hdigits hlt =>
      have hstart : exponentStart text i = i + 2 := by rw [exponentStart, hsign]; rfl
      rw [hstart, runEnd_eq hdigits hj.not_digit, hmark, hsign, Bool.true_and,
        if_pos (decide_eq_true hlt)]
      rfl
  | minus hmark hsign hdigits hlt =>
      have hstart : exponentStart text i = i + 2 := by rw [exponentStart, hsign]; rfl
      rw [hstart, runEnd_eq hdigits hj.not_digit, hmark, hsign, Bool.true_and,
        if_pos (decide_eq_true hlt)]
      rfl

/-- What a number is read as. -/
theorem numeral_eq (text : ByteArray) (i : Nat) : numeral text i =
    let point := runEnd isDigit text i
    let first := if text[point]? == some 46 then point + 1 else point
    let stop := runEnd isDigit text first
    let e := exponentTaken text stop
    if i < point ∨ first < stop then
      .ok ⟨digitsValue text i point * Nat.pow 10 (stop - first) + digitsValue text first stop,
        e.1 - (stop - first : Nat)⟩ e.2
    else .error ⟨.malformedNumber (textBetween text i e.2),
      { Position.of text e.2 with offset := i }⟩ e.2 := by
  change EStateM.bind (exponent text) _ (runEnd isDigit text _) = _
  rw [EStateM.bind, exponent_eq]
  dsimp only
  generalize (if (text[runEnd isDigit text i]? == some 46) = true then _ else _ : Nat) = first
  split
  · rfl
  · rfl

/-- The reader takes a number that is spelled. -/
theorem numeral_ok {n : Numeral} (h : numeral text i = .ok n j) : NumberAt text i j n := by
  rw [numeral_eq] at h
  dsimp only at h
  generalize hfirst :
    (if (text[runEnd isDigit text i]? == some 46) = true then _ else _) = first at h
  split at h
  · rename_i hsome
    cases h
    refine ⟨_, _, _, _, (runEnd_spec isDigit text i).1, ?_, hsome, exponentAt_taken _ _, rfl⟩
    split at hfirst
    · rename_i hpoint
      subst hfirst
      exact Or.inr ⟨beq_iff_eq.mp hpoint, rfl, (runEnd_spec isDigit text _).1⟩
    · subst hfirst
      exact Or.inl ⟨rfl, runEnd_eq .refl (runEnd_spec isDigit text i).2⟩
  · cases h

/-- A spelling that cannot go on is what the reader takes. -/
theorem numeral_of_numberAt {n : Numeral} (h : NumberAt text i j n) (hj : Ends text j) :
    numeral text i = .ok n j := by
  obtain ⟨point, first, stop, e, hwhole, hfraction, hsome, hexponent, rfl⟩ := h
  obtain ⟨hdigit, hnopoint⟩ := hexponent.not_digit hj
  -- Every run of digits ends where the spelling says, for what is spelled next is no digit.
  have hpoint : runEnd isDigit text i = point := by
    refine runEnd_eq hwhole ?_
    rcases hfraction with ⟨-, rfl⟩ | ⟨hpoint, -, -⟩
    · exact hdigit
    · rw [hpoint]
      decide
  have hfirst : (if text[point]? == some 46 then point + 1 else point) = first := by
    rcases hfraction with ⟨rfl, rfl⟩ | ⟨hpoint, rfl, -⟩
    · rw [if_neg (by simpa using hnopoint)]
    · rw [if_pos (by simpa using hpoint)]
  have hstop : runEnd isDigit text first = stop := by
    rcases hfraction with ⟨rfl, rfl⟩ | ⟨-, -, hfraction⟩
    · exact runEnd_eq .refl hdigit
    · exact runEnd_eq hfraction hdigit
  rw [numeral_eq]
  dsimp only
  rw [hpoint, hfirst, hstop, exponentTaken_eq hexponent hj, if_pos hsome]

end Reader

end Mosaic
