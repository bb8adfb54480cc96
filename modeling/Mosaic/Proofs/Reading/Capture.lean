import Mosaic.Proofs.Reading.Excerpt
import Mosaic.Proofs.Upkeep

/-!
# Reading — what readers take out of a text

A reader that begins on a character ends on one, also when it fails, and the texts that it takes, or
repeats in a fault, are excerpts of the source.  There is one lemma for each reading of a token.

* `excerpt_identifier`, `excerpt_restOfLine`, `excerpt_takeUntil`: where a text is taken.
* `Reader.faithful`: what readers keep up.
-/

namespace Mosaic

/-- What a fault repeats of the source. -/
def Fault.repeated? : Fault → Option String
  | malformedNumber text => some text
  | unknownIdentifier name => some name
  | wrongArity name _ _ => some name
  | wrongIdealArity name => some name
  | unknownFunction name => some name
  | notACommand name => some name
  | unknownFlag name => some name
  | unknownDirective name => some name
  | _ => none

/-- All that the fault repeats is in the source. -/
def Fault.Quotes (source : String) (fault : Fault) : Prop :=
  ∀ w, fault.repeated? = some w → IsExcerpt source w

/-- A fault that repeats nothing of the source quotes it faithfully. -/
theorem Fault.Quotes.of_none {source : String} {fault : Fault} (h : fault.repeated? = none) :
    fault.Quotes source := by
  intro w hw
  rw [h] at hw
  cases hw

/-- A fault that repeats a text which is in the source. -/
theorem Fault.Quotes.of_some {source w : String} {fault : Fault} (h : fault.repeated? = some w)
    (hw : IsExcerpt source w) : fault.Quotes source := by
  intro v hv
  rw [h] at hv
  cases hv
  exact hw

namespace Reader

variable {source w : String} {i j : Nat} {β : Type} {F : β → Prop} {fault : Fault}

theorem takeChar_of_some {text : ByteArray} {c : UInt8} (h : text[i]? = some c) :
    takeChar text i = .ok (some c) (i + 1) := by
  rw [takeChar, h]

theorem takeChar_of_none {text : ByteArray} (h : text[i]? = none) :
    takeChar text i = .ok none i := by
  rw [takeChar, h]

/-! ### Where texts are taken -/

/-- A name is an excerpt. -/
theorem excerpt_identifier (hi : OnCharacter source i)
    (h : identifier source.toByteArray i = .ok w j) :
    Excerpt source (gap source.toByteArray i) j w := by
  have hgap := gap_onCharacter hi
  have hrun := (runEnd_spec isNamePart source.toByteArray (gap source.toByteArray i)).1
  rw [Stretch.identifier_eq_ite] at h
  dsimp only at h
  split at h
  · cases h
    exact excerpt_textBetween hgap (hrun.onCharacter (fun _ => isNamePart_ascii) hgap) hrun.1
  · cases h
    exact excerpt_textBetween hgap hgap (Nat.le_refl _)

/-- The rest of a line is an excerpt. -/
theorem excerpt_restOfLine (hi : OnCharacter source i)
    (h : restOfLine source.toByteArray i = .ok w j) : Excerpt source i j w := by
  cases h
  refine excerpt_textBetween hi (runEnd_onCharacter (fun c hc => ?_) hi.le_size)
    (runEnd_spec (32 ≤ ·) source.toByteArray i).1.1
  have hlt : c < 32 := UInt8.not_le.mp (of_decide_eq_false hc)
  exact UInt8.lt_trans hlt (by decide)

/-- What is taken up to an ASCII byte is without that byte, which comes next. -/
theorem excerpt_takeUntil {stop : UInt8} (hstop : stop < 128) (hi : OnCharacter source i)
    (h : takeUntil stop source.toByteArray i = .ok w j) :
    Excerpt source i j w ∧ AllBytes (· != stop) source.toByteArray i j ∧
      source.toByteArray[j]? = some stop := by
  obtain ⟨rfl, hsome, rfl⟩ := Stretch.takeUntil_ok h
  obtain ⟨hrun, hend⟩ := runEnd_spec (· != stop) source.toByteArray i
  obtain ⟨c, hc⟩ := Option.isSome_iff_exists.mp hsome
  rw [hc, Option.any_some, Bool.not_eq_true, bne_eq_false_iff_eq] at hend
  subst hend
  exact ⟨excerpt_textBetween hi (onCharacter_of_ascii hc hstop).1 hrun.1, hrun, hc⟩

/-! ### What readers keep up -/

/-- Readers stay on characters of the source, and their faults repeat excerpts of it. -/
def faithful (source : String) : Upkeep ParseError Nat where
  text := source.toByteArray
  holds := OnCharacter source
  allows e := e.fault.Quotes source

/-- A reader that always answers, between characters again. -/
theorem keeps_of_ok {x : Reader β} (h : ∀ i, OnCharacter source i →
    ∃ b j, x source.toByteArray i = .ok b j ∧ OnCharacter source j ∧ F b) :
    (faithful source).Runs F x := by
  intro i hi
  obtain ⟨b, j, hok, hj, hb⟩ := h i hi
  change (faithful source).Kept F (x source.toByteArray i)
  rw [hok]
  exact .of_ok hj hb

/-- A reader may fail with a fault that quotes the source. -/
theorem failAt_faithful {place : Nat} (h : fault.Quotes source) :
    (faithful source).Runs F (failAt place fault) := fun _ hi => .of_error hi h

theorem fail_faithful (h : fault.Quotes source) : (faithful source).Runs F (fail fault) :=
  fun _ hi => .of_error hi h

/-- A value that was refused before is refused in the text. -/
theorem ofExcept_faithful {x : Except Fault β}
    (h : ∀ fault, x = .error fault → fault.Quotes source) :
    (faithful source).Keeps (ofExcept x) := by
  cases x with
  | ok b => exact .pure trivial
  | error fault => exact fail_faithful (h fault rfl)

theorem source_faithful : (faithful source).Keeps Reader.source :=
  keeps_of_ok fun _ hi => ⟨_, _, rfl, hi, trivial⟩

theorem offset_faithful : (faithful source).Runs (OnCharacter source) offset :=
  keeps_of_ok fun _ hi => ⟨_, _, rfl, hi, hi⟩

theorem skipBlanks_faithful : (faithful source).Keeps skipBlanks :=
  keeps_of_ok fun _ hi => ⟨_, _, rfl, gap_onCharacter hi, trivial⟩

theorem atEnd_faithful : (faithful source).Keeps atEnd :=
  skipBlanks_faithful.bind fun _ _ => source_faithful.bind fun _ _ =>
    offset_faithful.bind fun _ _ => .pure trivial

/-- The name at the cursor is a piece of the source. -/
theorem identifier_faithful : (faithful source).Runs (IsExcerpt source) identifier :=
  keeps_of_ok fun i hi => by
    have heq := Stretch.identifier_eq_ite source.toByteArray i
    have hexcerpt := excerpt_identifier hi heq
    exact ⟨_, _, heq, hexcerpt.right, hexcerpt.isExcerpt⟩

/-- What is left of the line is a piece of the source. -/
theorem restOfLine_faithful : (faithful source).Runs (IsExcerpt source) restOfLine :=
  keeps_of_ok fun _ hi =>
    have hexcerpt := excerpt_restOfLine hi rfl
    ⟨_, _, rfl, hexcerpt.right, hexcerpt.isExcerpt⟩

/-! ### Tokens -/

/-- A word that is taken ends between characters, as its own bytes do. -/
theorem take_faithful (word : String) : (faithful source).Keeps (take word) := by
  refine keeps_of_ok fun i hi => ?_
  change ∃ b j, (if standsAt source.toByteArray i word.toByteArray.data.toList then _ else _ :
    Reader Bool) source.toByteArray i = .ok b j ∧ _
  split
  · exact ⟨true, _, rfl, (standsAt_excerpt hi ‹_›).right, trivial⟩
  · exact ⟨false, i, rfl, hi, trivial⟩

theorem eat_faithful (token : String) : (faithful source).Keeps (eat token) :=
  skipBlanks_faithful.bind fun _ _ => take_faithful token

theorem expect_faithful (token : String) : (faithful source).Keeps (expect token) :=
  (eat_faithful token).bind fun _ _ => .ite (fun _ => .pure trivial)
    fun _ => fail_faithful (.of_none rfl)

/-- A text is taken up to an ASCII byte, or the source ends before. -/
theorem takeUntil_faithful (stop : UInt8) (hstop : stop < 128) :
    (faithful source).Runs (IsExcerpt source) (takeUntil stop) := by
  intro i hi
  change (faithful source).Kept _ (takeUntil stop source.toByteArray i)
  cases h : takeUntil stop source.toByteArray i with
  | ok w j =>
      have hexcerpt := (excerpt_takeUntil hstop hi h).1
      exact .of_ok hexcerpt.right hexcerpt.isExcerpt
  | error e j =>
      change (if (source.toByteArray[runEnd (· != stop) source.toByteArray i]?).isSome then _
        else _ : Reader String) source.toByteArray _ = _ at h
      split at h
      · cases h
      · cases h
        refine .of_error (runEnd_onCharacter (fun c hc => ?_) hi.le_size) (.of_none rfl)
        rwa [bne_eq_false_iff_eq.mp hc]

theorem finite_faithful {α : Type} [Scalar α] (x : α) :
    (faithful source).Keeps (finite x) :=
  .ite (fun _ => .pure trivial) fun _ => fail_faithful (.of_none rfl)

end Reader

end Mosaic
