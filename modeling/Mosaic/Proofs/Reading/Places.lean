import Mosaic.Proofs.Cursor
import Mosaic.Proofs.Reading.Position

/-!
# Reading — faults and their places

A reader goes forward in its text, and a fault that it finds is at a place of the text
(`ParseError.Placed`).  There is one lemma for each reading of a token.  The place of every fault is
that of one offset, but for a number that is not well formed: that has the offset of its first byte
and the column of its end.
-/

namespace Mosaic

/-- A run of bytes that does not begin past the end of the text does not end there. -/
theorem runEnd_le_size {text : ByteArray} {p : UInt8 → Bool} {i : Nat} (h : i ≤ text.size) :
    runEnd p text i ≤ text.size :=
  runEnd_le_of_not h (by simp)

/-- Blanks end before the text does. -/
theorem gap_le_size {text : ByteArray} {i : Nat} (h : i ≤ text.size) : gap text i ≤ text.size :=
  runEnd_le_size h

theorem lt_size_of_getElem? {text : ByteArray} {i : Nat} {c : UInt8} (h : text[i]? = some c) :
    i < text.size := by
  by_contra hge
  rw [getElem?_neg text i hge] at h
  cases h

/-- A word that stands in the text ends in it. -/
theorem standsAt_le {text : ByteArray} {i : Nat} {word : List UInt8} (hi : i ≤ text.size)
    (h : standsAt text i word = true) : i + word.length ≤ text.size := by
  induction word generalizing i with
  | nil => exact hi
  | cons c rest ih =>
      obtain ⟨hc, hrest⟩ := Bool.and_eq_true_iff.mp h
      have hlt := lt_size_of_getElem? (beq_iff_eq.mp hc)
      have := ih hlt hrest
      rw [List.length_cons]
      omega

/-- Whether a number is not well formed. -/
def Fault.isMalformedNumber : Fault → Bool
  | malformedNumber _ => true
  | _ => false

/-- The fault is at a place of the text; of a number that is not well formed, the offset is that of
its first byte and the column that of its end. -/
structure ParseError.Placed (text : ByteArray) (e : ParseError) : Prop where
  onLine : e.position.OnLine text
  agrees : e.fault.isMalformedNumber = false → e.position.PointsAt text
  number : e.fault.isMalformedNumber = true →
    ∃ stop, e.position.offset < stop ∧ AllBytes (· != 10) text e.position.offset stop ∧
      e.position.column = Position.sinceLineFeed text stop + 1

namespace ParseError.Placed

variable {text : ByteArray} {e : ParseError}

/-- A number that is not well formed is refused past the column of its offset. -/
theorem column_eq (h : e.Placed text) (hnumber : e.fault.isMalformedNumber = true) :
    ∃ stop, e.position.offset < stop ∧ AllBytes (· != 10) text e.position.offset stop ∧
      e.position.column =
        Position.sinceLineFeed text e.position.offset + 1 + (stop - e.position.offset) := by
  obtain ⟨stop, hlt, hbytes, hcolumn⟩ := h.number hnumber
  refine ⟨stop, hlt, hbytes, ?_⟩
  rw [hcolumn, (Position.of_stretch hbytes).2]
  omega

/-- The offset, line and column of a fault agree unless it is about a number. -/
theorem pointsAt_iff (h : e.Placed text) :
    e.position.PointsAt text ↔ e.fault.isMalformedNumber = false := by
  refine ⟨fun hpoints => Bool.eq_false_iff.mpr fun hnumber => ?_, h.agrees⟩
  obtain ⟨stop, hlt, -, hcolumn⟩ := h.column_eq hnumber
  have := hpoints.column
  omega

end ParseError.Placed

namespace Reader

/-- The cursor of a reader; it may fail with what is wrong at a place of the text. -/
def cursor : Cursor ParseError Nat where
  place := id
  allows text e := e.Placed text ∧ e.fault ≠ .stalled

/-- Faults that can be found at any place. -/
def plain : Fault → Bool
  | .malformedNumber _ | .stalled => false
  | _ => true

variable {text : ByteArray} {β γ : Type} {F A : β → Prop} {i place : Nat} {fault : Fault}

/-- A fault may be told of any place in the text, unless it needs one of its own. -/
theorem allows_of_plain (hplace : place ≤ text.size) (hfault : plain fault = true) :
    cursor.allows text ⟨fault, Position.of text place⟩ := by
  have hpoints := Position.of_pointsAt hplace
  refine ⟨⟨hpoints.toOnLine, fun _ => hpoints, fun hnumber => ?_⟩, ?_⟩
  · cases fault with
    | malformedNumber _ => cases hfault
    | _ => cases hnumber
  · rintro rfl
    cases hfault

theorem failAt_moves (hplace : place ≤ text.size) (hfault : plain fault = true) :
    cursor.Moves text F A (failAt place fault) := by
  refine fun s hs => ⟨(nomatch ·), fun h => ?_⟩
  cases h
  exact ⟨Nat.le_refl _, hs, allows_of_plain hplace hfault⟩

theorem fail_moves (hfault : plain fault = true) : cursor.Moves text F A (fail fault) :=
  fun _ hs => failAt_moves hs hfault _ hs

/-- A value that was refused before moves nothing. -/
theorem ofExcept_moves {x : Except Fault β} (h : ∀ fault, x = .error fault → plain fault = true) :
    cursor.Keeps text (ofExcept x) := by
  cases x with
  | ok b => exact .pure trivial id
  | error fault => exact fail_moves (h fault rfl)

/-! ### Readings that do not fail -/

/-- A reading that answers at every place of the text. -/
theorem moves_of_ok {x : Reader β} (h : ∀ i, i ≤ text.size →
    ∃ b j, x text i = .ok b j ∧ i ≤ j ∧ j ≤ text.size ∧ F b ∧ (A b → i < j)) :
    cursor.Moves text F A x := by
  intro i hi
  obtain ⟨b, j, hok, hj⟩ := h i hi
  rw [hok]
  refine ⟨fun h => ?_, (nomatch ·)⟩
  cases h
  exact hj

theorem source_moves : cursor.Moves text (· = text) (fun _ => False) source :=
  moves_of_ok fun i hi => ⟨_, _, rfl, Nat.le_refl i, hi, rfl, False.elim⟩

theorem offset_moves : cursor.Moves text (· ≤ text.size) (fun _ => False) offset :=
  moves_of_ok fun i hi => ⟨_, _, rfl, Nat.le_refl i, hi, hi, False.elim⟩

theorem peek_moves : cursor.Keeps text peek :=
  moves_of_ok fun i hi => ⟨_, _, rfl, Nat.le_refl i, hi, trivial, False.elim⟩

/-- A byte that is there is taken. -/
theorem takeChar_moves : cursor.Moves text (fun _ => True) (·.isSome = true) takeChar := by
  refine moves_of_ok fun i hi => ?_
  cases hc : text[i]? with
  | none => exact ⟨none, i, by rw [takeChar, hc], Nat.le_refl i, hi, trivial, nofun⟩
  | some c =>
      exact ⟨some c, i + 1, by rw [takeChar, hc], Nat.le_succ i, lt_size_of_getElem? hc, trivial,
        fun _ => Nat.lt_succ_self i⟩

theorem skipWhile_moves (p : UInt8 → Bool) : cursor.Keeps text (skipWhile p) :=
  moves_of_ok fun i hi =>
    ⟨_, _, rfl, (runEnd_spec p text i).1.1, runEnd_le_size hi, trivial, False.elim⟩

theorem skipBlanks_moves : cursor.Keeps text skipBlanks := skipWhile_moves isBlank

theorem atEnd_moves : cursor.Keeps text atEnd :=
  skipBlanks_moves.bind fun _ _ => source_moves.bind fun _ _ => offset_moves.bind fun _ _ =>
    .pure trivial id

theorem identifier_moves : cursor.Keeps text identifier := by
  refine skipBlanks_moves.bind fun _ _ => offset_moves.bind fun start _ => peek_moves.bind
    fun c _ => ?_
  have hrest : cursor.Keeps text (do return textBetween (← source) start (← offset)) :=
    source_moves.bind fun _ _ => offset_moves.bind fun _ _ => .pure trivial id
  exact .ite (fun _ => (skipWhile_moves _).bind fun _ _ => hrest) fun _ => hrest

theorem restOfLine_moves : cursor.Keeps text restOfLine :=
  offset_moves.bind fun _ _ => (skipWhile_moves _).bind fun _ _ => source_moves.bind fun _ _ =>
    offset_moves.bind fun _ _ => .pure trivial id

/-! ### Tokens -/

/-- A word that is found is taken, and nothing if it is not found. -/
theorem take_moves (word : String) :
    cursor.Moves text (fun _ => True) (fun taken => taken = true ∧ 0 < word.utf8ByteSize)
      (take word) := by
  refine moves_of_ok fun i hi => ?_
  have hlength : word.toByteArray.data.toList.length = word.utf8ByteSize := by
    rw [← String.size_toByteArray, ← ByteArray.size_data, ← Array.length_toList]
  change ∃ b j, (if standsAt text i word.toByteArray.data.toList then _ else _ : Reader Bool)
    text i = .ok b j ∧ _
  by_cases h : standsAt text i word.toByteArray.data.toList = true
  · have hle := standsAt_le hi h
    rw [hlength] at hle
    rw [if_pos h]
    exact ⟨true, i + word.utf8ByteSize, rfl, Nat.le_add_right .., hle, trivial, by omega⟩
  · rw [if_neg h]
    exact ⟨false, i, rfl, Nat.le_refl i, hi, trivial, nofun⟩

/-- A token that is found is taken, with the blanks before it; the blanks are skipped in any case.
-/
theorem eat_moves (token : String) :
    cursor.Moves text (fun _ => True) (fun taken => taken = true ∧ 0 < token.utf8ByteSize)
      (eat token) :=
  skipBlanks_moves.bind fun _ _ => take_moves token

/-- A token that is not empty. -/
theorem eat_tests {token : String} (h : 0 < token.utf8ByteSize) :
    cursor.Moves text (fun _ => True) (· = true) (eat token) :=
  (eat_moves token).mono (fun _ h => h) fun _ htaken => ⟨htaken, h⟩

/-- A token that has to be there is taken, or its absence is told where the cursor stands. -/
theorem expect_moves (token : String) :
    cursor.Moves text (fun _ => True) (fun _ => 0 < token.utf8ByteSize) (expect token) := by
  refine (eat_moves token).bindOf fun taken _ => ?_
  cases taken with
  | true => exact .pure trivial fun h => h.2 ⟨rfl, h.1⟩
  | false => exact fail_moves rfl

theorem expect_advances {token : String} (h : 0 < token.utf8ByteSize) :
    cursor.Advances text (expect token) :=
  (expect_moves token).mono (fun _ h => h) fun _ _ => h

theorem takeUntil_moves (stop : UInt8) : cursor.Keeps text (takeUntil stop) :=
  offset_moves.bind fun _ _ => (skipWhile_moves _).bind fun _ _ => peek_moves.bind fun _ _ =>
    .ite (fun _ => source_moves.bind fun _ _ => offset_moves.bind fun _ _ => .pure trivial id)
      fun _ => fail_moves rfl

theorem finite_moves {α : Type} [Scalar α] (x : α) : cursor.Keeps text (finite x) :=
  .ite (fun _ => .pure trivial id) fun _ => fail_moves rfl

end Reader

end Mosaic
