import Mosaic.Proofs.Reading.Insertion
import Mosaic.Proofs.Reading.Places
import Mosaic.Text.Blank

/-!
# Reading — excerpts of a text

An offset of a text is on a character if one begins there or the text ends there (`OnCharacter`).
Between two such offsets what is read out of the bytes is an excerpt, character by character what
the text says (`excerpt_textBetween`); through a character it would not be.

* `onCharacter_of_ascii`: both ends of an ASCII character.  So the ends of a run are, if only ASCII
  bytes are in it (`AllBytes.onCharacter`) or if only ASCII bytes end it (`runEnd_onCharacter`).
* `Excerpt.append`, `Excerpt.unique`: excerpts that follow each other, and those of one place.
-/

namespace Mosaic

/-- A character of the text begins at the offset, or the text ends there. -/
abbrev OnCharacter (source : String) (i : Nat) : Prop := (⟨i⟩ : String.Pos.Raw).IsValid source

/-- The text says `w` from one offset to another one. -/
def Excerpt (source : String) (i j : Nat) (w : String) : Prop :=
  ∃ before after, source = before ++ w ++ after ∧ before.utf8ByteSize = i ∧
    (before ++ w).utf8ByteSize = j

/-- The text says `w` somewhere. -/
def IsExcerpt (source w : String) : Prop := ∃ i j, Excerpt source i j w

variable {source v w : String} {i j k : Nat} {p : UInt8 → Bool} {c : UInt8}

/-- A place between characters cuts the source in two. -/
theorem onCharacter_iff :
    OnCharacter source i ↔ ∃ before after, source = before ++ after ∧ before.utf8ByteSize = i := by
  rw [OnCharacter, String.Pos.Raw.isValid_iff_exists_append]
  simp only [String.Pos.Raw.ext_iff, String.byteIdx_rawEndPos, eq_comm]

theorem OnCharacter.le_size (h : OnCharacter source i) : i ≤ source.toByteArray.size := by
  obtain ⟨before, after, rfl, rfl⟩ := onCharacter_iff.mp h
  rw [String.size_toByteArray, String.utf8ByteSize_append]
  exact Nat.le_add_right ..

theorem onCharacter_zero (source : String) : OnCharacter source 0 :=
  onCharacter_iff.mpr ⟨"", source, (String.empty_append).symm, rfl⟩

theorem onCharacter_size (source : String) : OnCharacter source source.toByteArray.size :=
  onCharacter_iff.mpr ⟨source, "", (String.append_empty).symm, String.size_toByteArray.symm⟩

/-! ### Bytes and characters -/

/-- An ASCII byte of a text is a character of it. -/
theorem onCharacter_of_ascii (h : source.toByteArray[i]? = some c) (hc : c < 128) :
    OnCharacter source i ∧ OnCharacter source (i + 1) := by
  have hlt := lt_size_of_getElem? h
  have hfirst : OnCharacter source i := by
    refine String.Pos.Raw.isValid_iff_isUTF8FirstByte.mpr (.inr ⟨?_, .inl ?_⟩)
    · exact hlt
    · have hbyte := Option.some.inj ((getElem?_pos source.toByteArray i hlt).symm.trans h)
      rw [String.getUTF8Byte, hbyte]
      have hmask : ∀ b : BitVec 8, b < 128 → b &&& 128 = 0 := by decide +kernel
      exact UInt8.toBitVec_inj.mp (hmask c.toBitVec hc)
  refine ⟨hfirst, ?_⟩
  obtain ⟨before, after, rfl, rfl⟩ := onCharacter_iff.mp hfirst
  rw [append_getElem?_right (Nat.le_refl _), Nat.sub_self, toByteArray_getElem?] at h
  obtain ⟨rest, hrest⟩ : ∃ rest, after.toList = rest := ⟨_, rfl⟩
  cases rest with
  | nil =>
      rw [hrest] at h
      cases h
  | cons x rest =>
      rw [hrest, List.flatMap_cons, List.getElem?_append_left (List.length_pos_of_ne_nil
        String.utf8EncodeChar_ne_nil)] at h
      have hone : x.utf8Size = 1 := by
        have hbyte := mem_utf8EncodeChar (List.mem_of_getElem? h)
        have hc : c.toNat < 128 := UInt8.lt_iff_toNat_lt.mp hc
        rw [Char.utf8Size_eq_one_iff, UInt32.le_iff_toNat_le]
        change x.val.toNat ≤ 127
        omega
      refine onCharacter_iff.mpr ⟨before ++ String.singleton x, String.ofList rest, ?_, ?_⟩
      · rw [String.append_assoc]
        congr 1
        rw [← String.toList_inj, hrest]
        simp
      · rw [String.utf8ByteSize_append, String.utf8ByteSize_singleton, hone]

/-- Behind an ASCII byte a character begins, or the text ends. -/
theorem AllBytes.onCharacter_of_lt (h : AllBytes p source.toByteArray i j)
    (hp : ∀ c, p c = true → c < 128) (hlt : i < j) : OnCharacter source j := by
  obtain ⟨c, hc, hpc⟩ := (Option.any_eq_true _ _).mp (h.2 (j - 1) (by omega) (by omega))
  have hnext := (onCharacter_of_ascii hc (hp c hpc)).2
  rwa [Nat.sub_add_cancel (by omega)] at hnext

/-- A run of ASCII bytes that begins on a character ends on one. -/
theorem AllBytes.onCharacter (h : AllBytes p source.toByteArray i j)
    (hp : ∀ c, p c = true → c < 128) (hi : OnCharacter source i) : OnCharacter source j := by
  rcases Nat.eq_or_lt_of_le h.1 with rfl | hlt
  · exact hi
  · exact h.onCharacter_of_lt hp hlt

/-- A run that only an ASCII byte ends, whatever is in it, ends on a character. -/
theorem runEnd_onCharacter (hp : ∀ c, p c = false → c < 128) (hi : i ≤ source.toByteArray.size) :
    OnCharacter source (runEnd p source.toByteArray i) := by
  have hend := (runEnd_spec p source.toByteArray i).2
  have hsize := runEnd_le_size (p := p) hi
  cases hc : source.toByteArray[runEnd p source.toByteArray i]? with
  | none =>
      have hge : source.toByteArray.size ≤ runEnd p source.toByteArray i := by
        by_contra hlt
        rw [getElem?_pos source.toByteArray _ (Nat.lt_of_not_le hlt)] at hc
        cases hc
      rw [Nat.le_antisymm hsize hge]
      exact onCharacter_size source
  | some c =>
      rw [hc, Option.any_some, Bool.not_eq_true] at hend
      exact (onCharacter_of_ascii hc (hp c hend)).1

theorem isBlank_ascii {c : UInt8} (h : isBlank c = true) : c < 128 := by
  grind [isBlank]

theorem isDigit_ascii {c : UInt8} (h : isDigit c = true) : c < 128 := by
  grind [isDigit]

theorem isNamePart_ascii {c : UInt8} (h : isNamePart c = true) : c < 128 := by
  grind [isNamePart, isNameStart, isDigit]

/-- Blanks end between characters. -/
theorem gap_onCharacter (hi : OnCharacter source i) :
    OnCharacter source (gap source.toByteArray i) :=
  (runEnd_spec isBlank source.toByteArray i).1.onCharacter (fun _ => isBlank_ascii) hi

/-! ### Excerpts -/

/-- Bytes that encode a text are decoded to it. -/
theorem decode_of_isValidUTF8 {b : ByteArray} (h : b.IsValidUTF8) :
    Utf8.decode b = String.fromUTF8 b h := by
  rw [Utf8.decode, String.fromUTF8?, dif_pos h, Option.getD_some]

theorem toByteArray_left (v w : String) :
    v.toByteArray = (v ++ w).toByteArray.extract 0 v.utf8ByteSize := by
  rw [String.toByteArray_append, ByteArray.extract_append_eq_left String.size_toByteArray.symm]

/-- **What is read between two characters is what the text says there.** -/
theorem excerpt_textBetween (hi : OnCharacter source i) (hj : OnCharacter source j) (hij : i ≤ j) :
    Excerpt source i j (textBetween source.toByteArray i j) := by
  have hvalid : (source.toByteArray.extract i j).IsValidUTF8 :=
    (String.Pos.Raw.isValidUTF8_extract_iff ⟨i⟩ ⟨j⟩ hij hj.le_size).mpr (.inr ⟨hi, hj⟩)
  obtain ⟨before, rest, hsource, rfl⟩ := onCharacter_iff.mp hi
  obtain ⟨front, after, hsource', rfl⟩ := onCharacter_iff.mp hj
  have happend : before ++ textBetween source.toByteArray before.utf8ByteSize
      front.utf8ByteSize = front := by
    rw [← String.toByteArray_inj, String.toByteArray_append, textBetween,
      decode_of_isValidUTF8 hvalid, toByteArray_left before rest, ← hsource,
      toByteArray_left front after, ← hsource']
    exact (ByteArray.extract_eq_extract_append_extract _ (Nat.zero_le _) hij).symm
  exact ⟨before, after, by rw [happend, hsource'], rfl, by rw [happend]⟩

namespace Excerpt

theorem left (h : Excerpt source i j w) : OnCharacter source i := by
  obtain ⟨before, after, rfl, rfl, -⟩ := h
  exact onCharacter_iff.mpr ⟨before, w ++ after, String.append_assoc .., rfl⟩

theorem right (h : Excerpt source i j w) : OnCharacter source j := by
  obtain ⟨before, after, rfl, -, rfl⟩ := h
  exact onCharacter_iff.mpr ⟨before ++ w, after, rfl, rfl⟩

theorem isExcerpt (h : Excerpt source i j w) : IsExcerpt source w := ⟨i, j, h⟩

/-- An excerpt is as long as its piece of the source. -/
theorem size (h : Excerpt source i j w) : j = i + w.utf8ByteSize := by
  obtain ⟨before, after, -, rfl, rfl⟩ := h
  exact String.utf8ByteSize_append

/-- The bytes of an excerpt. -/
theorem byte (h : Excerpt source i j w) (hk : k < w.utf8ByteSize) :
    source.toByteArray[i + k]? = w.toByteArray[k]? := by
  obtain ⟨before, after, rfl, rfl, -⟩ := h
  rw [String.append_assoc, append_getElem?_right (Nat.le_add_right ..), Nat.add_sub_cancel_left,
    append_getElem?_left hk]

/-- The first byte of an excerpt is that of its first character. -/
theorem first_byte {x : Char} (h : Excerpt source i j w) (hw : w.toList.head? = some x) :
    source.toByteArray[i]? = (String.utf8EncodeChar x).head? := by
  obtain ⟨before, after, rfl, rfl, -⟩ := h
  obtain ⟨rest, hrest⟩ := List.head?_eq_some_iff.mp hw
  rw [String.append_assoc, append_getElem?_right (Nat.le_refl _), Nat.sub_self,
    toByteArray_getElem?, String.toList_append, hrest, List.cons_append, List.flatMap_cons,
    List.getElem?_append_left (List.length_pos_of_ne_nil String.utf8EncodeChar_ne_nil),
    List.head?_eq_getElem?]

theorem le (h : Excerpt source i j w) : i ≤ j := h.size ▸ Nat.le_add_right ..

/-- The bytes of an excerpt are those of its piece of the source. -/
theorem toByteArray (h : Excerpt source i j w) :
    w.toByteArray = source.toByteArray.extract i j := by
  obtain ⟨before, after, rfl, rfl, rfl⟩ := h
  have hrest := ByteArray.extract_append_size_add (a := before.toByteArray)
    (b := (w ++ after).toByteArray) (i := 0) (j := w.utf8ByteSize)
  rw [Nat.add_zero, String.size_toByteArray] at hrest
  rw [String.append_assoc, String.toByteArray_append, String.utf8ByteSize_append, hrest,
    ← toByteArray_left w after]

/-- Between two places there is one excerpt. -/
theorem unique (h : Excerpt source i j v) (h' : Excerpt source i j w) : v = w :=
  String.toByteArray_inj.mp (h.toByteArray.trans h'.toByteArray.symm)

/-- An excerpt that another one follows. -/
theorem append (h : Excerpt source i j v) (h' : Excerpt source j k w) :
    Excerpt source i k (v ++ w) := by
  have hwhole := excerpt_textBetween h.left h'.right (Nat.le_trans h.le h'.le)
  have hbytes : (v ++ w).toByteArray = (textBetween source.toByteArray i k).toByteArray := by
    rw [hwhole.toByteArray, String.toByteArray_append, h.toByteArray, h'.toByteArray]
    exact (ByteArray.extract_eq_extract_append_extract j h.le h'.le).symm
  rwa [String.toByteArray_inj.mp hbytes]

/-- An excerpt that is split where a character begins. -/
theorem split (h : Excerpt source i k w) (hj : OnCharacter source j) (hij : i ≤ j) (hjk : j ≤ k) :
    ∃ u v, w = u ++ v ∧ Excerpt source i j u ∧ Excerpt source j k v := by
  have hleft := excerpt_textBetween h.left hj hij
  have hright := excerpt_textBetween hj h.right hjk
  exact ⟨_, _, h.unique (hleft.append hright), hleft, hright⟩

end Excerpt

/-! ### Tokens -/

theorem drop_of_standsAt {text : ByteArray} {word : List UInt8}
    (h : standsAt text i word = true) : word <+: text.data.toList.drop i := by
  induction word generalizing i with
  | nil => exact List.nil_prefix
  | cons c rest ih =>
      obtain ⟨hc, hrest⟩ := Bool.and_eq_true_iff.mp h
      have hc : text.data.toList[i]? = some c :=
        (Position.getElem?_toList text i).trans (beq_iff_eq.mp hc)
      obtain ⟨hlt, hi⟩ := List.getElem?_eq_some_iff.mp hc
      rw [List.drop_eq_getElem_cons hlt, hi]
      exact List.cons_prefix_cons.mpr ⟨rfl, ih hrest⟩

/-- A token that stands in the text is an excerpt of it. -/
theorem standsAt_excerpt {word : String} (hi : OnCharacter source i)
    (h : standsAt source.toByteArray i word.toByteArray.data.toList = true) :
    Excerpt source i (i + word.utf8ByteSize) word := by
  have hlength : word.toByteArray.data.toList.length = word.utf8ByteSize := by
    rw [← String.size_toByteArray, ← ByteArray.size_data, Array.length_toList]
  have hbytes : source.toByteArray.extract i (i + word.utf8ByteSize) = word.toByteArray := by
    refine ByteArray.ext (Array.toList_inj.mp ?_)
    rw [ByteArray.data_extract, Array.toList_extract, List.extract_eq_take_drop,
      Nat.add_sub_cancel_left, ← hlength]
    exact (List.prefix_iff_eq_take.mp (drop_of_standsAt h)).symm
  have hsize := standsAt_le hi.le_size h
  rw [hlength] at hsize
  have hj : OnCharacter source (i + word.utf8ByteSize) := by
    rcases (String.Pos.Raw.isValidUTF8_extract_iff ⟨i⟩ ⟨i + word.utf8ByteSize⟩
      (Nat.le_add_right ..) hsize).mp (hbytes ▸ word.isValidUTF8) with heq | ⟨-, hj⟩
    · rw [OnCharacter, ← heq]
      exact hi
    · exact hj
  have hexcerpt := excerpt_textBetween hi hj (Nat.le_add_right ..)
  rwa [String.toByteArray_inj.mp (hexcerpt.toByteArray.trans hbytes)] at hexcerpt

/-- An ASCII byte is an excerpt by itself. -/
theorem excerpt_byte (mark : String) (hmark : mark.toByteArray.data.toList = [c]) (hc : c < 128)
    (h : source.toByteArray[i]? = some c) : Excerpt source i (i + 1) mark := by
  have hone : mark.utf8ByteSize = 1 := by
    rw [← String.size_toByteArray, ← ByteArray.size_data, ← Array.length_toList, hmark,
      List.length_singleton]
  have hstands : standsAt source.toByteArray i mark.toByteArray.data.toList = true := by
    rw [hmark]
    change (source.toByteArray[i]? == some c && true) = true
    rw [h, Bool.and_true, beq_self_eq_true]
  exact hone ▸ standsAt_excerpt (onCharacter_of_ascii h hc).1 hstands

end Mosaic
