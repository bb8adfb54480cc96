import Mosaic.Proofs.Reading.Stretch

/-!
# Reading — a line that is put into a text

A text and the same text with a line inserted agree on the bytes before the line and on the ones
after it (`Insertion`): on two stretches, as long as the line begins with a line feed
(`Insertion.head`, `Insertion.tail`).  The bytes of a line are told by its characters
(`any_toByteArray`).
-/

namespace Mosaic

/-- The second text is the first one with `length` bytes inserted at `place`, of which the first one
is a line feed. -/
structure Insertion where
  first : ByteArray
  second : ByteArray
  place : Nat
  length : Nat
  before : ∀ k < place, second[k]? = first[k]?
  after : ∀ k, place ≤ k → second[k + length]? = first[k]?
  lineFeed : second[place]? = some 10

namespace Insertion

variable (I : Insertion)

/-- What is before the line. -/
def head : Stretch where
  first := I.first
  second := I.second
  lo := 0
  hi := I.place
  shift := 0
  byte k _ hk := I.before k hk
  seam c hc := by
    obtain rfl : 10 = c := Option.some.inj (I.lineFeed.symm.trans hc)
    decide

/-- What is after the line, up to some place after the end of the text. -/
def tail (hi : Nat) (h : I.first.size ≤ hi) (hplace : I.place ≤ hi) : Stretch where
  first := I.first
  second := I.second
  lo := I.place
  hi := hi
  shift := I.length
  byte k hk _ := I.after k hk
  seam c hc := by
    rw [I.after hi hplace, getElem?_neg I.first hi (by omega)] at hc
    cases hc

/-- Blanks up to the line. -/
theorem allBytes_head {p : UInt8 → Bool} {i : Nat} (h : AllBytes p I.first i I.place) :
    AllBytes p I.second i I.place :=
  ⟨h.1, fun k hk hk' => I.before k hk' ▸ h.2 k hk hk'⟩

end Insertion

/-! ### Bytes of texts -/

theorem append_getElem?_left {s : String} {k : Nat} (hk : k < s.utf8ByteSize) (t : String) :
    (s ++ t).toByteArray[k]? = s.toByteArray[k]? := by
  rw [← String.size_toByteArray] at hk
  change (s ++ t).toByteArray.data[k]? = s.toByteArray.data[k]?
  rw [String.toByteArray_append, ByteArray.data_append, Array.getElem?_append_left hk]

theorem append_getElem?_right {s : String} {k : Nat} (hk : s.utf8ByteSize ≤ k) (t : String) :
    (s ++ t).toByteArray[k]? = t.toByteArray[k - s.utf8ByteSize]? := by
  rw [← String.size_toByteArray] at hk ⊢
  change (s ++ t).toByteArray.data[k]? = t.toByteArray.data[k - s.toByteArray.data.size]?
  rw [String.toByteArray_append, ByteArray.data_append, Array.getElem?_append_right hk]

theorem toByteArray_getElem? (s : String) (k : Nat) :
    s.toByteArray[k]? = (s.toList.flatMap String.utf8EncodeChar)[k]? := by
  have hdata : s.toByteArray.data = (s.toList.flatMap String.utf8EncodeChar).toArray := by
    rw [← String.utf8Encode_toList]
    exact List.data_toByteArray
  change s.toByteArray.data[k]? = _
  rw [hdata, List.getElem?_toArray]

/-- What holds of the bytes of all characters holds of the bytes of the text. -/
theorem any_toByteArray {p : UInt8 → Bool} {s : String}
    (h : ∀ c ∈ s.toList, ∀ b ∈ String.utf8EncodeChar c, p b = true) {k : Nat}
    (hk : k < s.utf8ByteSize) : (s.toByteArray[k]?).any p := by
  rw [← String.size_toByteArray] at hk
  have hbyte := getElem?_pos s.toByteArray k hk
  rw [hbyte, Option.any_some]
  rw [toByteArray_getElem?] at hbyte
  obtain ⟨c, hc, hb⟩ := List.mem_flatMap.mp (List.mem_of_getElem? hbyte)
  exact h c hc _ hb

/-- A character is one byte, which has its number, or several bytes that are above all of these. -/
theorem mem_utf8EncodeChar {c : Char} {b : UInt8} (hb : b ∈ String.utf8EncodeChar c) :
    b.toNat = c.val.toNat ∨ 128 ≤ b.toNat := by
  have hmarked {n m : Nat} (hb : b = UInt8.ofNat (n + m)) (hm : 128 ≤ m) (hn : n + m < 256) :
      128 ≤ b.toNat := by
    rw [hb, UInt8.toNat_ofNat_of_lt' hn]
    exact Nat.le_trans hm (Nat.le_add_left m n)
  rw [String.utf8EncodeChar] at hb
  split_ifs at hb with hone htwo hthree
  · rw [List.mem_singleton.mp hb, UInt8.toNat_ofNat_of_lt' (Nat.lt_of_le_of_lt hone (by decide))]
    exact .inl rfl
  all_goals
    simp only [List.mem_cons, List.not_mem_nil, or_false] at hb
    casesm* _ ∨ _ <;> exact .inr (hmarked ‹_› (by decide) (by omega))

/-- No character that is not a control character has a byte that is one. -/
theorem le_of_mem_utf8EncodeChar {c : Char} (h : ' ' ≤ c) {b : UInt8}
    (hb : b ∈ String.utf8EncodeChar c) : 32 ≤ b := by
  have hc : 32 ≤ c.val.toNat := UInt32.le_iff_toNat_le.mp h
  rw [UInt8.le_iff_toNat_le]
  change 32 ≤ b.toNat
  have := mem_utf8EncodeChar hb
  omega

/-- A text that does not begin with an ASCII character does not begin with its byte. -/
theorem toByteArray_head_ne {s : String} {c : Char} (hc : c.val.toNat < 128)
    (h : s.toList.head? ≠ some c) : s.toByteArray[0]? ≠ some c.toUInt8 := by
  rw [toByteArray_getElem?]
  cases hs : s.toList with
  | nil => exact (nomatch ·)
  | cons x l =>
      rw [List.flatMap_cons, List.getElem?_append_left (List.length_pos_of_ne_nil
        String.utf8EncodeChar_ne_nil)]
      intro hbyte
      have hb := mem_utf8EncodeChar (List.mem_of_getElem? hbyte)
      have hcb : c.toUInt8.toNat = c.val.toNat := UInt8.toNat_ofNat_of_lt' (by
        exact Nat.lt_trans hc (by decide))
      obtain rfl : x = c := Char.ext (UInt32.toNat_inj.mp (by omega))
      exact h (by rw [hs, List.head?_cons])

/-- A line between two texts. -/
def Insertion.between (s line t : String) (hline : 0 < line.utf8ByteSize)
    (h : line.toByteArray[0]? = some 10) : Insertion where
  first := (s ++ t).toByteArray
  second := (s ++ line ++ t).toByteArray
  place := s.utf8ByteSize
  length := line.utf8ByteSize
  before k hk := by
    have hk' : k < (s ++ line).utf8ByteSize := by
      rw [String.utf8ByteSize_append]
      omega
    rw [append_getElem?_left hk', append_getElem?_left hk, append_getElem?_left hk]
  after k hk := by
    have hk' : (s ++ line).utf8ByteSize ≤ k + line.utf8ByteSize := by
      rw [String.utf8ByteSize_append]
      omega
    rw [append_getElem?_right hk', append_getElem?_right hk, String.utf8ByteSize_append,
      Nat.add_sub_add_right]
  lineFeed := by
    have hplace : s.utf8ByteSize < (s ++ line).utf8ByteSize := by
      rw [String.utf8ByteSize_append]
      omega
    rw [append_getElem?_left hplace, append_getElem?_right (Nat.le_refl _), Nat.sub_self, h]

theorem Insertion.between_line {s line t : String} {hline : 0 < line.utf8ByteSize}
    {h : line.toByteArray[0]? = some 10} {k : Nat} (hk : k < line.utf8ByteSize) :
    (between s line t hline h).second[s.utf8ByteSize + k]? = line.toByteArray[k]? := by
  have hk' : s.utf8ByteSize + k < (s ++ line).utf8ByteSize := by
    rw [String.utf8ByteSize_append]
    omega
  change (s ++ line ++ t).toByteArray[s.utf8ByteSize + k]? = _
  rw [append_getElem?_left hk', append_getElem?_right (Nat.le_add_right _ _),
    Nat.add_sub_cancel_left]

end Mosaic
