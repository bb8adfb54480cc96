/-!
# Text — bytes that may not be characters

A piece cut out of a text by byte offsets may begin or end inside a character. `Utf8.decode` reads
it all the same: every maximal piece that cannot begin a character becomes one replacement
character. Bytes that are text are read as that text.
-/

namespace Mosaic.Utf8

/-- The character that stands for what cannot be decoded. -/
def replacement : Char := '\uFFFD'

/-- Whether `c` continues a character. -/
def isContinuation (c : UInt8) : Bool := 0x80 ≤ c && c < 0xC0

/-- Whether `c` may follow the lead byte `lead` of a character of three or four bytes: beside the
shape of the byte, this excludes overlong forms, surrogates and values beyond the last character. -/
def mayFollow (lead c : UInt8) : Bool :=
  if lead == 0xE0 then 0xA0 ≤ c && c < 0xC0
  else if lead == 0xED then 0x80 ≤ c && c < 0xA0
  else if lead == 0xF0 then 0x90 ≤ c && c < 0xC0
  else if lead == 0xF4 then 0x80 ≤ c && c < 0x90
  else 0xE1 ≤ lead && lead < 0xF4 && isContinuation c

/-- Length of the maximal piece at `i` that begins a character and breaks off; at least one. -/
def brokenLength (b : ByteArray) (i : Nat) : Nat :=
  let lead := (b[i]?).getD 0
  if ((b[i + 1]?).any (mayFollow lead)) then
    if 0xF0 ≤ lead && (b[i + 2]?).any isContinuation then 3 else 2
  else 1

theorem brokenLength_pos (b : ByteArray) (i : Nat) : 0 < brokenLength b i := by
  dsimp only [brokenLength]
  split
  · split <;> decide
  · decide

/-- The characters of `b` from `i` on, appended to `done`. -/
def decodeFrom (b : ByteArray) (i : Nat) (done : String) : String :=
  if _h : i < b.size then
    match b.utf8DecodeChar? i with
    | some c => decodeFrom b (i + c.utf8Size) (done.push c)
    | none => decodeFrom b (i + brokenLength b i) (done.push replacement)
  else done
termination_by b.size - i
decreasing_by
  · have := c.utf8Size_pos
    omega
  · have := brokenLength_pos b i
    omega

/-- The text of a sequence of bytes, with a replacement character for each broken piece. -/
def decode (b : ByteArray) : String := (String.fromUTF8? b).getD (decodeFrom b 0 "")

end Mosaic.Utf8
