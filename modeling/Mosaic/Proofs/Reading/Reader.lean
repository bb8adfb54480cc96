import Mosaic.Proofs.Descent
import Mosaic.Reading.Reader

/-!
# Reading — what the cursor does

* `AllBytes`, `gap`: runs of bytes of one kind, and the first byte that is not blank.  A run that is
  followed by a byte of another kind is what skipping finds (`runEnd_eq`).
* `Token`: a byte that comes next, after blanks.  A token of one byte is taken if it comes next
  (`Reader.eat_eq`).
* `Reader.iterate_of_inl`, `Reader.iterate_of_inr`, `Reader.iterate_ok`: loops.
-/

namespace Mosaic

variable {text : ByteArray} {p : UInt8 → Bool} {i j k : Nat} {c : Char}

/-- All bytes from `i` up to `j` satisfy `p`. -/
def AllBytes (p : UInt8 → Bool) (text : ByteArray) (i j : Nat) : Prop :=
  i ≤ j ∧ ∀ k, i ≤ k → k < j → (text[k]?).any p

namespace AllBytes

theorem refl : AllBytes p text i i := ⟨Nat.le_refl i, fun _ hk hk' => by omega⟩

theorem head (h : AllBytes p text i j) (hi : i < j) : (text[i]?).any p := h.2 i (Nat.le_refl i) hi

theorem cons (hi : (text[i]?).any p) (h : AllBytes p text (i + 1) j) : AllBytes p text i j := by
  refine ⟨by have := h.1; omega, fun k hk hk' => ?_⟩
  rcases Nat.eq_or_lt_of_le hk with rfl | hk
  · exact hi
  · exact h.2 k hk hk'

theorem trans (h : AllBytes p text i j) (h' : AllBytes p text j k) : AllBytes p text i k := by
  refine ⟨Nat.le_trans h.1 h'.1, fun m hm hm' => ?_⟩
  rcases Nat.lt_or_ge m j with hj | hj
  · exact h.2 m hm hj
  · exact h'.2 m hj hm'

end AllBytes

/-- A run is as long as it can be. -/
theorem runEnd_spec (p : UInt8 → Bool) (text : ByteArray) (i : Nat) :
    AllBytes p text i (runEnd p text i) ∧ ¬ (text[runEnd p text i]?).any p := by
  fun_induction runEnd p text i with
  | case1 i hi hp ih => exact ⟨.cons (by simpa [hi] using hp) ih.1, ih.2⟩
  | case2 i hi hp => exact ⟨.refl, by simpa [hi] using hp⟩
  | case3 i hi => exact ⟨.refl, by simp [getElem?_neg text i hi]⟩

/-- A run that is followed by a byte of another kind, or by nothing, ends there. -/
theorem runEnd_eq (h : AllBytes p text i j) (hj : ¬ (text[j]?).any p) : runEnd p text i = j := by
  obtain ⟨⟨hle, hrun⟩, hend⟩ := runEnd_spec p text i
  rcases Nat.lt_trichotomy (runEnd p text i) j with hlt | heq | hgt
  · exact absurd (h.2 _ hle hlt) hend
  · exact heq
  · exact absurd (hrun j h.1 hgt) hj

/-- A run does not go past a byte of another kind. -/
theorem runEnd_le_of_not (hij : i ≤ j) (hj : ¬ (text[j]?).any p) : runEnd p text i ≤ j := by
  by_contra hlt
  exact hj ((runEnd_spec p text i).1.2 j hij (Nat.lt_of_not_le hlt))

/-! ### Blanks and tokens -/

/-- The first place from `i` on where there is no blank. -/
def gap (text : ByteArray) (i : Nat) : Nat := runEnd isBlank text i

theorem le_gap (text : ByteArray) (i : Nat) : i ≤ gap text i := (runEnd_spec isBlank text i).1.1

/-- Behind blanks stands something else, or nothing. -/
theorem not_blank_gap (text : ByteArray) (i : Nat) : ¬ (text[gap text i]?).any isBlank :=
  (runEnd_spec isBlank text i).2

theorem gap_eq (hi : ¬ (text[i]?).any isBlank) : gap text i = i := runEnd_eq .refl hi

@[simp] theorem gap_gap (text : ByteArray) (i : Nat) : gap text (gap text i) = gap text i :=
  gap_eq (not_blank_gap text i)

/-- Blanks may be left out before a token. -/
theorem gap_of_blanks (h : AllBytes isBlank text i j) : gap text i = gap text j :=
  runEnd_eq (h.trans (runEnd_spec isBlank text j).1) (not_blank_gap text j)

/-- Only blanks are left. -/
theorem gap_eq_size_iff :
    gap text i = text.size ↔ AllBytes isBlank text i text.size := by
  constructor
  · intro h
    have := (runEnd_spec isBlank text i).1
    rwa [show runEnd isBlank text i = text.size from h] at this
  · intro h
    exact runEnd_eq h (by simp)

/-- The character `c` comes next, after blanks, and ends before `j`. -/
structure Token (text : ByteArray) (c : Char) (i j : Nat) : Prop where
  byte : text[gap text i]? = some c.toUInt8
  stop : j = gap text i + 1

/-- A token takes something. -/
theorem Token.lt (h : Token text c i j) : i < j ∧ gap text i < j ∧ gap text i < text.size := by
  have hlt : gap text i < text.size := by
    by_contra hge
    have := h.byte
    rw [getElem?_neg text _ hge] at this
    cases this
  have := le_gap text i
  have := h.stop
  omega

/-- Blanks before a token do not count. -/
theorem Token.of_gap (h : Token text c i j) (hk : gap text i = gap text k) : Token text c k j :=
  ⟨hk ▸ h.byte, hk ▸ h.stop⟩

namespace Reader

variable {β δ σ : Type} {b : β} {s : σ} {token : String}

/-- What follows a computation that answers. -/
theorem bind_of_ok {x : Reader β} {f : β → Reader δ} (h : x text i = .ok b j) :
    (x >>= f) text i = f b text j := by
  change EStateM.bind (x text) (f · text) i = _
  rw [EStateM.bind, h]

/-- A token of one character is taken if it is the next one after blanks. -/
theorem eat_eq (htoken : token.toByteArray.data.toList = [c.toUInt8]) (text : ByteArray) (i : Nat) :
    eat token text i =
      if text[gap text i]? = some c.toUInt8 then .ok true (gap text i + 1)
      else .ok false (gap text i) := by
  have hsize : token.utf8ByteSize = 1 := by
    rw [← String.size_toByteArray, ← ByteArray.size_data, ← Array.length_toList, htoken]
    rfl
  change (if standsAt text (gap text i) token.toByteArray.data.toList then _ else _ : Reader Bool)
    text _ = _
  simp only [htoken, standsAt, Bool.and_true, beq_iff_eq]
  split
  · change EStateM.Result.ok true (gap text i + token.utf8ByteSize) = _
    rw [hsize]
  · rfl

/-- A token of one byte is taken if it comes next; blanks before it are skipped anyhow. -/
theorem eat_ok (htoken : token.toByteArray.data.toList = [c.toUInt8]) {taken : Bool}
    (h : eat token text i = .ok taken j) :
    (taken = true ∧ Token text c i j) ∨
      (taken = false ∧ j = gap text i ∧ text[gap text i]? ≠ some c.toUInt8) := by
  rw [eat_eq htoken] at h
  split at h
  · rename_i hc
    cases h
    exact Or.inl ⟨rfl, hc, rfl⟩
  · rename_i hc
    cases h
    exact Or.inr ⟨rfl, rfl, hc⟩

theorem eat_of_token (htoken : token.toByteArray.data.toList = [c.toUInt8]) (h : Token text c i j) :
    eat token text i = .ok true j := by
  rw [eat_eq htoken, if_pos h.byte, h.stop]

theorem eat_of_ne (htoken : token.toByteArray.data.toList = [c.toUInt8])
    (h : text[gap text i]? ≠ some c.toUInt8) : eat token text i = .ok false (gap text i) := by
  rw [eat_eq htoken, if_neg h]

/-- A token that has been expected was there. -/
theorem expect_ok (htoken : token.toByteArray.data.toList = [c.toUInt8]) {u : Unit}
    (h : expect token text i = .ok u j) : Token text c i j := by
  obtain ⟨taken, k, htaken, h⟩ := bind_ok.mp h
  rcases eat_ok htoken htaken with ⟨rfl, ht⟩ | ⟨rfl, -, -⟩
  · cases h
    exact ht
  · cases h

theorem expect_of_token (htoken : token.toByteArray.data.toList = [c.toUInt8])
    (h : Token text c i j) : expect token text i = .ok () j :=
  bind_ok.mpr ⟨true, j, eat_of_token htoken h, rfl⟩

/-! ### Loops -/

variable {step : σ → Reader (σ ⊕ β)}

/-- A round that goes on, and the loop after it. -/
theorem iterate_of_inl {s' : σ} (hstep : step s text i = .ok (.inl s') j) (hij : i < j)
    (hi : i < text.size) : iterate step s text i = iterate step s' text j :=
  descend_of_inl hstep (Or.inl (Nat.sub_lt_sub_left hi hij))

/-- A round that answers ends the loop. -/
theorem iterate_of_inr (hstep : step s text i = .ok (.inr b) j) :
    iterate step s text i = .ok b j :=
  descend_of_inr hstep

/-- A loop that answers has kept what every round keeps, up to the round that answers. -/
theorem iterate_ok {P : σ → Nat → Prop} (hs : P s i)
    (hP : ∀ s i s' j, P s i → step s text i = .ok (.inl s') j → P s' j)
    (h : iterate step s text i = .ok b j) :
    ∃ s' k, P s' k ∧ step s' text k = .ok (.inr b) j := by
  obtain ⟨s', k, hrounds, hstep⟩ := descend_ok h
  exact ⟨s', k, hrounds.keeps (fun _ _ _ _ _ => hP _ _ _ _) hs, hstep⟩

end Reader

end Mosaic
