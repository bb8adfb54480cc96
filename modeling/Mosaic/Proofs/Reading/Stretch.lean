import Mosaic.Proofs.Expression.Numeral
import Mosaic.Proofs.Lockstep
import Mosaic.Proofs.Reading.Reader

/-!
# Reading — a stretch that two texts share

Two texts agree on a `Stretch` of bytes that lies `shift` bytes further on in the second one.  What
is read inside of it from the first text is read from the second one (`Stretch.lockstep`).  Numbers
look up to three bytes ahead for an exponent; there is none that only the second text has, because
after the stretch it ends or has a control character.

* `eat_tests`, `expect_closes`, `identifier_follows`, `takeUntil_follows`, `numeral_follows`, …: one
  lemma for each token.
-/

namespace Mosaic

/-- A stretch of bytes that two texts share. -/
structure Stretch where
  first : ByteArray
  second : ByteArray
  lo : Nat
  hi : Nat
  shift : Nat
  byte : ∀ k, lo ≤ k → k < hi → second[k + shift]? = first[k]?
  seam : ∀ c, second[hi + shift]? = some c → c < 32

namespace Stretch

variable (S : Stretch) {p : UInt8 → Bool} {i j stop n : Nat}

/-- A place of the stretch is inside both texts or outside of both. -/
theorem lt_size (hi : S.lo ≤ i) (hj : i < S.hi) :
    i < S.first.size ↔ i + S.shift < S.second.size := by
  have h := S.byte i hi hj
  by_cases hlt : i < S.first.size
  · rw [getElem?_pos S.first i hlt] at h
    have : i + S.shift < S.second.size := by
      by_contra hge
      rw [getElem?_neg S.second _ hge] at h
      cases h
    exact iff_of_true hlt this
  · rw [getElem?_neg S.first i hlt] at h
    have : ¬ i + S.shift < S.second.size := by
      intro hlt'
      rw [getElem?_pos S.second _ hlt'] at h
      cases h
    exact iff_of_false hlt this

/-- The comparison of two runs on the stretch. -/
def lockstep (exact : Prop) : Lockstep ParseError Nat where
  first := S.first
  second := S.second
  place := id
  exact := exact
  leads i j := i ≤ j
  inside i := i < S.hi
  reached i := i ≤ S.hi
  like i u := S.lo ≤ i ∧ u = i + S.shift
  lets _ _ := True
  refl := Nat.le_refl
  trans := Nat.le_trans
  lets_of_leads _ h := h
  reached_of_inside := Nat.le_of_lt
  inside_of_leads := Nat.lt_of_le_of_lt
  reached_of_leads := Nat.le_trans
  advances {i j u v} _ hj hu hv hij hsize := by
    obtain ⟨hlo, rfl⟩ := hu
    obtain ⟨-, rfl⟩ := hv
    refine ⟨Nat.add_lt_add_right hij _, ?_⟩
    exact (S.lt_size hlo (Nat.lt_of_lt_of_le hij hj)).mp hsize

/-! ### Runs of bytes -/

/-- A run of bytes in the stretch is a run in the other text, and ends there if it is not longer. -/
theorem runEnd_shift_of_stop (hlo : S.lo ≤ i) (hj : runEnd p S.first i ≤ S.hi)
    (hstop : ¬ (S.second[runEnd p S.first i + S.shift]?).any p = true) :
    runEnd p S.second (i + S.shift) = runEnd p S.first i + S.shift := by
  obtain ⟨⟨hle, hrun⟩, -⟩ := runEnd_spec p S.first i
  refine runEnd_eq ⟨by omega, fun k hk hk' => ?_⟩ hstop
  obtain ⟨k, rfl⟩ : ∃ m, k = m + S.shift := ⟨k - S.shift, by omega⟩
  rw [S.byte k (by omega) (by omega)]
  exact hrun k (by omega) (by omega)

/-- A run that ends in the stretch ends there in both texts. -/
theorem runEnd_shift (hlo : S.lo ≤ i) (hj : runEnd p S.first i < S.hi) :
    runEnd p S.second (i + S.shift) = runEnd p S.first i + S.shift := by
  obtain ⟨⟨hle, -⟩, hend⟩ := runEnd_spec p S.first i
  refine S.runEnd_shift_of_stop hlo (Nat.le_of_lt hj) ?_
  rwa [S.byte _ (by omega) hj]

/-- Blanks that end in the stretch end there in both texts. -/
theorem gap_shift (hlo : S.lo ≤ i) (hj : gap S.first i < S.hi) :
    gap S.second (i + S.shift) = gap S.first i + S.shift := S.runEnd_shift hlo hj

/-- The bytes of a piece of a text. -/
theorem getElem?_data_extract (text : ByteArray) (i j k : Nat) :
    (text.extract i j).data[k]? = if i + k < j then text[i + k]? else none := by
  rw [ByteArray.data_extract, Array.getElem?_extract]
  change (if _ then text[i + k]? else none) = _
  by_cases hk : i + k < text.size
  · have hiff : k < min j text.data.size - i ↔ i + k < j := by
      change k < min j text.size - i ↔ _
      omega
    simp only [hiff]
  · rw [getElem?_neg text _ hk, ite_self, ite_self]

/-- What is cut out of the stretch is the same in both texts. -/
theorem textBetween_shift (hlo : S.lo ≤ i) (hj : j ≤ S.hi) :
    textBetween S.second (i + S.shift) (j + S.shift) = textBetween S.first i j := by
  have hextract : S.second.extract (i + S.shift) (j + S.shift) = S.first.extract i j := by
    refine ByteArray.ext (Array.ext_getElem? fun k => ?_)
    rw [getElem?_data_extract, getElem?_data_extract, Nat.add_right_comm]
    by_cases hk : i + k < j
    · rw [if_pos hk, if_pos (by omega), S.byte _ (by omega) (by omega)]
    · rw [if_neg hk, if_neg (by omega)]
  rw [textBetween, hextract, textBetween]

theorem textBetween_empty (text : ByteArray) (h : j ≤ i) :
    textBetween text i j = Utf8.decode ByteArray.empty := by
  have hextract : text.extract i j = ByteArray.empty :=
    ByteArray.ext (Array.ext_getElem? fun k => by
      rw [getElem?_data_extract, if_neg (by omega)]
      rfl)
  rw [textBetween, hextract]

/-- The same of all but the last byte. -/
theorem textBetween_pred_shift (hlo : S.lo ≤ i) (hij : i ≤ j) (hj : j ≤ S.hi) :
    textBetween S.second (i + S.shift) (j + S.shift - 1) = textBetween S.first i (j - 1) := by
  rcases Nat.eq_zero_or_pos j with rfl | hpos
  · rw [textBetween_empty S.second (by omega), textBetween_empty S.first (by omega)]
  · rw [show j + S.shift - 1 = j - 1 + S.shift by omega, S.textBetween_shift hlo (by omega)]

/-! ### Numbers -/

/-- An exponent inside the stretch has one value. -/
theorem exponentValue_shift (hlo : S.lo ≤ i) (hstop : stop ≤ S.hi) :
    exponentValue S.second (i + S.shift) (stop + S.shift) n =
      exponentValue S.first i stop n := by
  fun_induction exponentValue S.first i stop n with
  | case1 i n h ih =>
      rw [exponentValue, if_pos ⟨by omega, h.2⟩, S.byte i hlo (by omega), Nat.add_right_comm]
      exact ih (by omega)
  | case2 i n h =>
      rw [exponentValue, if_neg (by omega)]

/-- Digits inside the stretch have one value. -/
theorem digitsValue_shift (hlo : S.lo ≤ i) (hstop : stop ≤ S.hi) :
    digitsValue S.second (i + S.shift) (stop + S.shift) = digitsValue S.first i stop := by
  fun_induction digitsValue S.first i stop with
  | case1 i stop h mid ih₁ ih₂ =>
      have hmid : (i + S.shift + (stop + S.shift)) / 2 = mid + S.shift := by omega
      rw [digitsValue, dif_pos (by omega)]
      dsimp only
      rw [hmid, ih₁ hlo (by omega), ih₂ (by omega) hstop, Nat.add_sub_add_right]
  | case2 i stop h hlt =>
      rw [digitsValue, dif_neg (by omega), if_pos (by omega), S.byte i hlo (by omega)]
  | case3 i stop h hlt =>
      rw [digitsValue, dif_neg (by omega), if_neg (by omega)]

/-- A byte up to the end of the stretch that the second text has and that is no control character
is one of the first text. -/
theorem any_first_of_second (hp : ∀ c, p c = true → 32 ≤ c) (hlo : S.lo ≤ i) (hi : i ≤ S.hi)
    (h : (S.second[i + S.shift]?).any p) : i < S.hi ∧ (S.first[i]?).any p := by
  rcases Nat.lt_or_eq_of_le hi with hlt | rfl
  · exact ⟨hlt, by rwa [← S.byte i hlo hlt]⟩
  · obtain ⟨c, hc, hpc⟩ := (Option.any_eq_true _ _).mp h
    exact absurd (hp c hpc) (UInt8.not_le.mpr (S.seam c hc))

theorem digit_ge {c : UInt8} (h : isDigit c = true) : 32 ≤ c := by
  rw [isDigit, Bool.and_eq_true, decide_eq_true_eq, decide_eq_true_eq] at h
  exact UInt8.le_trans (by decide) h.1

/-- A run goes on if it begins. -/
theorem lt_runEnd_iff {text : ByteArray} : i < runEnd p text i ↔ (text[i]?).any p := by
  refine ⟨fun h => (runEnd_spec p text i).1.head h, fun h => ?_⟩
  obtain ⟨⟨hle, -⟩, hend⟩ := runEnd_spec p text i
  refine Nat.lt_of_le_of_ne hle fun heq => hend ?_
  rwa [← heq]

/-- A sign. -/
def isSign (c : UInt8) : Bool := c == 43 || c == 45

/-- The digits of an exponent begin behind its sign. -/
theorem exponentStart_eq (text : ByteArray) (i : Nat) :
    Reader.exponentStart text i = if (text[i + 1]?).any isSign then i + 2 else i + 1 := by
  unfold Reader.exponentStart isSign
  cases text[i + 1]? <;> simp

theorem sign_ge {c : UInt8} (h : isSign c = true) : 32 ≤ c := by
  rw [isSign, Bool.or_eq_true, beq_iff_eq, beq_iff_eq] at h
  rcases h with rfl | rfl <;> decide

/-- Where an exponent is taken from the first text, the same is taken from the second one; where
none is, the seam does not make one. -/
theorem exponentTaken_shift (hlo : S.lo ≤ i) (hj : (Reader.exponentTaken S.first i).2 < S.hi) :
    Reader.exponentTaken S.second (i + S.shift) =
      ((Reader.exponentTaken S.first i).1, (Reader.exponentTaken S.first i).2 + S.shift) := by
  unfold Reader.exponentTaken at hj ⊢
  dsimp only at hj ⊢
  by_cases h : ((S.first[i]?).any isMark && decide (Reader.exponentStart S.first i <
      runEnd isDigit S.first (Reader.exponentStart S.first i))) = true
  · rw [if_pos h] at hj ⊢
    obtain ⟨hmark, hlt⟩ := Bool.and_eq_true_iff.mp h
    have hlt := of_decide_eq_true hlt
    have hstart : i + 1 ≤ Reader.exponentStart S.first i := by
      rw [exponentStart_eq]
      split <;> omega
    have hbyte : S.second[i + S.shift + 1]? = S.first[i + 1]? := by
      rw [Nat.add_right_comm]
      exact S.byte _ (by omega) (by omega)
    have hstart' : Reader.exponentStart S.second (i + S.shift) =
        Reader.exponentStart S.first i + S.shift := by
      rw [exponentStart_eq, exponentStart_eq, hbyte]
      split <;> omega
    rw [hstart', S.runEnd_shift (by omega) hj, S.byte i hlo (by omega), hmark, Bool.true_and,
      if_pos (by simpa using hlt), S.exponentValue_shift (by omega) (by omega), hbyte]
  · rw [if_neg h] at hj ⊢
    refine if_neg fun h' => h ?_
    obtain ⟨hmark, hlt⟩ := Bool.and_eq_true_iff.mp h'
    rw [S.byte i hlo hj] at hmark
    have hdigit := lt_runEnd_iff.mp (of_decide_eq_true hlt)
    rw [hmark, Bool.true_and, decide_eq_true_eq, lt_runEnd_iff]
    have hone : i + S.shift + 1 = i + 1 + S.shift := Nat.add_right_comm ..
    have htwo : i + S.shift + 2 = i + 2 + S.shift := Nat.add_right_comm ..
    rw [exponentStart_eq] at hdigit ⊢
    rw [hone, htwo] at hdigit
    by_cases hsign : ((S.second[i + 1 + S.shift]?).any isSign) = true
    · obtain ⟨hin, hsign'⟩ := S.any_first_of_second (fun _ => sign_ge) (by omega) (by omega) hsign
      rw [if_pos hsign] at hdigit
      rw [if_pos hsign']
      exact (S.any_first_of_second (fun _ => digit_ge) (by omega) (by omega) hdigit).2
    · rw [if_neg hsign] at hdigit
      have hdigit' := (S.any_first_of_second (fun _ => digit_ge) (by omega) (by omega) hdigit)
      rw [if_neg, hdigit'.2]
      rwa [← S.byte _ (by omega) hdigit'.1]

/-- The number that is read inside the stretch. -/
theorem numeral_shift (hlo : S.lo ≤ i) {m : Numeral} (h : Reader.numeral S.first i = .ok m j)
    (hj : j < S.hi) : Reader.numeral S.second (i + S.shift) = .ok m (j + S.shift) := by
  rw [Reader.numeral_eq] at h ⊢
  dsimp only at h ⊢
  have hpoint := (runEnd_spec isDigit S.first i).1.1
  generalize hp : runEnd isDigit S.first i = point at h hpoint
  generalize hf : (if S.first[point]? == some 46 then point + 1 else point) = start at h
  have hstart : point ≤ start := by rw [← hf]; split <;> omega
  have hstop := (runEnd_spec isDigit S.first start).1.1
  generalize hs : runEnd isDigit S.first start = stop at h hstop
  have hexp := (Reader.exponentAt_taken S.first stop).le
  -- all parts of the number end before `j`, so each of them is found in the second text
  have hle : (Reader.exponentTaken S.first stop).2 = j := by
    split at h <;> cases h
    rfl
  have hp' : runEnd isDigit S.second (i + S.shift) = point + S.shift := by
    rw [S.runEnd_shift hlo (by omega), hp]
  have hf' : (if S.second[point + S.shift]? == some 46 then point + S.shift + 1
      else point + S.shift) = start + S.shift := by
    rw [S.byte point (by omega) (by omega), ← hf]
    split <;> omega
  have hs' : runEnd isDigit S.second (start + S.shift) = stop + S.shift := by
    rw [S.runEnd_shift (by omega) (by omega), hs]
  rw [hp', hf', hs', S.exponentTaken_shift (by omega) (by omega),
    S.digitsValue_shift hlo (by omega), S.digitsValue_shift (by omega) (by omega)]
  simp only [Nat.add_lt_add_iff_right, Nat.add_sub_add_right]
  split at h
  · cases h
    rw [if_pos ‹_›]
  · cases h

/-! ### Tokens in lockstep -/

section Tokens

open Lockstep

variable {S} {exact : Prop} {β : Type} {c : Char} {token : String}

/-- Readers keep pace if what the first one reads the second one reads further on. -/
theorem steps_of {P : β → Nat → Prop} {R : β → β → Prop} {x y : Reader β}
    (hle : ∀ {i b j}, x S.first i = .ok b j → i ≤ j)
    (h : ∀ {i b j}, x S.first i = .ok b j → P b j → S.lo ≤ i →
      ∃ b', y S.second (i + S.shift) = .ok b' (j + S.shift) ∧ R b b') :
    (S.lockstep exact).Steps P R x y where
  leads := hle
  answers {i b j u} hok hP hu := by
    obtain ⟨hlo, rfl⟩ := hu
    obtain ⟨b', hb', hR⟩ := h hok hP hlo
    change (S.lockstep exact).Answers R b j (y S.second (i + S.shift))
    rw [hb']
    exact .ok hR ⟨Nat.le_trans hlo (hle hok), rfl⟩
  lets _ := trivial

theorem skipWhile_follows (p : UInt8 → Bool) :
    (S.lockstep exact).Follows Eq (Reader.skipWhile p) (Reader.skipWhile p) :=
  steps_of (fun h => by cases h; exact (runEnd_spec p S.first _).1.1) fun h hj hlo => by
    cases h
    exact ⟨(), congrArg (EStateM.Result.ok ()) (S.runEnd_shift hlo hj), rfl⟩

theorem peek_follows : (S.lockstep exact).Follows Eq Reader.peek Reader.peek :=
  steps_of (fun h => by cases h; exact Nat.le_refl _) fun h hj hlo => by
    cases h
    exact ⟨_, rfl, (S.byte _ hlo hj).symm⟩

/-- The place of the cursor is not the same in both texts; it only stands in messages. -/
theorem offset_keeps : (S.lockstep exact).Keeps (fun _ _ => True) Reader.offset Reader.offset :=
  steps_of (fun h => by cases h; exact Nat.le_refl _) fun h _ _ => by
    cases h
    exact ⟨_, rfl, trivial⟩

/-- Both texts have a byte, or neither. -/
theorem takeChar_tests : (S.lockstep exact).Tests (·.isSome) Reader.takeChar Reader.takeChar := by
  have hcases : ∀ {i b j}, Reader.takeChar S.first i = .ok b j →
      b = S.first[i]? ∧ (b.isSome = true → j = i + 1) ∧ i ≤ j := by
    intro i b j h
    unfold Reader.takeChar at h
    split at h
    · rename_i hc
      cases h
      exact ⟨hc.symm, fun _ => rfl, Nat.le_succ _⟩
    · rename_i hc
      cases h
      exact ⟨hc.symm, (nomatch ·), Nat.le_refl _⟩
  refine ⟨steps_of (fun h => (hcases h).2.2) fun {i b j} h hj hlo => ⟨b, ?_, rfl⟩, ?_⟩
  · obtain ⟨hb, hsome, hle⟩ := hcases h
    have hin : i < S.hi := by
      rcases hj with hj | ⟨htaken, hj⟩
      · exact Nat.lt_of_le_of_lt hle hj
      · exact Nat.lt_of_lt_of_le (hsome htaken ▸ Nat.lt_succ_self i) hj
    unfold Reader.takeChar at h ⊢
    rw [S.byte i hlo hin]
    split at h
    · cases h
      exact congrArg (EStateM.Result.ok _) (Nat.add_right_comm ..)
    · cases h
      rfl
  · intro i b j h htaken hj
    obtain ⟨-, hsome, -⟩ := hcases h
    exact Nat.lt_of_lt_of_le (hsome htaken ▸ Nat.lt_succ_self i) hj

/-- Both texts have the token, or neither. -/
theorem eat_tests (htoken : token.toByteArray.data.toList = [c.toUInt8]) :
    (S.lockstep exact).Tests (· = true) (Reader.eat token) (Reader.eat token) := by
  refine ⟨steps_of (fun {i b j} h => ?_) fun {i b j} h hj hlo => ⟨b, ?_, rfl⟩, ?_⟩
  · have := le_gap S.first i
    rcases Reader.eat_ok htoken h with ⟨-, ht⟩ | ⟨-, rfl, -⟩
    · exact Nat.le_of_lt ht.lt.1
    · exact this
  · have hle := le_gap S.first i
    rcases Reader.eat_ok htoken h with ⟨rfl, ht⟩ | ⟨rfl, rfl, hne⟩
    · have hin : gap S.first i < S.hi := by
        have := ht.stop
        rcases hj with hj | ⟨-, hj⟩
        · exact Nat.lt_of_le_of_lt (by omega) hj
        · exact Nat.lt_of_lt_of_le (by omega) hj
      refine Reader.eat_of_token htoken ⟨?_, ?_⟩
      · rw [S.gap_shift hlo hin, S.byte _ (by omega) hin, ht.byte]
      · rw [S.gap_shift hlo hin, ht.stop, Nat.add_right_comm]
    · have hin : gap S.first i < S.hi := hj.resolve_right fun h => nomatch h.1
      rw [← S.gap_shift hlo hin]
      refine Reader.eat_of_ne htoken ?_
      rwa [S.gap_shift hlo hin, S.byte _ (by omega) hin]
  · rintro i b j h rfl hj
    have := le_gap S.first i
    rcases Reader.eat_ok htoken h with ⟨-, ht⟩ | ⟨hb, -⟩
    · exact Nat.lt_of_lt_of_le ht.lt.1 hj
    · cases hb

theorem fail_refuses (fault : Fault) :
    (S.lockstep exact).Refuses (Reader.fail fault : Reader β) :=
  ⟨(nomatch ·), fun _ => trivial⟩

theorem failAt_refuses (place : Nat) (fault : Fault) :
    (S.lockstep exact).Refuses (Reader.failAt place fault : Reader β) :=
  ⟨(nomatch ·), fun _ => trivial⟩

/-- Both texts have the token that has to be there, or both are refused. -/
theorem expect_closes (htoken : token.toByteArray.data.toList = [c.toUInt8]) :
    (S.lockstep exact).Closes Eq (Reader.expect token) (Reader.expect token) := by
  refine Closes.tests (eat_tests htoken) (fun taken htaken => ?_) fun taken htaken => ?_
  · rw [htaken]
    exact .pure rfl
  · rw [Bool.not_eq_true] at htaken
    rw [htaken]
    exact .refuse (fail_refuses _)

theorem atEnd_follows : (S.lockstep exact).Follows Eq Reader.atEnd Reader.atEnd :=
  steps_of (fun h => by cases h; exact le_gap S.first _) fun {i b j} h hj hlo => by
    have hle := le_gap S.first i
    cases h
    refine ⟨_, congrArg (EStateM.Result.ok _) (S.gap_shift hlo hj), ?_⟩
    have hiff := S.lt_size (i := gap S.first i) (by omega) hj
    rw [← S.gap_shift hlo hj] at hiff
    rw [decide_eq_decide, ← Nat.not_lt, ← Nat.not_lt]
    exact not_congr hiff

/-- A name is a run of its characters, if it begins with a letter. -/
theorem identifier_eq_ite (text : ByteArray) (i : Nat) : Reader.identifier text i =
    let stop := if (text[gap text i]?).any isNameStart then
      runEnd isNamePart text (gap text i) else gap text i
    .ok (textBetween text (gap text i) stop) stop := by
  unfold Reader.identifier
  change (if (text[gap text i]?).any isNameStart then _ else _ : Reader String) text
    (gap text i) = _
  split <;> rfl

/-- Both texts have the same name. -/
theorem identifier_follows :
    (S.lockstep exact).Follows Eq Reader.identifier Reader.identifier := by
  refine steps_of (fun {i b j} h => ?_) fun {i b j} h hj hlo => ⟨b, ?_, rfl⟩
  · rw [identifier_eq_ite] at h
    have hle := le_gap S.first i
    have hrun := (runEnd_spec isNamePart S.first (gap S.first i)).1.1
    cases h
    split <;> omega
  · rw [identifier_eq_ite] at h ⊢
    have hle := le_gap S.first i
    have hrun := (runEnd_spec isNamePart S.first (gap S.first i)).1.1
    cases h
    change (if _ then _ else _) < S.hi at hj
    have hin : gap S.first i < S.hi := by
      split at hj <;> omega
    dsimp only
    rw [S.gap_shift hlo hin, S.byte _ (by omega) hin]
    by_cases hstart : ((S.first[gap S.first i]?).any isNameStart) = true
    · rw [if_pos hstart] at hj
      rw [if_pos hstart, if_pos hstart, S.runEnd_shift (by omega) hj,
        S.textBetween_shift (by omega) (by omega)]
    · rw [if_neg hstart, if_neg hstart, S.textBetween_shift (by omega) (by omega)]

/-- What is taken ends before the mark, and the mark is there. -/
theorem takeUntil_ok {stop : UInt8} {text : ByteArray} {i j : Nat} {b : String}
    (h : Reader.takeUntil stop text i = .ok b j) :
    j = runEnd (· != stop) text i ∧ (text[j]?).isSome = true ∧ b = textBetween text i j := by
  change (if (text[runEnd (· != stop) text i]?).isSome then _ else _ : Reader String) text
    (runEnd (· != stop) text i) = _ at h
  split at h
  · cases h
    exact ⟨rfl, ‹_›, rfl⟩
  · cases h

/-- Both texts have the same piece before the mark. -/
theorem takeUntil_follows (stop : UInt8) :
    (S.lockstep exact).Follows Eq (Reader.takeUntil stop) (Reader.takeUntil stop) := by
  refine steps_of (fun {i b j} h => ?_) fun {i b j} h hj hlo => ⟨b, ?_, rfl⟩
  · rw [(takeUntil_ok h).1]
    exact (runEnd_spec _ S.first i).1.1
  · obtain ⟨rfl, hsome, rfl⟩ := takeUntil_ok h
    have hrun := (runEnd_spec (· != stop) S.first i).1.1
    change (if (S.second[runEnd (· != stop) S.second (i + S.shift)]?).isSome then _ else _ :
      Reader String) S.second (runEnd (· != stop) S.second (i + S.shift)) = _
    rw [S.runEnd_shift hlo hj, S.byte _ (by omega) hj, if_pos hsome]
    exact congrArg (EStateM.Result.ok · _) (S.textBetween_shift hlo (Nat.le_of_lt hj))

/-- A value that has to be finite. -/
theorem finite_keeps {α : Type} [Scalar α] {x y : α} (h : (S.lockstep exact).Val x y) :
    (S.lockstep exact).Keeps (S.lockstep exact).Val (Reader.finite x) (Reader.finite y) := by
  unfold Reader.finite
  by_cases hx : Scalar.isFinite x = true
  · rw [if_pos hx]
    by_cases hy : Scalar.isFinite y = true
    · rw [if_pos hy]
      exact .pure h
    · rw [if_neg hy]
      refine Steps.outrun (.pure (Val.refl x)) (fun he => hy ?_) (fail_refuses _)
      rwa [← h he]
  · rw [if_neg hx]
    exact .refuse (fail_refuses _)

/-- Values that were refused before are refused in both texts. -/
theorem ofExcept_keeps {x y : Except Fault β} (h : (S.lockstep exact).Val x y) :
    (S.lockstep exact).Keeps (S.lockstep exact).Val (Reader.ofExcept x) (Reader.ofExcept y) := by
  cases x with
  | error e => exact .refuse (fail_refuses e)
  | ok b =>
      cases y with
      | ok c => exact .pure fun he => Except.ok.inj (h he)
      | error e => exact Steps.outrun (.pure (Val.refl b)) (fun he => nomatch h he) (fail_refuses e)

/-- Both texts have the same number. -/
theorem number_follows {α : Type} [Scalar α] :
    (S.lockstep exact).Follows Eq (Reader.number : Reader α) Reader.number := by
  refine Follows.bind (R := Eq) ?_ fun m m' hm => .pure (by rw [hm])
  refine steps_of (fun h => Nat.le_of_lt (Reader.numeral_ok h).lt) fun h hj hlo => ?_
  exact ⟨_, S.numeral_shift hlo h hj, rfl⟩

end Tokens

end Stretch

end Mosaic
