import Mosaic.Proofs.Description.Places
import Mosaic.Proofs.Reading.Capture

/-!
# Description — the text of a tree state

A tree state is what a directive says between its parentheses (`Enclosed`).  The scan for the
closing one counts parentheses byte by byte, also inside of characters of several bytes, none of
which is a parenthesis.  It stops behind the parenthesis that closes the directive if there is one,
and at the end of the source if there is none (`treeState_iff`, `treeState_error`).

* `nesting`: how many parentheses are open between two offsets.
-/

namespace Mosaic

/-- In the text parentheses close only what they have opened, and close all of it. -/
structure Balanced (w : String) : Prop where
  within : ∀ u v, w = u ++ v → u.toList.count ')' ≤ u.toList.count '('
  whole : w.toList.count ')' = w.toList.count '('

/-- From the offset on the source says `w`, up to the parenthesis that closes one which is open
there. -/
structure Enclosed (source : String) (i : Nat) (w : String) : Prop where
  excerpt : Excerpt source i (i + w.utf8ByteSize) w
  closing : source.toByteArray[i + w.utf8ByteSize]? = some 41
  balanced : Balanced w

/-! ### Parentheses of a text -/

/-- Of the characters of a text, the ASCII ones are as often among its bytes. -/
theorem count_utf8Encode {c : Char} (hc : c.val.toNat < 128) (l : List Char) :
    (l.flatMap String.utf8EncodeChar).count c.toUInt8 = l.count c := by
  have hbyte : c.toUInt8.toNat = c.val.toNat :=
    UInt8.toNat_ofNat_of_lt' (Nat.lt_trans hc (by decide))
  induction l with
  | nil => rfl
  | cons x l ih =>
      rw [List.flatMap_cons, List.count_append, ih, List.count_cons, Nat.add_comm]
      congr 1
      by_cases hx : x = c
      · have hone : x.utf8Size = 1 := by
          rw [Char.utf8Size_eq_one_iff, UInt32.le_iff_toNat_le, hx]
          exact Nat.le_of_lt_succ hc
        subst hx
        rw [String.utf8EncodeChar_eq_singleton hone, if_pos (beq_self_eq_true x)]
        exact List.count_singleton_self
      · rw [if_neg (by simpa using hx), List.count_eq_zero]
        intro hmem
        have hcode := mem_utf8EncodeChar hmem
        exact hx (Char.ext (UInt32.toNat_inj.mp (by omega)))

theorem Excerpt.before_eq {source w : String} {i j : Nat} (h : Excerpt source i j w) :
    Position.before source.toByteArray j =
      Position.before source.toByteArray i ++ w.toList.flatMap String.utf8EncodeChar := by
  have hbytes : w.toList.flatMap String.utf8EncodeChar = w.toByteArray.data.toList := by
    refine List.ext_getElem? fun k => ?_
    rw [← toByteArray_getElem?, Position.getElem?_toList]
  rw [hbytes, h.toByteArray, ByteArray.data_extract, Array.toList_extract,
    List.extract_eq_take_drop, Position.before, Position.before, ← List.take_add,
    Nat.add_sub_cancel' h.le]

/-- How many more parentheses are opened than closed between two offsets. -/
def nesting (text : ByteArray) (i j : Nat) : Int :=
  ((Position.before text j).count 40 - (Position.before text i).count 40 : Int) -
    ((Position.before text j).count 41 - (Position.before text i).count 41)

section Nesting

variable {text : ByteArray} {i j : Nat} {c : UInt8}

@[simp] theorem nesting_self (text : ByteArray) (i : Nat) : nesting text i i = 0 := by
  simp [nesting]

theorem nesting_succ (h : text[j]? = some c) :
    nesting text i (j + 1) =
      nesting text i j + if c = 40 then 1 else if c = 41 then -1 else 0 := by
  rw [nesting, nesting, Position.before_succ h, List.count_append, List.count_append,
    List.count_singleton, List.count_singleton]
  by_cases hopen : c = 40
  · subst hopen
    simp
    omega
  · by_cases hclose : c = 41
    · subst hclose
      simp
      omega
    · simp [hopen, hclose]

theorem Excerpt.nesting_eq {source w : String} (h : Excerpt source i j w) :
    nesting source.toByteArray i j = (w.toList.count '(' : Int) - w.toList.count ')' := by
  have hopen := count_utf8Encode (c := '(') (by decide) w.toList
  have hclose := count_utf8Encode (c := ')') (by decide) w.toList
  change List.count 40 _ = _ at hopen
  change List.count 41 _ = _ at hclose
  rw [nesting, h.before_eq, List.count_append, List.count_append, hopen, hclose]
  push_cast
  omega

end Nesting

/-- An excerpt is balanced if no part of it from the beginning closes more than it opens, and it
opens and closes as many parentheses. -/
theorem Excerpt.balanced_iff {source w : String} {i j : Nat} (h : Excerpt source i j w) :
    Balanced w ↔ nesting source.toByteArray i j = 0 ∧
      ∀ k, OnCharacter source k → i ≤ k → k ≤ j → 0 ≤ nesting source.toByteArray i k := by
  rw [h.nesting_eq]
  constructor
  · rintro ⟨hwithin, hwhole⟩
    refine ⟨by omega, fun k hk hik hkj => ?_⟩
    obtain ⟨u, v, rfl, hu, -⟩ := h.split hk hik hkj
    have := hwithin u v rfl
    rw [hu.nesting_eq]
    omega
  · rintro ⟨hwhole, hwithin⟩
    refine ⟨fun u v huv => ?_, by omega⟩
    subst huv
    obtain ⟨before, after, rfl, rfl, rfl⟩ := h
    have hu : Excerpt (before ++ (u ++ v) ++ after) before.utf8ByteSize
        (before ++ u).utf8ByteSize u :=
      ⟨before, v ++ after, by simp only [String.append_assoc], rfl, rfl⟩
    have hle : (before ++ u).utf8ByteSize ≤ (before ++ (u ++ v)).utf8ByteSize := by
      simp only [String.utf8ByteSize_append]
      omega
    have := hwithin _ hu.right hu.le hle
    rw [hu.nesting_eq] at this
    omega

namespace Drafting

variable {α : Type} {text : ByteArray} {source w : String} {s t u : Desk α} {depth depth' : Nat}

/-! ### The scan -/

theorem treeRound_apply (depth : Nat) (text : ByteArray) (t : Desk α) :
    treeRound depth text t = match text[t.offset]? with
      | none => .error (.malformed ⟨.unterminatedTreeState, Position.of text t.offset⟩) t
      | some c => .ok (if c = 40 then .inl (depth + 1) else if c = 41 then
          (if depth = 0 then .inr () else .inl (depth - 1)) else .inl depth)
          { t with offset := t.offset + 1 } := by
  cases hc : text[t.offset]? with
  | none => exact ofReader_bind (Reader.takeChar_of_none hc)
  | some c =>
      refine (ofReader_bind (Reader.takeChar_of_some hc)).trans ?_
      dsimp only
      simp only [beq_iff_eq]
      split_ifs <;> rfl

/-- The scan that has begun at `s` is at `t`, inside of so many parentheses, and was never outside
of the one that it has begun in. -/
structure Scanning (text : ByteArray) (s : Desk α) (depth : Nat) (t : Desk α) : Prop where
  draft : t.draft = s.draft
  le : s.offset ≤ t.offset
  size : t.offset ≤ text.size
  depth : nesting text s.offset t.offset = depth
  inside : ∀ k, s.offset ≤ k → k ≤ t.offset → 0 ≤ nesting text s.offset k

theorem Scanning.start (hs : s.offset ≤ text.size) : Scanning text s 0 s where
  draft := rfl
  le := Nat.le_refl _
  size := hs
  depth := nesting_self ..
  inside k hk hk' := by rw [Nat.le_antisymm hk' hk, nesting_self]

/-- One more byte, by which the scan does not end. -/
theorem Scanning.round (h : Scanning text s depth t)
    (hround : treeRound depth text t = .ok (.inl depth') u) :
    Scanning text s depth' u ∧ t.offset < u.offset := by
  rw [treeRound_apply] at hround
  cases hc : text[t.offset]? with
  | none =>
      rw [hc] at hround
      cases hround
  | some c =>
      rw [hc] at hround
      dsimp only at hround
      have hle := h.le
      have hlt := lt_size_of_getElem? hc
      have hdepth := h.depth
      have hsucc := nesting_succ (i := s.offset) hc
      obtain ⟨hu, hnesting⟩ : u = { t with offset := t.offset + 1 } ∧
          nesting text s.offset (t.offset + 1) = depth' := by
        split_ifs at hround hsucc <;> cases hround <;> exact ⟨rfl, by omega⟩
      subst hu
      refine ⟨⟨h.draft, by dsimp only; omega, hlt, hnesting, fun k hk hk' => ?_⟩,
        Nat.lt_succ_self _⟩
      obtain hk' | rfl : k ≤ t.offset ∨ k = t.offset + 1 := Nat.le_succ_iff.mp hk'
      · exact h.inside k hk hk'
      · rw [hnesting]
        exact Int.natCast_nonneg _

/-- The scan ends behind a closing parenthesis outside of all others, or at the end of the text. -/
theorem treeScan_ends (hs : s.offset ≤ text.size) : ∃ depth t, Scanning text s depth t ∧
    ((depth = 0 ∧ text[t.offset]? = some 41 ∧
        treeScan text s = .ok () { s with offset := t.offset + 1 }) ∨
      (t.offset = text.size ∧ treeScan text s =
        .error (.malformed ⟨.unterminatedTreeState, Position.of text text.size⟩) t)) := by
  obtain ⟨depth, t, hscan, hend⟩ : ∃ depth t, Scanning text s depth t ∧
      ((∃ b u, treeRound depth text t = .ok (.inr b) u ∧ treeScan text s = .ok b u) ∨
        ∃ e u, treeRound depth text t = .error e u ∧ treeScan text s = .error e u) := by
    have hround {y z : Nat} {t u : Desk α} (h : Scanning text s y t)
        (hstep : treeRound y text t = .ok (.inl z) u) : Scanning text s z u ∧
          Below (text.size - u.offset, 0) (text.size - t.offset, 0) := by
      obtain ⟨hu, hlt⟩ := h.round hstep
      have := hu.size
      exact ⟨hu, Lockstep.below_iff.mpr ⟨hlt, by omega⟩⟩
    obtain ⟨depth, t, -, hscan, hend⟩ := descend_ends (I := Scanning text s) hround
      (Scanning.start hs)
    exact ⟨depth, t, hscan, hend⟩
  refine ⟨depth, t, hscan, ?_⟩
  rw [treeRound_apply] at hend
  cases hc : text[t.offset]? with
  | none =>
      rw [hc] at hend
      have hsize : t.offset = text.size := by
        have := hscan.size
        by_contra hne
        rw [getElem?_pos text t.offset (by omega)] at hc
        cases hc
      rcases hend with ⟨b, u, hround, -⟩ | ⟨e, u, hround, heq⟩
      · cases hround
      · cases hround
        exact .inr ⟨hsize, by rw [heq, hsize]⟩
  | some c =>
      rw [hc] at hend
      dsimp only at hend
      rcases hend with ⟨b, u, hround, heq⟩ | ⟨e, u, hround, -⟩
      · split_ifs at hround with hopen hclose hdepth <;> cases hround
        refine .inl ⟨hdepth, by rw [hclose], ?_⟩
        rw [heq, hscan.draft]
      · cases hround

/-- Where the scan stops, the text of the tree state is enclosed. -/
theorem treeScan_ok {r : Unit} (hi : OnCharacter source s.offset)
    (h : treeScan source.toByteArray s = .ok r t) : ∃ w, Enclosed source s.offset w ∧
      t = { s with offset := s.offset + w.utf8ByteSize + 1 } := by
  obtain ⟨depth, u, hscan, ⟨rfl, hclose, heq⟩ | ⟨-, heq⟩⟩ := treeScan_ends hi.le_size
  · rw [heq] at h
    cases h
    have hu := (onCharacter_of_ascii hclose (by decide)).1
    obtain ⟨w, hexcerpt⟩ : ∃ w, Excerpt source s.offset u.offset w :=
      ⟨_, excerpt_textBetween hi hu hscan.le⟩
    have hsize := hexcerpt.size
    refine ⟨w, ⟨by rwa [← hsize], by rwa [← hsize], ?_⟩, by rw [← hsize]⟩
    exact hexcerpt.balanced_iff.mpr ⟨hscan.depth, fun k _ => hscan.inside k⟩
  · rw [heq] at h
    cases h

/-- Where a text is enclosed, the scan stops behind it. -/
theorem treeScan_of_enclosed (hi : OnCharacter source s.offset)
    (h : Enclosed source s.offset w) : treeScan source.toByteArray s =
      .ok () { s with offset := s.offset + w.utf8ByteSize + 1 } := by
  obtain ⟨hzero, hinside⟩ := h.excerpt.balanced_iff.mp h.balanced
  have hlast := lt_size_of_getElem? h.closing
  have hoff := nesting_succ (i := s.offset) h.closing
  rw [if_neg (by decide), if_pos rfl, hzero] at hoff
  obtain ⟨depth, t, hscan, ⟨rfl, hclose, heq⟩ | ⟨hsize, -⟩⟩ := treeScan_ends hi.le_size
  · have hoff' := nesting_succ (i := s.offset) hclose
    rw [if_neg (by decide), if_pos rfl, hscan.depth] at hoff'
    have hle := hscan.le
    -- neither of the two parentheses is before the other one
    have hge : s.offset + w.utf8ByteSize ≤ t.offset := by
      by_contra hlt
      have := hinside (t.offset + 1) (onCharacter_of_ascii hclose (by decide)).2 (by omega)
        (by omega)
      omega
    have hle' : t.offset ≤ s.offset + w.utf8ByteSize := by
      by_contra hlt
      have := hscan.inside (s.offset + w.utf8ByteSize + 1) (by omega) (by omega)
      omega
    rw [heq, Nat.le_antisymm hle' hge]
  · have := hscan.inside (s.offset + w.utf8ByteSize + 1) (by omega) (by omega)
    omega

/-- **A tree state is the text up to the parenthesis that closes its directive**, without blank
margins, and reading goes on behind that parenthesis. -/
theorem treeState_iff {r : Unit} (hi : OnCharacter source s.offset) :
    treeState source.toByteArray s = .ok r t ↔ ∃ w, Enclosed source s.offset w ∧
      t = ⟨s.offset + w.utf8ByteSize + 1,
        { s.draft with tiling := withTreeState w s.draft.tiling }⟩ := by
  have hput {w : String} (h : Enclosed source s.offset w) : treeState source.toByteArray s =
      .ok () ⟨s.offset + w.utf8ByteSize + 1,
        { s.draft with tiling := withTreeState w s.draft.tiling }⟩ := by
    have hexcerpt := excerpt_textBetween h.excerpt.left h.excerpt.right h.excerpt.le
    rw [treeState_apply, treeScan_of_enclosed hi h]
    dsimp only
    rw [Nat.add_sub_cancel, hexcerpt.unique h.excerpt]
    rfl
  constructor
  · intro h
    cases hscan : treeScan source.toByteArray s with
    | ok _ u =>
        obtain ⟨w, hw, -⟩ := treeScan_ok hi hscan
        rw [hput hw] at h
        cases h
        exact ⟨w, hw, rfl⟩
    | error e u =>
        rw [treeState_apply, hscan] at h
        cases h
  · rintro ⟨w, hw, rfl⟩
    exact hput hw

/-- A tree state that is not closed is refused at the end of the source. -/
theorem treeState_error {e : LoadError α} (hi : OnCharacter source s.offset)
    (h : treeState source.toByteArray s = .error e t) :
    (∀ w, ¬ Enclosed source s.offset w) ∧ t.offset = source.toByteArray.size ∧
      t.draft = s.draft ∧ e = .malformed
        ⟨.unterminatedTreeState, Position.of source.toByteArray source.toByteArray.size⟩ := by
  refine ⟨fun w hw => ?_, ?_⟩
  · rw [(treeState_iff (r := ()) hi).mpr ⟨w, hw, rfl⟩] at h
    cases h
  · obtain ⟨depth, u, hscan, ⟨-, -, heq⟩ | ⟨hsize, heq⟩⟩ := treeScan_ends hi.le_size
    all_goals
      rw [treeState_apply, heq] at h
      cases h
    exact ⟨hsize, hscan.draft, rfl⟩

end Drafting

end Mosaic
