import Mosaic.Description.Load
import Mosaic.Proofs.Description.Pace

/-!
# Description — round by round

A description is read in rounds, one for each comment and each directive (`Drafting.round`).  Every
round is followed by one of the other run (`round_steps`), also a comment that ends where the shared
stretch does: what comes after the stretch ends the line.
-/

namespace Mosaic

namespace Stretch

variable (S : Stretch) {p : UInt8 → Bool} {i : Nat}

/-- A byte that is no control character is in both texts or in none, unless the stretch ends
before it. -/
theorem any_shift (hp : ∀ c, p c = true → 32 ≤ c) (hlo : S.lo ≤ i) (hi : i ≤ S.hi)
    (hin : (S.first[i]?).any p = true → i < S.hi) :
    (S.second[i + S.shift]?).any p = (S.first[i]?).any p := by
  rcases Nat.lt_or_eq_of_le hi with hlt | heq
  · rw [S.byte i hlo hlt]
  · have hfirst : (S.first[i]?).any p = false := Bool.eq_false_iff.mpr fun h => by
      have := hin h
      omega
    have hsecond : (S.second[i + S.shift]?).any p = false := Bool.eq_false_iff.mpr fun h => by
      have := (S.any_first_of_second hp hlo hi h).1
      omega
    rw [hfirst, hsecond]

/-- A run of bytes that are no control characters may end with the stretch. -/
theorem runEnd_shift_of_le (hp : ∀ c, p c = true → 32 ≤ c) (hlo : S.lo ≤ i)
    (hj : runEnd p S.first i ≤ S.hi) :
    runEnd p S.second (i + S.shift) = runEnd p S.first i + S.shift := by
  obtain ⟨⟨hle, -⟩, hend⟩ := runEnd_spec p S.first i
  refine S.runEnd_shift_of_stop hlo hj ?_
  rwa [S.any_shift hp (by omega) hj fun h => absurd h hend]

/-- A text and what of it lies before `hi`. -/
def upTo (text : ByteArray) (hi : Nat) : Stretch where
  first := text
  second := text.extract 0 hi
  lo := 0
  hi := hi
  shift := 0
  byte k _ hk := by
    change (text.extract 0 hi).data[k]? = _
    rw [getElem?_data_extract, Nat.zero_add, if_pos hk]
  seam c hc := by
    change (text.extract 0 hi).data[hi]? = _ at hc
    rw [getElem?_data_extract, Nat.zero_add, if_neg (Nat.lt_irrefl _)] at hc
    cases hc

end Stretch

namespace Drafting

open Lockstep

variable {α : Type}

/-! ### Comments -/

/-- What a comment with two marks does. -/
def remark (s : String) (t : Tiling α) : Tiling α :=
  if t.name == Tiling.unnamed then { t with name := s }
  else { t with comment := t.comment ++ s ++ "\n" }

/-- Whether the comment that begins at an offset has two marks, where its text begins, and where it
ends. -/
def doubled (text : ByteArray) (i : Nat) : Bool := (text[i + 1]?).any (· == 35)

def commentStart (text : ByteArray) (i : Nat) : Nat :=
  runEnd (· == 32) text (if doubled text i then i + 2 else i + 1)

def commentEnd (text : ByteArray) (i : Nat) : Nat := runEnd (32 ≤ ·) text (commentStart text i)

/-- The draft after a comment. -/
def commentDraft (text : ByteArray) (i : Nat) (d : Draft α) : Draft α :=
  if doubled text i then
    let s := textBetween text (commentStart text i) (commentEnd text i)
    { d with tiling := remark s d.tiling }
  else d

theorem lt_commentStart (text : ByteArray) (i : Nat) : i < commentStart text i := by
  have hstart := (runEnd_spec (· == 32) text (if doubled text i then i + 2 else i + 1)).1.1
  have hfirst : i < if doubled text i then i + 2 else i + 1 := by split <;> omega
  exact Nat.lt_of_lt_of_le hfirst hstart

theorem commentStart_le (text : ByteArray) (i : Nat) : commentStart text i ≤ commentEnd text i :=
  (runEnd_spec (32 ≤ ·) text (commentStart text i)).1.1

theorem bind_apply {β γ : Type} {x : Drafting α β} {f : β → Drafting α γ} {text : ByteArray}
    {s t : Desk α} {b : β} (h : x text s = .ok b t) : (x >>= f) text s = f b text t := by
  simp only [bind, ReaderT.bind, EStateM.bind, h]

/-- A sequence goes on with what its first reading has answered, where this has stopped. -/
theorem ofReader_bind {β γ : Type} {r : Reader β} {f : β → Drafting α γ} {text : ByteArray}
    {s : Desk α} {b : β} {j : Nat} (h : r text s.offset = .ok b j) :
    (ofReader r >>= f : Drafting α γ) text s = f b text { s with offset := j } :=
  bind_apply (by simp only [ofReader, h])

/-- A comment is read to its end, and noted. -/
theorem comment_apply {text : ByteArray} {s : Desk α} (h : text[s.offset]? = some 35) :
    comment text s =
      .ok () ⟨commentEnd text s.offset, commentDraft text s.offset s.draft⟩ := by
  have htake {i : Nat} {c : UInt8} (hc : text[i]? = some c) :
      Reader.takeChar text i = .ok (some c) (i + 1) := by
    rw [Reader.takeChar, hc]
  have hmark : (text[s.offset + 1]? == some 35) = doubled text s.offset := by
    unfold doubled
    cases text[s.offset + 1]? <;> simp
  refine (ofReader_bind (htake h)).trans ?_
  refine (ofReader_bind (show Reader.peek text (s.offset + 1) = _ from rfl)).trans ?_
  dsimp only
  rw [hmark]
  by_cases hd : doubled text s.offset = true
  · obtain ⟨c, hc, h35⟩ := (Option.any_eq_true _ _).mp hd
    obtain rfl := beq_iff_eq.mp h35
    rw [if_pos hd]
    refine (ofReader_bind (htake hc)).trans ?_
    simp only [commentDraft, commentEnd, commentStart, hd, if_true]
    rfl
  · rw [if_neg hd]
    simp only [commentDraft, commentEnd, commentStart, hd]
    rfl

/-- A comment changes names and comments only. -/
theorem remark_stem (s : String) (t : Tiling α) : (remark s t).stem = t.stem := by
  unfold remark
  split <;> rfl

theorem remark_order (s : String) (t : Tiling α) (order : Nat) :
    remark s { t with order } = { remark s t with order } := by
  unfold remark
  split <;> rfl

theorem sliderNames_remark (s : String) (t : Tiling α) :
    (remark s t).sliderNames = t.sliderNames := Tiling.sliderNames_of_stem (remark_stem s t)

theorem commentDraft_stem (text : ByteArray) (i : Nat) (d : Draft α) :
    (commentDraft text i d).tiling.stem = d.tiling.stem := by
  unfold commentDraft
  split
  · exact remark_stem _ _
  · rfl

/-- A comment that ends in the stretch, or with it, is the same one in both texts. -/
theorem comment_shift (S : Stretch) {i : Nat} (hlo : S.lo ≤ i)
    (hend : commentEnd S.first i ≤ S.hi) :
    doubled S.second (i + S.shift) = doubled S.first i ∧
      commentStart S.second (i + S.shift) = commentStart S.first i + S.shift ∧
        commentEnd S.second (i + S.shift) = commentEnd S.first i + S.shift := by
  have hle := commentStart_le S.first i
  have hafter : (if doubled S.first i then i + 2 else i + 1) ≤ commentStart S.first i :=
    (runEnd_spec _ S.first _).1.1
  have hdoubled : doubled S.second (i + S.shift) = doubled S.first i := by
    have hin : i + 1 ≤ S.hi := by split at hafter <;> omega
    unfold doubled
    rw [Nat.add_right_comm]
    refine S.any_shift (fun c hc => ?_) (by omega) hin fun h => ?_
    · rw [beq_iff_eq.mp hc]
      decide
    · rw [if_pos (show doubled S.first i = true from h)] at hafter
      omega
  have hstarts : commentStart S.second (i + S.shift) = commentStart S.first i + S.shift := by
    have hfirst : (if doubled S.second (i + S.shift) then i + S.shift + 2 else i + S.shift + 1) =
        (if doubled S.first i then i + 2 else i + 1) + S.shift := by
      rw [hdoubled]
      split <;> omega
    rw [commentStart, hfirst]
    refine S.runEnd_shift_of_le (fun c hc => ?_) (by split <;> omega) (Nat.le_trans hle hend)
    rw [beq_iff_eq.mp hc]
    decide
  have hstart := lt_commentStart S.first i
  refine ⟨hdoubled, hstarts, ?_⟩
  rw [commentEnd, hstarts]
  exact S.runEnd_shift_of_le (fun c hc => of_decide_eq_true hc) (by omega) hend

variable [Scalar α] {S : Stretch} {exact : Prop} {prior prior' : Option (Tiling α)}

/-! ### Rounds -/

/-- A directive. -/
def command (prior : Option (Tiling α)) : Drafting α (Unit ⊕ Unit) := do
  let place ← Reader.offset
  let name ← Reader.identifier
  if name.isEmpty then Reader.failAt place .expectedCommand
  if ← Reader.eat "." then flag name place
  else if ← Reader.eat "(" then directive prior name place
  else Reader.failAt place (.notACommand name)
  return .inl ()

/-- A comment or a directive. -/
def entry (prior : Option (Tiling α)) : Drafting α (Unit ⊕ Unit) := do
  if (← Reader.peek) == some 35 then
    comment
    return .inl ()
  command prior

/-- A comment or a directive, or the end of the description. -/
def round (prior : Option (Tiling α)) : Unit → Drafting α (Unit ⊕ Unit) := fun () => do
  bindUnits
  if ← Reader.atEnd then return .inr ()
  entry prior

/-- What a description fails with when a round does not advance. -/
def stalled (text : ByteArray) (s : Desk α) : LoadError α :=
  .malformed ⟨.stalled, Position.of text s.offset⟩

theorem description_loop (prior : Option (Tiling α)) :
    description prior = Lockstep.loop (·.offset) stalled (round prior) () := rfl

/-- A directive is read in lockstep, up to the token that closes it. -/
theorem command_closes : (lockstep S exact prior prior').Closes (Sum.LiftRel Eq Eq)
    (command prior) (command prior') := by
  refine .bind offset_keeps.follows fun place place' _ => ?_
  refine .bind identifier_follows fun name _ hname => hname ▸ ?_
  refine .guard (fun _ => Iff.rfl) (.bind (failAt_refuses _ _)) (.bind (failAt_refuses _ _))
    fun _ => ?_
  refine .ifTaken (eat_tests (c := '.') rfl) ?_ (.ifTaken (eat_tests (c := '(') rfl) ?_ ?_)
  · exact (flag_keeps name place place').bind fun _ _ _ => .pure (.inl rfl)
  · exact (directive_closes name place place').keeps.bind fun _ _ _ => .pure (.inl rfl)
  · exact .refuse (.bind (failAt_refuses _ _))

/-- A call reads its name and the opening parenthesis. -/
theorem command_of_call {text : ByteArray} {s : Desk α} {n : String} {i j k : Nat}
    (hname : Reader.identifier text s.offset = .ok n i)
    (hempty : n.isEmpty = false) (hdot : Reader.eat "." text i = .ok false j)
    (hopen : Reader.eat "(" text j = .ok true k) :
    command prior text s = (do directive prior n s.offset; return .inl () :
      Drafting α (Unit ⊕ Unit)) text { s with offset := k } := by
  refine (ofReader_bind (show Reader.offset text s.offset = _ from rfl)).trans ?_
  refine (ofReader_bind (s := { s with offset := s.offset }) hname).trans ?_
  rw [hempty]
  exact (ofReader_bind hdot).trans (ofReader_bind (s := { s with offset := j }) hopen)

/-- A mark begins a comment, anything else a directive. -/
theorem entry_apply (prior : Option (Tiling α)) (text : ByteArray) (s : Desk α) :
    entry prior text s = if text[s.offset]? = some 35 then
      .ok (.inl ()) ⟨commentEnd text s.offset, commentDraft text s.offset s.draft⟩
    else command prior text s := by
  refine (ofReader_bind (show Reader.peek text s.offset = _ from rfl)).trans ?_
  by_cases h : text[s.offset]? = some 35
  · rw [if_pos h, h]
    change (do comment; return .inl () : Drafting α (Unit ⊕ Unit)) text s = _
    exact bind_ok.mpr ⟨(), _, comment_apply h, rfl⟩
  · rw [if_neg h, if_neg]
    simpa using h

/-- The draft at the beginning of a round. -/
def unitsBound (d : Draft α) : Draft α :=
  { d with
    bindings := (d.bindings.insert "distunit" d.distanceUnit).insert "angleunit" d.angleUnit }

/-- A round skips blanks, and ends the description at the end of the text. -/
theorem round_apply (prior : Option (Tiling α)) (text : ByteArray) (s : Desk α) :
    round prior () text s =
      if text.size ≤ gap text s.offset then .ok (.inr ()) ⟨gap text s.offset, unitsBound s.draft⟩
      else entry prior text ⟨gap text s.offset, unitsBound s.draft⟩ := by
  change (do if ← Reader.atEnd then return .inr () else entry prior : Drafting α (Unit ⊕ Unit))
    text ⟨s.offset, unitsBound s.draft⟩ = _
  refine (ofReader_bind (s := ⟨s.offset, unitsBound s.draft⟩)
    (show Reader.atEnd text s.offset = .ok (decide (text.size ≤ gap text s.offset))
      (gap text s.offset) from rfl)).trans ?_
  by_cases h : text.size ≤ gap text s.offset
  · rw [if_pos h, if_pos (decide_eq_true h)]
    rfl
  · rw [if_neg h, if_neg fun hd => h (of_decide_eq_true hd)]

omit [Scalar α] in
/-- Comments in the stretch are noted in both drafts. -/
theorem commentDraft_alike {i : Nat} {d e : Draft α} (hlo : S.lo ≤ i)
    (hend : commentEnd S.first i ≤ S.hi) (h : d.Alike exact e) :
    (commentDraft S.first i d).Alike exact (commentDraft S.second (i + S.shift) e) := by
  obtain ⟨hdoubled, hstart, hstop⟩ := comment_shift S hlo hend
  have hle := lt_commentStart S.first i
  unfold commentDraft
  rw [hdoubled, hstart, hstop, S.textBetween_shift (by omega) hend]
  split
  · exact h.edit (sliderNames_remark _) (sliderNames_remark _) fun _ => remark_order _
  · exact h

theorem entry_closes : (lockstep S exact prior prior').Closes (Sum.LiftRel Eq Eq)
    (entry prior) (entry prior') := by
  have hcommand : (lockstep S exact prior prior').Closes (Sum.LiftRel Eq Eq)
    (command prior) (command prior') := command_closes
  have hcases {s s' : Desk α} {b} (h : entry prior S.first s = .ok b s') :
      (S.first[s.offset]? = some 35 ∧ b = .inl () ∧ s' = ⟨commentEnd S.first s.offset,
        commentDraft S.first s.offset s.draft⟩) ∨
      (S.first[s.offset]? ≠ some 35 ∧ command prior S.first s = .ok b s') := by
    rw [entry_apply] at h
    split at h
    · cases h
      exact .inl ⟨‹_›, rfl, rfl⟩
    · exact .inr ⟨‹_›, h⟩
  have hgrows (s : Desk α) :
      s.draft.tiling.Grows prior (commentDraft S.first s.offset s.draft).tiling :=
    .of_stem (commentDraft_stem _ _ _)
  have hcloses {s s' : Desk α} {b} (h : entry prior S.first s = .ok b s')
      (hr : (lockstep S exact prior prior').reached s') :
      (lockstep S exact prior prior').inside s := by
    rcases hcases h with ⟨-, -, rfl⟩ | ⟨-, h⟩
    · refine ⟨?_, fun he => (hr.2 he).of_grows (hgrows s)⟩
      exact Nat.lt_of_lt_of_le (lt_commentStart _ _) (Nat.le_trans (commentStart_le _ _) hr.1)
    · exact hcommand.closes h hr
  refine ⟨⟨fun h => ?_, fun {s b s' u} h hr hu => ?_, fun {s e s'} h => ?_⟩, hcloses⟩
  · rename_i s b s'
    rcases hcases h with ⟨-, -, rfl⟩ | ⟨-, h⟩
    · have hlt := lt_commentStart S.first
      have hle := commentStart_le S.first
      exact ⟨Nat.le_of_lt (Nat.lt_of_lt_of_le (hlt _) (hle _)), hgrows s⟩
    · exact hcommand.keeps.leads h
  · change (lockstep S exact prior prior').Answers _ b s' (entry prior' S.second u)
    -- the entry begins inside of the stretch, so both texts have the same byte there
    have hbyte := S.byte s.offset hu.1.1 (hcloses h hr).1
    rw [entry_apply, hu.1.2, hbyte]
    rcases hcases h with ⟨h35, rfl, rfl⟩ | ⟨h35, h⟩
    · rw [if_pos h35]
      refine .ok (.inl rfl) ⟨⟨?_, (comment_shift S hu.1.1 hr.1).2.2⟩,
        commentDraft_alike hu.1.1 hr.1 hu.2⟩
      have := lt_commentStart S.first s.offset
      have := commentStart_le S.first s.offset
      have := hu.1.1
      change S.lo ≤ commentEnd S.first s.offset
      omega
    · rw [if_neg h35]
      exact hcommand.keeps.answers h hr hu
  · change entry prior S.first s = .error e s' at h
    rw [entry_apply] at h
    split at h
    · cases h
    · exact hcommand.keeps.lets h

omit [Scalar α] in
/-- Units that are bound once more stay as they are. -/
theorem unitsBound_again {d e : Draft α} (h : d.Alike exact e) :
    (unitsBound d).Alike exact (unitsBound (unitsBound e)) :=
  { h with
    bindings := fun he name => by
      simp only [unitsBound, Std.TreeMap.getElem?_insert, h.angleUnit he, h.distanceUnit he,
        h.bindings he]
      split_ifs <;> rfl }

theorem bindUnits_keeps :
    (lockstep S exact prior prior').Keeps Eq (bindUnits : Drafting α Unit) bindUnits :=
  modifyDraft_keeps (f := unitsBound) (g := unitsBound) (fun d => .refl _) fun d e _ h =>
    { h with
      bindings := fun he name => by
        simp only [unitsBound, Std.TreeMap.getElem?_insert, h.angleUnit he, h.distanceUnit he,
          h.bindings he] }

/-- A round may end with the stretch, unless it finds the end of the description. -/
theorem round_steps : (lockstep S exact prior prior').Steps
    (fun r s => (lockstep S exact prior prior').inside s ∨
      r.isLeft ∧ (lockstep S exact prior prior').reached s)
    (Sum.LiftRel Eq Eq) (round prior ()) (round prior' ()) := by
  have hentry : (lockstep S exact prior prior').Closes (Sum.LiftRel Eq Eq)
    (entry prior) (entry prior') := entry_closes
  have hreached {r : Unit ⊕ Unit} {s : Desk α} (h : (lockstep S exact prior prior').inside s ∨
      r.isLeft ∧ (lockstep S exact prior prior').reached s) :
      (lockstep S exact prior prior').reached s :=
    h.elim (reached_of_inside _) And.right
  have htail : (lockstep S exact prior prior').Steps
      (fun r s => (lockstep S exact prior prior').inside s ∨
        r.isLeft ∧ (lockstep S exact prior prior').reached s) (Sum.LiftRel Eq Eq)
      (do if ← Reader.atEnd then return .inr () else entry prior)
      (do if ← Reader.atEnd then return .inr () else entry prior') := by
    refine Steps.bind (read_follows Stretch.atEnd_follows) (fun ended _ h => h ▸ .ite (fun _ => ?_)
      fun _ => ?_) fun {ended t r s'} h hQ => ?_
    · exact .pure (.inr rfl)
    · exact hentry.keeps.mono fun _ _ => hreached
    · split at h
      · cases h
        exact hQ.elim id fun hleft => nomatch hleft.1
      · exact hentry.closes h (hreached hQ)
  exact Steps.bind bindUnits_keeps (fun _ _ _ => htail) fun h hQ =>
    reached_of_leads _ (htail.leads h) (hreached hQ)

/-- A round of the description is read in lockstep. -/
theorem round_follows : (lockstep S exact prior prior').Follows (Sum.LiftRel Eq Eq)
    (round prior ()) (round prior' ()) :=
  round_steps.mono fun _ _ => Or.inl

/-- The descriptions of two runs that share a text keep pace. -/
theorem description_follows : (lockstep S exact prior prior').Follows Eq (description prior)
    (description prior') :=
  .iterate (S := Eq) (fun _ _ _ _ h => nomatch h) (fun _ _ _ => round_follows) rfl

/-! ### Rounds that begin elsewhere -/

/-- A comment or a directive advances the cursor. -/
theorem entry_advances {text : ByteArray} {s t : Desk α} {r : Unit ⊕ Unit}
    (h : entry prior text s = .ok r t) : s.offset < t.offset := by
  have hcloses : (lockstep (.upTo text t.offset) False prior prior).Closes (Sum.LiftRel Eq Eq)
    (entry prior) (entry prior) := entry_closes
  exact (hcloses.closes h ⟨Nat.le_refl _, False.elim⟩).1

/-- Every round that goes on advances the cursor, so a description never stalls. -/
theorem round_advances {text : ByteArray} {s t : Desk α} {x : Unit}
    (h : round prior () text s = .ok (.inl x) t) :
    s.offset < t.offset ∧ s.offset < text.size := by
  have hle := le_gap text s.offset
  rw [round_apply] at h
  split at h
  · cases h
  · have hadvance : gap text s.offset < t.offset := entry_advances h
    omega

/-- What remains to be read from a comment or a directive on. -/
def remainder (prior : Option (Tiling α)) : Drafting α Unit := do
  if let .inl () ← entry prior then description prior

/-- A description skips blanks and binds the units; then it ends, or goes on with an entry. -/
theorem description_apply (prior : Option (Tiling α)) (text : ByteArray) (s : Desk α) :
    description prior text s =
      if text.size ≤ gap text s.offset then .ok () ⟨gap text s.offset, unitsBound s.draft⟩
      else remainder prior text ⟨gap text s.offset, unitsBound s.draft⟩ := by
  have hround := round_apply prior text s
  have hle := le_gap text s.offset
  change descend _ _ (fun x => round prior x text) () s = _
  by_cases hend : text.size ≤ gap text s.offset
  · rw [if_pos hend] at hround ⊢
    exact descend_of_inr hround
  · rw [if_neg hend] at hround ⊢
    cases hentry : entry prior text ⟨gap text s.offset, unitsBound s.draft⟩ with
    | error e t =>
        rw [descend, hround, hentry]
        exact (bind_error.mpr (.inl hentry)).symm
    | ok r t =>
        refine Eq.trans ?_ (bind_apply (x := entry prior) hentry).symm
        cases r with
        | inr b => exact descend_of_inr (hround.trans hentry)
        | inl b =>
            -- the entry begins behind the blanks and advances from there
            have hadvance : gap text s.offset < t.offset := entry_advances hentry
            exact descend_of_inl (hround.trans hentry) (.inl (by omega))

/-- What is left of the description is read in lockstep. -/
theorem remainder_follows : (lockstep S exact prior prior').Follows Eq (remainder prior)
    (remainder prior') :=
  Follows.bind (R := Eq) (entry_closes.follows.imp fun r r' hr => by cases hr <;> congr)
    fun r _ hr => hr ▸ by
      cases r with
      | inl _ => exact description_follows
      | inr _ => exact .pure rfl

/-- Two descriptions keep pace from states that come together when the blanks are skipped and the
units are bound. -/
theorem description_answers {s u s' : Desk α} (h : description prior S.first s = .ok () s')
    (hin : (lockstep S exact prior prior').inside s') (hlo : S.lo ≤ gap S.first s.offset)
    (hgap : gap S.first s.offset < S.hi →
      gap S.second u.offset = gap S.first s.offset + S.shift)
    (hdraft : (unitsBound s.draft).Alike exact (unitsBound u.draft)) :
    (lockstep S exact prior prior').Answers Eq () s' (description prior' S.second u) := by
  rw [description_apply] at h ⊢
  by_cases hend : S.first.size ≤ gap S.first s.offset
  · rw [if_pos hend] at h
    cases h
    have hsize := S.lt_size hlo hin.1
    have hgap := hgap hin.1
    rw [if_pos (by omega)]
    exact .ok rfl ⟨⟨hlo, hgap⟩, hdraft⟩
  · rw [if_neg hend] at h
    have hfollows : (lockstep S exact prior prior').Follows Eq (remainder prior)
      (remainder prior') := remainder_follows
    have hhi := Nat.lt_of_le_of_lt (hfollows.leads h).1 hin.1
    have hsize := S.lt_size hlo hhi
    have hgap := hgap hhi
    rw [if_neg (by omega)]
    exact hfollows.answers h hin ⟨⟨hlo, hgap⟩, hdraft⟩

end Drafting

end Mosaic
