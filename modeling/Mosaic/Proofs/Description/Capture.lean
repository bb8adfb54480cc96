import Mosaic.Proofs.Description.TreeState
import Mosaic.Proofs.Expression.Capture

/-!
# Description — what directives take out of a text

All that a tiling and its variables are called has been taken out of the source, whole characters
from where a comment or a directive says it (`Draft.Quotes`), and so has been what a load repeats
when it fails (`LoadError.Quotes`).  Every directive begins and ends on a character of the source
and keeps this up; there is one lemma for each of them (`directive_faithful`).

* `IsRemark`, `IsOption`, `IsNamed`, `IsTreeState`: lines of comments, options, names of sliders and
  variables, and tree states, each with what stands around it.
* `Faithful`: a state on a character, with a draft that quotes the source.
-/

namespace Mosaic

variable {α β γ : Type} {source w name : String} {i j : Nat}

/-! ### Calls of directives -/

/-- The call of a directive has been read up to the offset: its name, blanks and the opening
parenthesis. -/
def Opened (source name : String) (i : Nat) : Prop :=
  ∃ start blanks, (∀ c ∈ blanks.toList, c = ' ' ∨ c = '\t' ∨ c = '\n' ∨ c = '\r') ∧
    Excerpt source start i (name ++ blanks ++ "(")

/-- Every character of an excerpt has a byte there: its code, or one that marks a longer
character. -/
theorem Excerpt.exists_byte {p : UInt8 → Bool} {c : Char} (h : Excerpt source i j w)
    (hall : AllBytes p source.toByteArray i j) (hc : c ∈ w.toList) :
    ∃ b, p b = true ∧ (b.toNat = c.val.toNat ∨ (128 ≤ b.toNat ∧ 128 ≤ c.val.toNat)) := by
  have hbyte {b : UInt8} (hb : b ∈ String.utf8EncodeChar c) : p b = true := by
    obtain ⟨k, hk⟩ := List.getElem?_of_mem (List.mem_flatMap.mpr ⟨c, hc, hb⟩)
    rw [← toByteArray_getElem?] at hk
    have hlt := lt_size_of_getElem? hk
    rw [String.size_toByteArray] at hlt
    have hsize := h.size
    have hany := hall.2 (i + k) (by omega) (by omega)
    rwa [h.byte hlt, hk, Option.any_some] at hany
  by_cases hascii : c.val.toNat < 128
  · have hone : c.utf8Size = 1 := by
      rw [Char.utf8Size_eq_one_iff, UInt32.le_iff_toNat_le]
      exact Nat.le_of_lt_succ hascii
    refine ⟨c.val.toUInt8, hbyte ?_, .inl ?_⟩
    · rw [String.utf8EncodeChar_eq_singleton hone]
      exact List.mem_singleton_self _
    · exact UInt8.toNat_ofNat_of_lt' (Nat.lt_trans hascii (by decide))
  · obtain ⟨b, hb⟩ := List.exists_mem_of_ne_nil _ (String.utf8EncodeChar_ne_nil (c := c))
    exact ⟨b, hbyte hb, (mem_utf8EncodeChar hb).imp_right fun hmark => ⟨hmark, by omega⟩⟩

/-- An excerpt of blank bytes has blank characters. -/
theorem Excerpt.blanks (h : Excerpt source i j w) (hall : AllBytes isBlank source.toByteArray i j) :
    ∀ c ∈ w.toList, c = ' ' ∨ c = '\t' ∨ c = '\n' ∨ c = '\r' := by
  intro c hc
  obtain ⟨b, hb, hcode⟩ := h.exists_byte hall hc
  have hval {d : Char} (hd : c.val.toNat = d.val.toNat) : c = d :=
    Char.ext (UInt32.toNat_inj.mp hd)
  have hcases : b = 32 ∨ b = 9 ∨ b = 10 ∨ b = 13 := by grind [isBlank]
  rcases hcases with rfl | rfl | rfl | rfl
  · exact .inl (hval (hcode.resolve_right (by simp)).symm)
  · exact .inr (.inl (hval (hcode.resolve_right (by simp)).symm))
  · exact .inr (.inr (.inl (hval (hcode.resolve_right (by simp)).symm)))
  · exact .inr (.inr (.inr (hval (hcode.resolve_right (by simp)).symm)))

/-- A name and the opening parenthesis after it. -/
theorem Excerpt.opened (h : Excerpt source i j name)
    (hopen : source.toByteArray[gap source.toByteArray j]? = some 40) :
    Opened source name (gap source.toByteArray j + 1) := by
  have hblanks := (runEnd_spec isBlank source.toByteArray j).1
  have hbetween := excerpt_textBetween h.right (gap_onCharacter h.right) hblanks.1
  exact ⟨i, _, hbetween.blanks hblanks,
    (h.append hbetween).append (excerpt_byte "(" rfl (by decide) hopen)⟩

/-! ### Texts of directives and comments -/

/-- A line of a comment with two marks: what is behind the spaces after them, up to a control
character or the end of the source. -/
def IsRemark (source w : String) : Prop :=
  ∃ i j spaces, Excerpt source i j ("##" ++ spaces ++ w) ∧ (∀ c ∈ spaces.toList, c = ' ') ∧
    w.toList.head? ≠ some ' ' ∧ (∀ c ∈ w.toList, ' ' ≤ c) ∧
    ∀ b, source.toByteArray[j]? = some b → b < 32

/-- An option: what is between two quotation marks. -/
def IsOption (source w : String) : Prop :=
  '"' ∉ w.toList ∧ ∃ i j, Excerpt source i j ("\"" ++ w ++ "\"")

/-- The name that the call of a directive begins with. -/
def IsNamed (source directive w : String) : Prop :=
  ∃ i j, Opened source directive i ∧ Reader.identifier source.toByteArray i = .ok w j ∧
    Excerpt source (gap source.toByteArray i) j w

/-- The text of a tree state is what its directive encloses, without blank margins. -/
def IsTreeState (source w : String) : Prop :=
  ∃ i text, Opened source "treestate" i ∧ Enclosed source i text ∧ w = Text.trim text

/-! ### Drafts -/

/-- All texts of the tiling are said in the source: its name and the lines of the comment in
remarks, the options between quotation marks, the names of sliders and the tree states in
directives. -/
structure Tiling.Quotes (source : String) (t : Tiling α) : Prop where
  name : t.name = unnamed ∨ IsRemark source t.name
  comment : ∃ lines : List String, t.comment = String.join (lines.map (· ++ "\n")) ∧
    ∀ w ∈ lines, IsRemark source w
  options : ∀ w ∈ t.options, IsOption source w
  sliders : ∀ x ∈ t.sliders, IsNamed source "slider" x.name
  intSliders : ∀ x ∈ t.intSliders, IsNamed source "intslider" x.name
  treeStates : ∀ w ∈ t.treeStates, IsTreeState source w

/-- The name is that of a unit, or a slider or a definition has it. -/
def IsVariable (source name : String) : Prop :=
  name = "distunit" ∨ name = "angleunit" ∨
    ∃ directive ∈ ["slider", "intslider", "let"], IsNamed source directive name

/-- The tiling of the draft and the names of its variables are from the source. -/
structure Draft.Quotes (source : String) (d : Draft α) : Prop where
  tiling : d.tiling.Quotes source
  bindings : ∀ name ∈ d.bindings, IsVariable source name

/-- What a load repeats of the source when it fails. -/
def LoadError.Quotes (source : String) : LoadError α → Prop
  | .malformed e => e.fault.Quotes source
  | .openPolygon e => ∀ p ∈ e.parameters, IsVariable source p.1
  | .inspection _ t => t.Quotes source
  | .inconsistent _ => True
  | .rulesRejected _ => True

/-- The parts of a tiling that have texts of its description. -/
def Tiling.captions (t : Tiling α) :=
  (t.name, t.comment, t.options, t.sliders, t.intSliders, t.treeStates)

/-- What a tiling quotes is in its captions. -/
theorem Tiling.Quotes.of_captions {t u : Tiling α} (h : t.Quotes source)
    (hu : u.captions = t.captions) : u.Quotes source := by
  simp only [captions, Prod.mk.injEq] at hu
  obtain ⟨hname, hcomment, hoptions, hsliders, hintSliders, htree⟩ := hu
  exact ⟨hname ▸ h.name, hcomment ▸ h.comment, hoptions ▸ h.options, hsliders ▸ h.sliders,
    hintSliders ▸ h.intSliders, htree ▸ h.treeStates⟩

/-- A variable whose name is from the source may be bound. -/
theorem Draft.Quotes.bind {d : Draft α} (h : d.Quotes source) (hname : IsVariable source name)
    (value : α) : { d with bindings := d.bindings.insert name value }.Quotes source where
  tiling := h.tiling
  bindings key hkey := by
    rcases Std.TreeMap.mem_insert.mp hkey with heq | hkey
    · rwa [← Std.LawfulEqCmp.eq_of_compare heq]
    · exact h.bindings key hkey

theorem unitsBound_quotes {d : Draft α} (h : d.Quotes source) :
    (Drafting.unitsBound d).Quotes source :=
  (h.bind (.inl rfl) _).bind (.inr (.inl rfl)) _

namespace Drafting

variable {F : β → Prop} {place : Nat} {fault : Fault}

/-- The cursor is on a character of the source, and the draft has nothing but what is said there. -/
structure Faithful (source : String) (s : Desk α) : Prop where
  offset : OnCharacter source s.offset
  draft : s.draft.Quotes source

/-- What is kept up while a description is read. -/
def faithful (source : String) : Upkeep (LoadError α) (Desk α) where
  text := source.toByteArray
  holds := Faithful source
  allows e := e.Quotes source

/-! ### Readings and computations on the draft -/

/-- What reads the text at the cursor faithfully is faithful on the desk. -/
theorem read_faithful {r : Reader β} (h : (Reader.faithful source).Runs F r) :
    (faithful source).Runs F (ofReader r : Drafting α β) := by
  rintro s ⟨hoffset, hdraft⟩
  have hkept := h s.offset hoffset
  change (faithful source).Kept F (ofReader r source.toByteArray s)
  change (Reader.faithful source).Kept F (r source.toByteArray s.offset) at hkept
  unfold ofReader
  cases hr : r source.toByteArray s.offset with
  | ok b i => exact .of_ok ⟨(hkept.ok hr).1, hdraft⟩ (hkept.ok hr).2
  | error e i => exact .of_error ⟨(hkept.error hr).1, hdraft⟩ (hkept.error hr).2

theorem eat_faithful (token : String) :
    (faithful source).Keeps (ofReader (Reader.eat token) : Drafting α Bool) :=
  read_faithful (Reader.eat_faithful token)

theorem expect_faithful (token : String) :
    (faithful source).Keeps (ofReader (Reader.expect token) : Drafting α Unit) :=
  read_faithful (Reader.expect_faithful token)

theorem offset_faithful : (faithful source).Keeps (ofReader Reader.offset : Drafting α Nat) :=
  (read_faithful Reader.offset_faithful).mono fun _ _ => trivial

/-- A load may fail with a fault that quotes the source. -/
theorem failAt_faithful (h : fault.Quotes source) :
    (faithful source).Runs F (ofReader (Reader.failAt place fault) : Drafting α β) :=
  read_faithful (Reader.failAt_faithful h)

theorem fail_faithful (h : fault.Quotes source) :
    (faithful source).Runs F (ofReader (Reader.fail fault) : Drafting α β) :=
  read_faithful (Reader.fail_faithful h)

/-- A guard that refuses at an earlier place. -/
theorem guard_faithful {c : Prop} [Decidable c] {x : Drafting α β} {f : Unit → Drafting α β}
    (hfault : fault.repeated? = none) (h : (faithful source).Runs F x) :
    (faithful source).Runs F (if c then ofReader (Reader.failAt place fault) >>= f else x) :=
  .ite (fun _ => (failAt_faithful (F := fun _ => False) (.of_none hfault)).bind
    fun _ => False.elim) fun _ => h

theorem draft_faithful : (faithful source).Runs (Draft.Quotes source) (draft : Drafting α _) :=
  fun _ hs => .of_ok hs hs.draft

/-- A change of the draft that adds excerpts only. -/
theorem modifyDraft_faithful {f : Draft α → Draft α}
    (h : ∀ d, d.Quotes source → (f d).Quotes source) :
    (faithful source).Keeps (modifyDraft f) :=
  fun _ hs => .of_ok ⟨hs.offset, h _ hs.draft⟩ trivial

/-- A change of the tiling that adds excerpts only. -/
theorem modifyTiling_faithful {f : Tiling α → Tiling α}
    (h : ∀ t, t.Quotes source → (f t).Quotes source) :
    (faithful source).Keeps (modifyTiling f) :=
  modifyDraft_faithful fun _ hd => ⟨h _ hd.tiling, hd.bindings⟩

/-- A change of the tiling that is not one of its texts. -/
theorem setting_faithful {f : Tiling α → Tiling α} (h : ∀ t, (f t).captions = t.captions) :
    (faithful source).Keeps (modifyTiling f) :=
  modifyTiling_faithful fun t ht => ht.of_captions (h t)

/-- A variable whose name is from the source may be bound. -/
theorem bindVariable_faithful {value : α} (h : IsVariable source name) :
    (faithful source).Keeps (bindVariable name value) :=
  modifyDraft_faithful fun _ hd => hd.bind h value

/-- A load may stop with an error that quotes the source. -/
theorem stop_faithful {e : LoadError α} (h : e.Quotes source) :
    (faithful source).Runs F (stop e : Drafting α β) := fun _ hs => .of_error hs h

/-- A loop is faithful if its rounds are. -/
theorem iterate_faithful {step : γ → Drafting α (γ ⊕ β)} {c : γ}
    (h : ∀ c, (faithful source).Keeps (step c)) : (faithful source).Keeps (iterate step c) :=
  .loop (fun c => (h c).mono fun r _ => by cases r <;> trivial) fun _ => Fault.Quotes.of_none rfl

/-! ### Values -/

theorem scope_faithful : (faithful source).Keeps (scope : Drafting α (Scope α)) :=
  draft_faithful.bind fun _ _ => .pure trivial

section Values

variable [Scalar α]

theorem sum_faithful : (faithful source).Keeps (sum : Drafting α α) :=
  scope_faithful.bind fun _ _ => read_faithful Expression.sum_faithful

theorem real_faithful : (faithful source).Keeps (real : Drafting α α) :=
  scope_faithful.bind fun _ _ => read_faithful Expression.real_faithful

theorem realThenClose_faithful : (faithful source).Keeps (realThenClose : Drafting α α) :=
  scope_faithful.bind fun _ _ => read_faithful Expression.realThenClose_faithful

theorem integer_faithful : (faithful source).Keeps (integer : Drafting α Int) :=
  scope_faithful.bind fun _ _ => read_faithful Expression.integer_faithful

theorem integerThenClose_faithful : (faithful source).Keeps (integerThenClose : Drafting α Int) :=
  integer_faithful.bind fun _ _ => (expect_faithful ")").bind fun _ _ => .pure trivial

/-- An index out of bounds is told as a number. -/
theorem indexBelow_faithful (bound : Nat) :
    (faithful source).Keeps (indexBelow bound : Drafting α Nat) := by
  refine offset_faithful.bind fun place _ => integer_faithful.bind fun v _ => ?_
  cases v with
  | ofNat n => exact .ite (fun _ => .pure trivial) fun _ => failAt_faithful (.of_none rfl)
  | negSucc n => exact failAt_faithful (.of_none rfl)

theorem shapeIndex_faithful : (faithful source).Keeps (shapeIndex : Drafting α Nat) :=
  draft_faithful.bind fun _ _ => indexBelow_faithful _

theorem edgeIndex_faithful (shape : Nat) :
    (faithful source).Keeps (edgeIndex shape : Drafting α Nat) :=
  draft_faithful.bind fun _ _ => indexBelow_faithful _

theorem markedShape_faithful (place : Nat) :
    (faithful source).Keeps (markedShape place : Drafting α Nat) := by
  refine .test (eat_faithful ")") (draft_faithful.bind fun d _ => ?_) ?_
  · split
    · exact failAt_faithful (.of_none rfl)
    · exact .pure trivial
  · exact shapeIndex_faithful.bind fun _ _ => (expect_faithful ")").bind fun _ _ => .pure trivial

end Values

/-! ### Texts -/

/-- A flag that there is not is quoted. -/
theorem flag_faithful (hname : IsExcerpt source name) (place : Nat) :
    (faithful source).Keeps (flag name place : Drafting α Unit) := by
  unfold flag
  split
  iterate 6 exact setting_faithful fun _ => rfl
  exact failAt_faithful (.of_some rfl hname)

/-- A quotation mark has been read last. -/
def Quoting (source : String) (s : Desk α) : Prop :=
  ∃ i, s.offset = i + 1 ∧ source.toByteArray[i]? = some 34

/-- Behind a quotation mark a quoted text begins. -/
theorem quoting_of_expect {s t : Desk α} {u : Unit}
    (h : (ofReader (Reader.expect "\"") : Drafting α Unit) source.toByteArray s = .ok u t) :
    Quoting source t := by
  have hquote := Reader.expect_ok (c := '"') rfl (ofReader_ok h).1
  exact ⟨_, hquote.stop, hquote.byte⟩

/-- Behind a quotation mark an option is taken up to the next one. -/
theorem optionRound_faithful {s : Desk α} (hs : Faithful source s) (hquote : Quoting source s) :
    (faithful source).Kept (fun _ => True) (optionRound () source.toByteArray s) := by
  refine (read_faithful (Reader.takeUntil_faithful 34 (by decide)) s hs).bind
    fun w t htake ht _ => ?_
  obtain ⟨hmark, -⟩ := ofReader_ok htake
  obtain ⟨hexcerpt, hrun, hclosing⟩ := Reader.excerpt_takeUntil (by decide) hs.offset hmark
  have hoption : IsOption source w := by
    obtain ⟨i, hi, hopening⟩ := hquote
    refine ⟨fun hmem => ?_, i, t.offset + 1, ?_⟩
    · obtain ⟨b, hb, hcode | ⟨-, hcode⟩⟩ := hexcerpt.exists_byte hrun hmem
      · rw [UInt8.toNat_inj.mp (hcode.trans (show _ = (34 : UInt8).toNat from rfl))] at hb
        cases hb
      · exact absurd hcode (by decide)
    · have hfirst := excerpt_byte "\"" rfl (by decide) hopening
      rw [← hi] at hfirst
      exact (hfirst.append hexcerpt).append (excerpt_byte "\"" rfl (by decide) hclosing)
  have hrest : (faithful source).Keeps (do
      modifyTiling fun t => { t with options := t.options.push w }
      if ← Reader.eat "," then
        Reader.expect "\""
        return .inl ()
      Reader.expect ")"
      return .inr () : Drafting α (Unit ⊕ Unit)) := by
    refine (modifyTiling_faithful ?_).bind fun _ _ => .test (eat_faithful ",") ?_ ?_
    · refine fun t ht => { ht with options := fun v hv => ?_ }
      rcases Array.mem_push.mp hv with hv | rfl
      · exact ht.options v hv
      · exact hoption
    · exact (expect_faithful "\"").bind fun _ _ => .pure trivial
    · exact (expect_faithful ")").bind fun _ _ => .pure trivial
  change (faithful source).Kept _ ((ofReader Reader.takeChar >>= _ : Drafting α _)
    source.toByteArray t)
  rw [ofReader_bind (Reader.takeChar_of_some hclosing)]
  exact hrest _ ⟨(onCharacter_of_ascii hclosing (by decide)).2, ht.draft⟩

/-- Another option is read behind another quotation mark. -/
theorem optionRound_quoting {s t : Desk α}
    (h : optionRound () source.toByteArray s = .ok (.inl ()) t) : Quoting source t := by
  obtain ⟨w, u, -, h⟩ := bind_ok.mp h
  obtain ⟨c, u, -, h⟩ := bind_ok.mp h
  obtain ⟨more, u, -, h⟩ := bind_ok.mp h
  cases more with
  | true =>
      change (do Reader.expect "\""; return .inl () : Drafting α (Unit ⊕ Unit))
        source.toByteArray u = _ at h
      obtain ⟨b, v, hquote, h⟩ := bind_ok.mp h
      cases h
      exact quoting_of_expect hquote
  | false =>
      change (do Reader.expect ")"; return .inr () : Drafting α (Unit ⊕ Unit))
        source.toByteArray u = _ at h
      obtain ⟨b, v, -, h⟩ := bind_ok.mp h
      cases h

/-- Options are what stands between quotation marks. -/
theorem options_faithful : (faithful source).Keeps (options : Drafting α Unit) := by
  refine fun s hs => (expect_faithful "\"" s hs).bind fun _ t hquote ht _ => ?_
  refine .descend (I := Quoting source) (fun _ u hu hs' => ⟨?_, fun _ _ => optionRound_quoting⟩)
    (fun _ => Fault.Quotes.of_none rfl) (quoting_of_expect hquote) ht
  exact (optionRound_faithful hs' hu).mono fun r _ => by cases r <;> trivial

/-- A tree state that has been opened. -/
theorem treeState_faithful {s : Desk α} (hs : Faithful source s)
    (hopen : Opened source "treestate" s.offset) :
    (faithful source).Kept (fun _ => True) (treeState source.toByteArray s) := by
  refine ⟨fun h => ?_, fun h => ?_⟩
  · obtain ⟨w, hw, rfl⟩ := (treeState_iff hs.offset).mp h
    refine ⟨⟨(onCharacter_of_ascii hw.closing (by decide)).2, ?_, hs.draft.bindings⟩, trivial⟩
    refine { hs.draft.tiling with treeStates := fun v hv => ?_ }
    rcases Array.mem_push.mp hv with hv | rfl
    · exact hs.draft.tiling.treeStates v hv
    · exact ⟨_, w, hopen, hw, rfl⟩
  · obtain ⟨-, hend, hdraft, rfl⟩ := treeState_error hs.offset h
    exact ⟨⟨hend ▸ onCharacter_size source, hdraft ▸ hs.draft⟩, Fault.Quotes.of_none rfl⟩

/-! ### Sliders and variables -/

section Directives

variable [Scalar α]

omit [Scalar α] in
/-- Another slider is refused with nothing of the source, or nothing is done. -/
theorem checkSliderCount_faithful {s : Desk α} (place : Nat) (hs : Faithful source s) :
    (faithful source).Kept (fun _ => True) (checkSliderCount place source.toByteArray s) ∧
      ∀ t, checkSliderCount place source.toByteArray s = .ok () t → t = s := by
  have hcheck : checkSliderCount place source.toByteArray s =
      if maxSliders ≤ s.draft.tiling.sliders.size + s.draft.tiling.intSliders.size then
        (ofReader (Reader.failAt place .tooManySliders) : Drafting α Unit) source.toByteArray s
      else .ok () s := by
    unfold checkSliderCount
    change (if _ then _ else _ : Drafting α Unit) source.toByteArray s = _
    split <;> rfl
  rw [hcheck]
  split
  · refine ⟨failAt_faithful (.of_none rfl) s hs, fun t h => ?_⟩
    obtain ⟨h, -⟩ := ofReader_ok h
    rw [Reader.failAt] at h
    cases h
  · refine ⟨.of_ok hs trivial, fun t h => ?_⟩
    cases h
    rfl

omit [Scalar α] in
/-- The first field of a slider is its name. -/
theorem sliderFields_faithful {value : Drafting α β} {directive : String} {s : Desk α}
    (h : (faithful source).Keeps value) (hs : Faithful source s)
    (hopen : Opened source directive s.offset) :
    (faithful source).Kept (fun x => IsNamed source directive x.name)
      (sliderFields value source.toByteArray s) := by
  refine (read_faithful Reader.identifier_faithful s hs).bind fun name t hread ht _ => ?_
  have hname := (ofReader_ok hread).1
  have hnamed : IsNamed source directive name :=
    ⟨_, _, hopen, hname, Reader.excerpt_identifier hs.offset hname⟩
  refine ((expect_faithful ",").bind fun _ _ => h.bind fun _ _ => ?_) t ht
  exact (expect_faithful ",").bind fun _ _ => h.bind fun _ _ => (expect_faithful ",").bind
    fun _ _ => h.bind fun _ _ => (expect_faithful ")").bind fun _ _ => .pure hnamed

/-- One more slider with a name from its directive. -/
theorem forall_mem_push {xs : Array (Slider β)} {x : Slider β} {p : String → Prop}
    (hxs : ∀ y ∈ xs, p y.name) (hx : p x.name) : ∀ y ∈ xs.push x, p y.name := by
  intro y hy
  rcases Array.mem_push.mp hy with hy | rfl
  · exact hxs y hy
  · exact hx

/-- The name of a slider is what stands behind the parenthesis. -/
theorem slider_faithful (prior : Option (Tiling α)) (place : Nat) {s : Desk α}
    (hs : Faithful source s) (hopen : Opened source "slider" s.offset) :
    (faithful source).Kept (fun _ => True) (slider prior place source.toByteArray s) := by
  obtain ⟨hcheck, hstays⟩ := checkSliderCount_faithful place hs
  refine hcheck.bind fun _ t ht _ _ => ?_
  obtain rfl := hstays t ht
  refine (sliderFields_faithful real_faithful hs hopen).bind fun x u _ hu hname => ?_
  refine (draft_faithful.bind fun _ _ => (bindVariable_faithful ?_).bind fun _ _ => ?_) u hu
  · exact .inr (.inr ⟨_, by simp, hname⟩)
  · exact modifyTiling_faithful fun _ ht =>
      { ht with sliders := forall_mem_push (p := IsNamed source "slider") ht.sliders hname }

theorem intSlider_faithful (prior : Option (Tiling α)) (place : Nat) {s : Desk α}
    (hs : Faithful source s) (hopen : Opened source "intslider" s.offset) :
    (faithful source).Kept (fun _ => True) (intSlider prior place source.toByteArray s) := by
  obtain ⟨hcheck, hstays⟩ := checkSliderCount_faithful place hs
  refine hcheck.bind fun _ t ht _ _ => ?_
  obtain rfl := hstays t ht
  refine (sliderFields_faithful integer_faithful hs hopen).bind fun x u _ hu hname => ?_
  refine (draft_faithful.bind fun _ _ => (bindVariable_faithful ?_).bind fun _ _ => ?_) u hu
  · exact .inr (.inr ⟨_, by simp, hname⟩)
  · exact modifyTiling_faithful fun _ ht =>
      { ht with
        intSliders := forall_mem_push (p := IsNamed source "intslider") ht.intSliders hname }

/-- The name of a variable is what stands behind the parenthesis. -/
theorem letVariable_faithful {s : Desk α} (hs : Faithful source s)
    (hopen : Opened source "let" s.offset) :
    (faithful source).Kept (fun _ => True) (letVariable source.toByteArray s) := by
  refine (read_faithful Reader.identifier_faithful s hs).bind fun name t hread ht _ => ?_
  have hname := (ofReader_ok hread).1
  have hvariable : IsVariable source name := .inr (.inr
    ⟨"let", by simp, _, _, hopen, hname, Reader.excerpt_identifier hs.offset hname⟩)
  have hrest : (faithful source).Keeps (do
      Reader.expect "="
      bindVariable name (← realThenClose) : Drafting α Unit) :=
    (expect_faithful "=").bind fun _ _ => realThenClose_faithful.bind fun _ _ =>
      bindVariable_faithful hvariable
  exact (show (faithful source).Keeps _ from .ite (fun _ => (fail_faithful (F := fun _ => False)
    (.of_none rfl)).bind fun _ => False.elim) fun _ => hrest) t ht

/-! ### Gluings -/

omit [Scalar α] in
theorem primeRound_faithful (n : Nat) :
    (faithful source).Keeps (primeRound n : Drafting α (Nat ⊕ Nat)) :=
  .test (eat_faithful "'") (.pure trivial) (.pure trivial)

omit [Scalar α] in
/-- The end of a cycle is refused with a number. -/
theorem cycleTarget_faithful (place : Nat) (edge shape : Int) :
    (faithful source).Keeps (cycleTarget place edge shape : Drafting α (Nat × Nat)) :=
  draft_faithful.bind fun _ _ => guard_faithful rfl <| guard_faithful rfl <| .pure trivial

theorem cycleEnd_faithful : (faithful source).Keeps (cycleEnd : Drafting α (Nat × Nat)) := by
  rw [cycleEnd_eq]
  refine offset_faithful.bind fun place _ => integer_faithful.bind fun edge _ => ?_
  refine (iterate_faithful primeRound_faithful).bind fun primes _ => ?_
  refine .test (eat_faithful "@") ?_ (cycleTarget_faithful place edge primes)
  exact integer_faithful.bind fun shape _ => cycleTarget_faithful place edge shape

omit [Scalar α] in
theorem cycleOpening_faithful :
    (faithful source).Keeps (cycleOpening : Drafting α (Option Bool)) :=
  .test (eat_faithful "(") (.pure trivial) <| .test (eat_faithful "[") (.pure trivial) <|
    .test (eat_faithful "\"") (.pure trivial) (fail_faithful (.of_none rfl))

/-- A cycle adds nothing that is quoted. -/
theorem cycleRound_faithful :
    (faithful source).Keeps (cycleRound () : Drafting α (Unit ⊕ Unit)) := by
  refine cycleOpening_faithful.bind fun opening _ => ?_
  cases opening with
  | none => exact .pure trivial
  | some mirror =>
      refine cycleEnd_faithful.bind fun (a, e) _ => ?_
      refine .bind (F := fun _ => True) ?_ fun closed _ => ?_
      · exact .test (eat_faithful ")") (.pure trivial) (eat_faithful "]")
      extract_lets glue
      have hglue (q : Nat × Nat) : (faithful source).Keeps (do let p ← pure q; glue p) := by
        refine .bind (F := fun _ => True) (.pure trivial) fun _ _ => ?_
        exact .bind (setting_faithful (by exact fun _ => rfl)) fun _ _ => .pure trivial
      refine .ite (fun _ => hglue _) fun _ => cycleEnd_faithful.bind fun last _ => ?_
      exact .test (eat_faithful ")") (hglue last)
        ((eat_faithful "]").bind fun _ _ => hglue last)

theorem cycles_faithful : (faithful source).Keeps (cycles : Drafting α Unit) := by
  rw [cycles_eq]
  exact (expect_faithful "\"").bind fun _ _ => (iterate_faithful fun _ => cycleRound_faithful).bind
    fun _ _ => expect_faithful ")"

theorem connection_faithful : (faithful source).Keeps (connection : Drafting α Unit) :=
  shapeIndex_faithful.bind fun a _ => (expect_faithful ",").bind fun _ _ =>
    (edgeIndex_faithful a).bind fun _ _ => (expect_faithful ",").bind fun _ _ =>
    shapeIndex_faithful.bind fun b _ => (expect_faithful ",").bind fun _ _ =>
    (edgeIndex_faithful b).bind fun _ _ => (expect_faithful ",").bind fun _ _ =>
    integerThenClose_faithful.bind fun _ _ => setting_faithful fun _ => rfl

/-! ### Lines, repetitions and requests -/

theorem subline_faithful : (faithful source).Keeps (subline : Drafting α Unit) :=
  shapeIndex_faithful.bind fun a _ => (expect_faithful ",").bind fun _ _ =>
    (edgeIndex_faithful a).bind fun _ _ => (expect_faithful ",").bind fun _ _ =>
    (edgeIndex_faithful a).bind fun _ _ => (expect_faithful ")").bind fun _ _ =>
    setting_faithful fun _ => rfl

theorem sublines_faithful : (faithful source).Keeps (sublines : Drafting α Unit) := by
  refine draft_faithful.bind fun d _ => real_faithful.bind fun x _ => ?_
  refine .test (eat_faithful ",") (real_faithful.bind fun eps _ => ?_) ?_ <;>
    exact (expect_faithful ")").bind fun _ _ => setting_faithful fun _ => rfl

theorem repeatConnections_faithful :
    (faithful source).Keeps (repeatConnections : Drafting α Unit) := by
  refine shapeIndex_faithful.bind fun a _ => (expect_faithful ",").bind fun _ _ => ?_
  refine offset_faithful.bind fun place _ => integerThenClose_faithful.bind fun count _ => ?_
  refine guard_faithful rfl (draft_faithful.bind fun d _ => ?_)
  dsimp only
  split
  · exact setting_faithful fun _ => rfl
  · exact failAt_faithful (.of_none rfl)

theorem stretchShear_faithful : (faithful source).Keeps (stretchShear : Drafting α Unit) :=
  real_faithful.bind fun _ _ => (expect_faithful ",").bind fun _ _ =>
    real_faithful.bind fun _ _ => (expect_faithful ",").bind fun _ _ =>
    shapeIndex_faithful.bind fun a _ => (expect_faithful ",").bind fun _ _ =>
    (edgeIndex_faithful a).bind fun _ _ => (expect_faithful ")").bind fun _ _ =>
    setting_faithful fun _ => rfl

/-- The tiling that is let out to be inspected is the one of the draft. -/
theorem inspection_faithful : (faithful source).Keeps (inspection : Drafting α Unit) :=
  shapeIndex_faithful.bind fun _ _ => (expect_faithful ")").bind fun _ _ =>
    draft_faithful.bind fun _ hd => stop_faithful hd.tiling

/-! ### Tiles -/

theorem pushCorner_faithful (corners : Array (Corner α)) (edge angle : α) (ideal : Bool) :
    (faithful source).Keeps (pushCorner corners edge angle ideal) :=
  draft_faithful.bind fun _ _ => (read_faithful (Reader.finite_faithful _)).bind fun _ _ =>
    (read_faithful (Reader.finite_faithful _)).bind fun _ _ =>
    .ite (fun _ => (fail_faithful (F := fun _ => False) (.of_none rfl)).bind
      fun _ => False.elim) fun _ => .pure trivial

/-- A factor is refused with a number, or with the parenthesis that is missing. -/
theorem tileRepeat_faithful (corners : Array (Corner α)) :
    (faithful source).Keeps (tileRepeat corners) := by
  refine offset_faithful.bind fun place _ => sum_faithful.bind fun factor _ => ?_
  refine .ite (fun _ => (expect_faithful ")").bind fun _ _ => .pure trivial) fun _ => ?_
  refine (read_faithful (Reader.finite_faithful _)).bind fun _ _ => ?_
  refine guard_faithful rfl (guard_faithful rfl ?_)
  exact .test (eat_faithful ")") (.pure trivial) ((fail_faithful (F := fun _ => False)
    (.of_none rfl)).bind fun _ => False.elim)

theorem tileEntry_faithful (unit : Bool) (corners : Array (Corner α)) :
    (faithful source).Keeps (tileEntry unit corners) := by
  unfold tileEntry
  extract_lets afterBracket
  have hentry (bracket : Bool) : (faithful source).Keeps (afterBracket bracket) := by
    unfold afterBracket
    extract_lets afterEdge
    have hcorner (x : α) : (faithful source).Keeps (do let x ← pure x; afterEdge x) := by
      refine .bind (F := fun _ => True) (.pure trivial) fun x _ => ?_
      refine .bind (F := fun _ => True) ?_ fun ideal _ => .ite (fun _ => ?_) fun _ => ?_
      · exact .ite (fun _ => .pure trivial) fun _ => eat_faithful "["
      · refine sum_faithful.bind fun a _ => (expect_faithful ",").bind fun _ _ => ?_
        refine (pushCorner_faithful _ _ _ _).bind fun cs _ => sum_faithful.bind fun y _ => ?_
        refine (expect_faithful ",").bind fun _ _ => sum_faithful.bind fun b _ => ?_
        exact (expect_faithful "]").bind fun _ _ => pushCorner_faithful _ _ _ _
      · exact sum_faithful.bind fun a _ => pushCorner_faithful _ _ _ _
    refine .ite (fun _ => hcorner 1) fun _ => sum_faithful.bind fun x _ => ?_
    exact (expect_faithful ",").bind fun _ _ => hcorner x
  refine .ite (fun _ => ?_) fun _ => (eat_faithful "[").bind fun b _ => hentry b
  exact .bind (F := fun _ => True) (.pure trivial) fun b _ => hentry b

/-- Corners add nothing that is quoted. -/
theorem cornerRound_faithful (unit : Bool) (corners : Array (Corner α)) :
    (faithful source).Keeps (cornerRound unit corners) := by
  refine .test (eat_faithful ")") (.pure trivial) (.test (eat_faithful "*") ?_ ?_)
  · exact (tileRepeat_faithful corners).bind fun _ _ => .pure trivial
  refine (tileEntry_faithful unit corners).bind fun _ _ => ?_
  exact .test (eat_faithful ",") (.pure trivial) <|
    .test (eat_faithful ")") (.pure trivial) (fail_faithful (.of_none rfl))

theorem outline_faithful (unit : Bool) :
    (faithful source).Keeps (outline unit : Drafting α (Outline α)) := by
  rw [outline_eq]
  exact iterate_faithful (cornerRound_faithful unit)

/-- A tile that does not close is refused together with the variables. -/
theorem tile_faithful (unit : Bool) (place : Nat) :
    (faithful source).Keeps (tile unit place : Drafting α Unit) := by
  refine draft_faithful.bind fun _ _ => guard_faithful rfl ?_
  refine (outline_faithful unit).bind fun o _ => guard_faithful rfl ?_
  refine draft_faithful.bind fun d hd => ?_
  dsimp only
  split
  · exact setting_faithful fun _ => rfl
  · refine stop_faithful fun p hp => hd.bindings p.1 ?_
    rw [← Std.TreeMap.mem_keys, ← Std.TreeMap.map_fst_toList_eq_keys]
    exact List.mem_map_of_mem hp

/-! ### All directives -/

/-- A tree state, and the name of a slider or a variable, begin behind the parenthesis that opens
the directive. -/
theorem directive_faithful (prior : Option (Tiling α)) (place : Nat) {s : Desk α}
    (hs : Faithful source s) (hname : IsExcerpt source name)
    (hopen : Opened source name s.offset) : (faithful source).Kept (fun _ => True)
      (directive prior name place source.toByteArray s) := by
  have hsetting {f : α → Tiling α → Tiling α} (h : ∀ x t, (f x t).captions = t.captions) :
      (faithful source).Kept (fun _ => True) ((do modifyTiling (f (← realThenClose)) :
        Drafting α Unit) source.toByteArray s) :=
    (realThenClose_faithful.bind fun x _ => setting_faithful (h x)) s hs
  have hinteger {f : Int → Tiling α → Tiling α} (h : ∀ n t, (f n t).captions = t.captions) :
      (faithful source).Kept (fun _ => True) ((do modifyTiling (f (← integerThenClose)) :
        Drafting α Unit) source.toByteArray s) :=
    (integerThenClose_faithful.bind fun n _ => setting_faithful (h n)) s hs
  have hunit {f : α → Draft α → Draft α} (h : ∀ u d, d.Quotes source → (f u d).Quotes source) :
      (faithful source).Kept (fun _ => True) ((do modifyDraft (f (← realThenClose)) :
        Drafting α Unit) source.toByteArray s) :=
    (realThenClose_faithful.bind fun u _ => modifyDraft_faithful (h u)) s hs
  have hmark {f : Nat → Tiling α → Tiling α} (h : ∀ i t, (f i t).captions = t.captions) :
      (faithful source).Kept (fun _ => True) ((do modifyTiling (f (← markedShape place)) :
        Drafting α Unit) source.toByteArray s) :=
    ((markedShape_faithful place).bind fun i _ => setting_faithful (h i)) s hs
  unfold directive
  split
  · exact hsetting fun _ _ => rfl
  · exact options_faithful s hs
  · exact hunit fun _ _ hd => ⟨hd.tiling, hd.bindings⟩
  · exact hunit fun _ _ hd => ⟨hd.tiling, hd.bindings⟩
  · exact hmark fun _ _ => rfl
  · exact hmark fun _ _ => rfl
  · exact slider_faithful prior place hs hopen
  · exact intSlider_faithful prior place hs hopen
  · exact letVariable_faithful hs hopen
  · exact tile_faithful false place s hs
  · exact tile_faithful true place s hs
  · refine (scope_faithful.bind fun _ _ => (read_faithful Expression.index_faithful).bind
      fun _ _ => ?_) s hs
    exact (expect_faithful ")").bind fun _ _ => setting_faithful fun _ => rfl
  · exact hsetting fun _ _ => rfl
  · exact treeState_faithful hs hopen
  · refine (integer_faithful.bind fun _ _ => ?_) s hs
    exact .bind (setting_faithful (by exact fun _ => rfl)) fun _ _ => expect_faithful ")"
  · exact hinteger fun _ _ => rfl
  · exact hinteger fun _ _ => rfl
  · exact hsetting fun _ _ => rfl
  · exact hsetting fun _ _ => rfl
  · exact cycles_faithful s hs
  · exact connection_faithful s hs
  · exact subline_faithful s hs
  · exact sublines_faithful s hs
  · exact repeatConnections_faithful s hs
  · exact inspection_faithful s hs
  · exact stretchShear_faithful s hs
  · exact failAt_faithful (.of_some rfl hname) s hs

end Directives

end Drafting

end Mosaic
