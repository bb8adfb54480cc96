import Mathlib
import Mosaic.Proofs.Description.Capture
import Mosaic.Proofs.Description.Stage
import Mosaic.Proofs.Scalar.Whole
import Mosaic.Proofs.Tiling.Valence

/-!
# Description — a load quotes its source

Every round of a description begins and ends on a character of the source, and what it takes into
the draft is said there (`round_faithful`).  The checks and the analysis of a tiling leave its texts
alone (`finish_captions`).  So a tiling that a load lets out quotes the source
(`Tiling.load_quotes`), and none of its characters has been made up (`Tiling.Quotes.texts_mem`).
-/

namespace Mosaic

variable {α : Type} {source w : String}

namespace Drafting

/-! ### Comments -/

/-- A comment is a remark of the source. -/
theorem remark_quotes {t : Tiling α} (h : t.Quotes source) (hw : IsRemark source w) :
    (remark w t).Quotes source := by
  unfold remark
  split
  · exact { h with name := .inr hw }
  · obtain ⟨lines, hcomment, hlines⟩ := h.comment
    refine { h with comment := ⟨lines ++ [w], ?_, fun v hv => ?_⟩ }
    · rw [hcomment, List.map_append, String.join_append, List.map_singleton, String.join_cons,
        String.join_nil, String.append_empty, String.append_assoc]
    · rcases List.mem_append.mp hv with hv | hv
      · exact hlines v hv
      · rwa [List.mem_singleton.mp hv]

/-- The marks of a comment, its text and its end are between characters. -/
theorem comment_onCharacter {i : Nat} (h : source.toByteArray[i]? = some 35) :
    OnCharacter source (if doubled source.toByteArray i then i + 2 else i + 1) ∧
      OnCharacter source (commentStart source.toByteArray i) ∧
      OnCharacter source (commentEnd source.toByteArray i) := by
  have hfirst : OnCharacter source (if doubled source.toByteArray i then i + 2 else i + 1) := by
    split
    · rename_i hdoubled
      obtain ⟨c, hc, hmark⟩ := (Option.any_eq_true _ _).mp hdoubled
      obtain rfl := beq_iff_eq.mp hmark
      exact (onCharacter_of_ascii hc (by decide)).2
    · exact (onCharacter_of_ascii h (by decide)).2
  have hstart : OnCharacter source (commentStart source.toByteArray i) := by
    refine (runEnd_spec (· == 32) source.toByteArray _).1.onCharacter (fun c hc => ?_) hfirst
    rw [beq_iff_eq.mp hc]
    decide
  exact ⟨hfirst, hstart, (Reader.excerpt_restOfLine hstart rfl).right⟩

/-- The text of a comment with two marks. -/
theorem isRemark_of_doubled {i : Nat} (h : source.toByteArray[i]? = some 35)
    (hdoubled : doubled source.toByteArray i = true) :
    IsRemark source (textBetween source.toByteArray (commentStart source.toByteArray i)
      (commentEnd source.toByteArray i)) := by
  obtain ⟨hfirst, hstart, -⟩ := comment_onCharacter h
  rw [if_pos hdoubled] at hfirst
  obtain ⟨c, hc, hmark⟩ := (Option.any_eq_true _ _).mp hdoubled
  obtain rfl := beq_iff_eq.mp hmark
  have hmarks : Excerpt source i (i + 2) "##" :=
    (excerpt_byte "#" rfl (by decide) h).append
      (excerpt_byte "#" rfl (by decide) hc)
  obtain ⟨hrun, hfar⟩ := runEnd_spec (· == 32) source.toByteArray (i + 2)
  have hrunEnd : runEnd (· == 32) source.toByteArray (i + 2) =
      commentStart source.toByteArray i := by
    rw [commentStart, if_pos hdoubled]
  rw [hrunEnd] at hrun hfar
  have hspaces := excerpt_textBetween hfirst hstart hrun.1
  obtain ⟨hline, hcontrol⟩ := runEnd_spec (32 ≤ ·) source.toByteArray
    (commentStart source.toByteArray i)
  have htext := Reader.excerpt_restOfLine hstart rfl
  refine ⟨i, _, _, (hmarks.append hspaces).append htext, fun c hc => ?_, fun hspace => ?_,
    fun c hc => ?_, fun b hb => ?_⟩
  · obtain ⟨b, hb, hcode⟩ := hspaces.exists_byte hrun hc
    obtain rfl := beq_iff_eq.mp hb
    exact Char.ext (UInt32.toNat_inj.mp (hcode.resolve_right (by simp)).symm)
  · rw [htext.first_byte hspace] at hfar
    exact hfar rfl
  · obtain ⟨b, hb, hcode⟩ := htext.exists_byte hline hc
    have hb : 32 ≤ b.toNat := UInt8.le_iff_toNat_le.mp (of_decide_eq_true hb)
    change ' '.val ≤ c.val
    rw [UInt32.le_iff_toNat_le]
    change 32 ≤ c.val.toNat
    omega
  · change source.toByteArray[runEnd (32 ≤ ·) source.toByteArray _]? = some b at hb
    rw [hb, Option.any_some, Bool.not_eq_true] at hcontrol
    exact UInt8.not_le.mp (of_decide_eq_false hcontrol)

/-- What a comment adds is an excerpt. -/
theorem comment_faithful {s : Desk α} (hs : Faithful source s)
    (h : source.toByteArray[s.offset]? = some 35) :
    Faithful source ⟨commentEnd source.toByteArray s.offset,
      commentDraft source.toByteArray s.offset s.draft⟩ := by
  refine ⟨(comment_onCharacter h).2.2, ?_⟩
  unfold commentDraft
  split
  · exact ⟨remark_quotes hs.draft.tiling (isRemark_of_doubled h ‹_›), hs.draft.bindings⟩
  · exact hs.draft

/-! ### Rounds -/

variable [Scalar α]

/-- The name of a call, the blanks after it and the opening parenthesis follow each other. -/
theorem command_faithful (prior : Option (Tiling α)) :
    (faithful source).Keeps (command prior) := by
  intro s hs
  refine (offset_faithful s hs).bind fun place t _ ht _ => ?_
  refine (read_faithful Reader.identifier_faithful t ht).bind fun name u hread hu hname => ?_
  have hexcerpt := Reader.excerpt_identifier ht.offset (ofReader_ok hread).1
  change (faithful source).Kept _ ((if name.isEmpty then _ else _ : Drafting α (Unit ⊕ Unit))
    source.toByteArray u)
  split
  · exact (failAt_faithful (F := fun _ => False) (.of_none rfl)).bind (fun _ => False.elim) u hu
  refine (eat_faithful "." u hu).bind fun isFlag v hdot hv _ => ?_
  cases isFlag with
  | true => exact ((flag_faithful hname place).bind fun _ _ => .pure trivial) v hv
  | false =>
      obtain ⟨htrue, -⟩ | ⟨-, hgap, -⟩ := Reader.eat_ok (c := '.') rfl (ofReader_ok hdot).1
      · cases htrue
      refine (eat_faithful "(" v hv).bind fun isCall x hopen hx _ => ?_
      cases isCall with
      | true =>
          obtain ⟨-, hparen⟩ | ⟨hfalse, -⟩ := Reader.eat_ok (c := '(') rfl (ofReader_ok hopen).1
          · have hcall : Opened source name x.offset := by
              rw [hparen.stop, hgap, gap_gap]
              refine hexcerpt.opened ?_
              have hbyte := hparen.byte
              rwa [hgap, gap_gap] at hbyte
            exact (directive_faithful prior place hx hname hcall).bind
              fun _ y _ hy _ => .of_ok hy trivial
          · cases hfalse
      | false =>
          exact (failAt_faithful (F := fun _ => False) (.of_some rfl hname)).bind
            (fun _ => False.elim) x hx

/-- Whatever stands next in a description, it is read faithfully. -/
theorem round_faithful (prior : Option (Tiling α)) :
    (faithful source).Keeps (round prior ()) := by
  intro s hs
  change (faithful source).Kept _ (round prior () source.toByteArray s)
  have hgap : Faithful source ⟨gap source.toByteArray s.offset, unitsBound s.draft⟩ :=
    ⟨gap_onCharacter hs.offset, unitsBound_quotes hs.draft⟩
  rw [round_apply]
  split
  · exact .of_ok hgap trivial
  · rw [entry_apply]
    split
    · exact .of_ok (comment_faithful hgap ‹_›) trivial
    · exact command_faithful prior _ hgap

theorem description_faithful (prior : Option (Tiling α)) :
    (faithful source).Keeps (description prior) := iterate_faithful fun _ => round_faithful prior

/-- A load begins with nothing that is quoted. -/
theorem start_faithful (source : String) (settings : Settings) (prior : Option (Tiling α)) :
    Faithful source (start settings prior) where
  offset := onCharacter_zero source
  draft :=
    { tiling :=
        { name := .inl rfl
          comment := ⟨[], rfl, nofun⟩
          options := nofun
          sliders := nofun
          intSliders := nofun
          treeStates := nofun }
      bindings := fun _ h => absurd h Std.TreeMap.not_mem_emptyc }

/-- Between two directives the cursor is on a character, and the draft quotes the source. -/
theorem Stage.faithful {settings : Settings} {prior : Option (Tiling α)} {s : Desk α}
    (h : Stage settings prior source.toByteArray s) : Faithful source s :=
  h.keeps (P := fun _ s => Faithful source s)
    (fun _ t _ _ _ ht hround => ((round_faithful prior t ht).ok hround).1)
    (start_faithful source settings prior)

end Drafting

/-! ### Loads -/

namespace Tiling

variable [Scalar α] {t u v : Tiling α} {settings : Settings} {prior : Option (Tiling α)}
  {rules : Tiling α → Except String Unit}

theorem analyseValence_captions {a : Unit} (h : analyseValence t = .ok a u) :
    u.captions = t.captions := by
  have hkept : (left (analyseValence t)).captions = t.captions :=
    analyseValence_keeps (P := fun u => u.captions = t.captions) (fun _ _ _ h => h)
      (fun _ _ h => h) (fun _ h => h) (fun _ h => h) rfl
  rwa [h] at hkept

theorem doubleCover_captions (t : Tiling α) : t.doubleCover.captions = t.captions := by
  unfold doubleCover
  dsimp only
  split <;> rfl

/-- What is checked and analysed keeps its texts. -/
theorem finish_captions (h : t.finish settings = .ok u) : u.captions = t.captions := by
  have hcover : (t.cover settings).captions = t.captions := by
    unfold cover
    split
    · exact doubleCover_captions t
    · rfl
  obtain ⟨-, h⟩ := finish_ok.mp h
  split at h
  · subst h
    exact hcover
  · exact (analyseValence_captions h).trans hcover

/-- The texts of a tiling that is loaded are from its source. -/
theorem load_ok_quotes (h : load source settings prior rules = .ok t) : t.Quotes source := by
  obtain ⟨u, hu, hfinish, -⟩ := load_ok.mp h
  obtain ⟨-, desk, hdesk, rfl⟩ := read_ok.mp hu
  have hstart := Drafting.start_faithful source settings prior
  obtain ⟨hfaithful, -⟩ := (Drafting.description_faithful prior _ hstart).ok hdesk
  exact hfaithful.draft.tiling.of_captions (finish_captions hfinish)

/-- What an error repeats is from its source. -/
theorem load_error_quotes {e : LoadError α} (h : load source settings prior rules = .error e) :
    e.Quotes source := by
  rcases load_error h with h | ⟨u, -, h⟩ | ⟨reason, rfl⟩
  · rcases read_error h with ⟨-, rfl⟩ | ⟨desk, hdesk⟩
    · exact Fault.Quotes.of_none rfl
    · have hstart := Drafting.start_faithful source settings prior
      exact ((Drafting.description_faithful prior _ hstart).error hdesk).2
  · obtain ⟨x, rfl, -⟩ := finish_error h
    trivial
  · trivial

end Tiling

/-! ### Characters -/

/-- The characters of an excerpt are those of the source. -/
theorem Excerpt.mem {i j : Nat} {c : Char} (h : Excerpt source i j w) (hc : c ∈ w.toList) :
    c ∈ source.toList := by
  obtain ⟨before, after, rfl, -⟩ := h
  simp [hc]

theorem IsRemark.mem {c : Char} (h : IsRemark source w) (hc : c ∈ w.toList) :
    c ∈ source.toList := by
  obtain ⟨i, j, spaces, hexcerpt, -⟩ := h
  exact hexcerpt.mem (by simp [hc])

theorem IsOption.mem {c : Char} (h : IsOption source w) (hc : c ∈ w.toList) :
    c ∈ source.toList := by
  obtain ⟨-, i, j, hexcerpt⟩ := h
  exact hexcerpt.mem (by simp [hc])

theorem IsNamed.mem {directive : String} {c : Char} (h : IsNamed source directive w)
    (hc : c ∈ w.toList) : c ∈ source.toList := by
  obtain ⟨i, j, -, -, hexcerpt⟩ := h
  exact hexcerpt.mem hc

/-- Trimming adds no character. -/
theorem mem_of_mem_trim {c : Char} (hc : c ∈ (Text.trim w).toList) : c ∈ w.toList := by
  rw [Text.trim, String.toList_ofList, List.mem_reverse] at hc
  exact List.dropWhile_subset _ (List.mem_reverse.mp (List.dropWhile_subset _ hc))

theorem IsTreeState.mem {c : Char} (h : IsTreeState source w) (hc : c ∈ w.toList) :
    c ∈ source.toList := by
  obtain ⟨i, text, -, henclosed, rfl⟩ := h
  exact henclosed.excerpt.mem (mem_of_mem_trim hc)

/-- All that a tiling has from its description. -/
def Tiling.texts (t : Tiling α) : List String :=
  t.name :: t.comment :: (t.options.toList ++ t.sliders.toList.map (·.name) ++
    t.intSliders.toList.map (·.name) ++ t.treeStates.toList)

/-- Beside the name of a tiling without a name and the ends of the lines of a comment, no character
is made up. -/
theorem Tiling.Quotes.texts_mem {t : Tiling α} (h : t.Quotes source) {c : Char} (hw : w ∈ t.texts)
    (hc : c ∈ w.toList) : c ∈ source.toList ∨ c ∈ unnamed.toList ∨ c = '\n' := by
  simp only [texts, List.mem_cons, List.mem_append, List.mem_map, Array.mem_toList_iff] at hw
  rcases hw with rfl | rfl | ((hw | ⟨x, hx, rfl⟩) | ⟨x, hx, rfl⟩) | hw
  · rcases h.name with hname | hname
    · exact .inr (.inl (hname ▸ hc))
    · exact .inl (hname.mem hc)
  · obtain ⟨lines, hcomment, hlines⟩ := h.comment
    rw [hcomment, String.toList_join, List.mem_flatMap] at hc
    obtain ⟨line, hline, hc⟩ := hc
    obtain ⟨v, hv, rfl⟩ := List.mem_map.mp hline
    rw [String.toList_append, List.mem_append] at hc
    rcases hc with hc | hc
    · exact .inl ((hlines v hv).mem hc)
    · exact .inr (.inr (List.mem_singleton.mp hc))
  · exact .inl ((h.options w hw).mem hc)
  · exact .inl ((h.sliders x hx).mem hc)
  · exact .inl ((h.intSliders x hx).mem hc)
  · exact .inl ((h.treeStates w hw).mem hc)

/-- No text has a replacement character that the source has not. -/
theorem Tiling.Quotes.replacement_mem {t : Tiling α} (h : t.Quotes source) (hw : w ∈ t.texts)
    (hc : Utf8.replacement ∈ w.toList) : Utf8.replacement ∈ source.toList := by
  rcases h.texts_mem hw hc with hc | hc | hc
  · exact hc
  · exact absurd hc (by decide)
  · exact absurd hc (by decide)

namespace Tiling

open Drafting

/-- **Texts are taken out of a source as they are.**  Readers that begin on a character take
excerpts, and end on a character as all operations do.  A tree state is the text up to the
parenthesis that closes its directive, and reading goes on behind this.  The stages of a load are on
characters, and so are the ends of its rounds and of its directives.  So a tiling that is loaded
quotes the source, without replacement characters of its own, and so does an error. -/
theorem load_quotes [Scalar α] (source : String) (settings : Settings) (prior : Option (Tiling α))
    (rules : Tiling α → Except String Unit) :
    (∀ i j w, OnCharacter source i →
      (Reader.identifier source.toByteArray i = .ok w j →
        Excerpt source (gap source.toByteArray i) j w) ∧
      (Reader.restOfLine source.toByteArray i = .ok w j → Excerpt source i j w) ∧
      ∀ stop < 128, Reader.takeUntil stop source.toByteArray i = .ok w j →
        Excerpt source i j w ∧ source.toByteArray[j]? = some stop) ∧
    (∀ i j e, OnCharacter source i → Reader.numeral source.toByteArray i = .error e j →
      ∃ w, e.fault = .malformedNumber w ∧ Excerpt source i j w) ∧
    (∀ (op : Operation α) i, op.Whole source i → OnCharacter source i →
      OnCharacter source (left (op.read source.toByteArray i))) ∧
    (∀ s t : Desk α, OnCharacter source s.offset →
      (treeState source.toByteArray s = .ok () t ↔ ∃ w, Enclosed source s.offset w ∧
        t = ⟨s.offset + w.utf8ByteSize + 1,
          { s.draft with tiling := withTreeState w s.draft.tiling }⟩)) ∧
    (∀ s : Desk α, Stage settings prior source.toByteArray s → Faithful source s ∧
      Faithful source (left (round prior () source.toByteArray s))) ∧
    (∀ (s : Desk α) name place, Faithful source s → IsExcerpt source name →
      Opened source name s.offset →
      Faithful source (left (directive prior name place source.toByteArray s))) ∧
    (∀ t, load source settings prior rules = .ok t → t.Quotes source ∧
      ∀ w ∈ t.texts, Utf8.replacement ∈ w.toList → Utf8.replacement ∈ source.toList) ∧
    ∀ e, load source settings prior rules = .error e → e.Quotes source := by
  refine ⟨fun i j w hi => ⟨Reader.excerpt_identifier hi, Reader.excerpt_restOfLine hi,
    fun stop hstop h => ?_⟩, fun i j e hi h => (Reader.excerpt_numeral hi).2 e j h,
    fun op i => op.read_onCharacter, fun s t => treeState_iff, fun s hs => ?_,
    fun s name place hs hname hopen => (directive_faithful prior place hs hname hopen).left,
    fun t h => ?_, fun e => load_error_quotes⟩
  · obtain ⟨hexcerpt, -, hbyte⟩ := Reader.excerpt_takeUntil hstop hi h
    exact ⟨hexcerpt, hbyte⟩
  · have hfaithful := hs.faithful
    exact ⟨hfaithful, (round_faithful prior s hfaithful).left⟩
  · have hquotes := load_ok_quotes h
    exact ⟨hquotes, fun w => hquotes.replacement_mem⟩

/-! ### A tiling with glosses -/

/-- A description with characters of two and of three bytes in all that is taken out of it. -/
def glossed : String := "##Ω\n##€\noption(\"é\")treestate((→.) )"

/-- A description with a directive that does not exist. -/
def misspelt : String := "##Ω\ntreestat(→)"

set_option maxRecDepth 10000 in
theorem glossed_loads : ∃ t : Tiling Whole,
    load glossed .default none (fun _ => .ok ()) = .ok t ∧ t.name = "Ω" ∧ t.comment = "€\n" ∧
      t.options = #["é"] ∧ t.treeStates = #["(→.)"] := by
  have hload : (match (load glossed .default none (fun _ => .ok ()) :
      Except (LoadError Whole) (Tiling Whole)) with
    | .ok t => t.name == "Ω" && t.comment == "€\n" && t.options == #["é"] &&
        t.treeStates == #["(→.)"]
    | .error _ => false) = true := by cbv
  split at hload
  case h_1 t ht => exact ⟨t, ht, by simpa [and_assoc] using hload⟩
  case h_2 => cases hload

set_option maxRecDepth 10000 in
theorem misspelt_fails : ∃ e : LoadError Whole,
    load misspelt .default none (fun _ => .ok ()) = .error e := by
  have hload : (match (load misspelt .default none (fun _ => .ok ()) :
      Except (LoadError Whole) (Tiling Whole)) with
    | .ok _ => false
    | .error _ => true) = true := by cbv
  split at hload
  case h_1 => cases hload
  case h_2 e he => exact ⟨e, he⟩

set_option maxRecDepth 10000 in
/-- All that is taken out of a description, and what is repeated of another one. -/
theorem load_quotes_glossed :
    Excerpt glossed 11 17 "option" ∧ Excerpt glossed 7 10 "€" ∧ Excerpt glossed 19 21 "é" ∧
    (∃ w, Fault.malformedNumber "." = .malformedNumber w ∧ Excerpt glossed 37 38 w) ∧
    OnCharacter glossed (left ((Operation.restOfLine : Operation Whole).read
      glossed.toByteArray 2)) ∧
    (∃ w, Enclosed glossed 33 w) ∧
    (∃ s : Desk Whole, Stage .default none glossed.toByteArray s ∧ Faithful glossed s ∧
      Opened glossed "treestate" 33 ∧ Faithful glossed
        (left (directive none "treestate" 23 glossed.toByteArray ⟨33, s.draft⟩))) ∧
    (∃ t : Tiling Whole, load glossed .default none (fun _ => .ok ()) = .ok t ∧
      t.Quotes glossed ∧ "(→.)" ∈ t.texts ∧ Utf8.replacement ∉ "(→.)".toList) ∧
    ∃ e : LoadError Whole, load misspelt .default none (fun _ => .ok ()) = .error e ∧
      e.Quotes misspelt := by
  obtain ⟨htaken, hnumber, hread, htree, hstage, hdirective, hload, -⟩ :=
    load_quotes glossed .default (none : Option (Tiling Whole)) (fun _ => .ok ())
  obtain ⟨-, -, -, -, -, -, -, herror⟩ :=
    load_quotes misspelt .default (none : Option (Tiling Whole)) (fun _ => .ok ())
  have hname : Reader.identifier glossed.toByteArray 11 = .ok "option" 17 := by cbv
  have hline : Reader.restOfLine glossed.toByteArray 7 = .ok "€" 10 := by cbv
  have hmark : Reader.takeUntil 34 glossed.toByteArray 19 = .ok "é" 21 := by cbv
  have hgap : gap glossed.toByteArray 11 = 11 := by cbv
  have hnumeral : Reader.numeral glossed.toByteArray 37 =
      .error ⟨.malformedNumber ".", 37, 3, 28⟩ 38 := by cbv
  have hcall : Opened glossed "treestate" 33 :=
    ⟨23, "", by simp, "##Ω\n##€\noption(\"é\")", "(→.) )", by decide, by decide, by decide⟩
  have hclosed : answer (treeState glossed.toByteArray (⟨33, (start .default
      (none : Option (Tiling Whole))).draft⟩ : Desk Whole)) = some () := by cbv
  have hat {i : Nat} (h : (decide (OnCharacter glossed i)) = true) : OnCharacter glossed i :=
    of_decide_eq_true h
  have hstart := (hstage _ .refl).1
  obtain ⟨w, hw, -⟩ := (htree _ _ (hat (by decide +kernel))).mp (eq_ok_of_answer hclosed)
  obtain ⟨t, ht, -, -, -, htrees⟩ := glossed_loads
  obtain ⟨hquotes, hreplacement⟩ := hload t ht
  have htext : "(→.)" ∈ t.texts := by simp [texts, htrees]
  refine ⟨hgap ▸ (htaken 11 17 _ (hat (by decide +kernel))).1 hname,
    (htaken 7 10 _ (hat (by decide +kernel))).2.1 hline,
    ((htaken 19 21 _ (hat (by decide +kernel))).2.2 34 (by decide) hmark).1,
    hnumber 37 38 _ (hat (by decide +kernel)) hnumeral,
    hread _ 2 trivial (hat (by decide +kernel)),
    ⟨w, hw⟩, ⟨_, .refl, hstart, hcall, ?_⟩, ⟨t, ht, hquotes, htext, by decide⟩, ?_⟩
  · exact hdirective ⟨33, _⟩ _ 23 ⟨hat (by decide +kernel), hstart.draft⟩
      ⟨23, 32, "##Ω\n##€\noption(\"é\")", "((→.) )", by decide, by decide, by decide⟩ hcall
  · obtain ⟨e, he⟩ := misspelt_fails
    exact ⟨e, he, herror e he⟩

end Tiling

end Mosaic
