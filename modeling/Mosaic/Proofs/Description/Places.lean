import Mosaic.Proofs.Description.Rounds
import Mosaic.Proofs.Expression.Places

/-!
# Description — directives go forward

Every directive leaves the cursor where it was or further on, inside the text, also when it is
refused, and what it is refused for is at a place of the text (`directive_moves`).  The rounds of
its loops advance when they go on, because each of them takes a token or an expression; so do the
rounds of the whole description (`round_moves`).
-/

namespace Mosaic.Drafting

variable {α β γ : Type} {text : ByteArray} {F A : β → Prop}

/-- The cursor of a description. -/
def cursor : Cursor (LoadError α) (Desk α) where
  place := Desk.offset
  allows text e := ∀ p, e = .malformed p → Reader.cursor.allows text p

/-! ### Readings and computations on the draft -/

/-- What reads a text at the cursor moves the cursor of the desk as it moves that of the text. -/
theorem read_moves {r : Reader β} (h : Reader.cursor.Moves text F A r) :
    cursor.Moves text F A (ofReader r : Drafting α β) := by
  intro s hs
  have hends := h s.offset hs
  unfold ofReader
  cases hr : r text s.offset with
  | ok b i =>
      refine ⟨fun h => ?_, (nomatch ·)⟩
      cases h
      exact hends.ok hr
  | error e i =>
      refine ⟨(nomatch ·), fun h => ?_⟩
      cases h
      obtain ⟨hle, hsize, hallows⟩ := hends.error hr
      refine ⟨hle, hsize, fun p hp => ?_⟩
      cases hp
      exact hallows

/-- A computation that leaves the cursor where it is. -/
theorem still_moves {x : Drafting α β}
    (hok : ∀ s, ∃ b t, x text s = .ok b t ∧ t.offset = s.offset) : cursor.Keeps text x := by
  intro s hs
  obtain ⟨b, t, hx, ht⟩ := hok s
  rw [hx]
  refine ⟨fun h => ?_, (nomatch ·)⟩
  cases h
  exact ⟨Nat.le_of_eq ht.symm, Nat.le_trans (Nat.le_of_eq ht) hs, trivial, False.elim⟩

theorem draft_moves : cursor.Keeps text (draft : Drafting α (Draft α)) :=
  still_moves fun _ => ⟨_, _, rfl, rfl⟩

theorem modifyDraft_moves (f : Draft α → Draft α) : cursor.Keeps text (modifyDraft f) :=
  still_moves fun _ => ⟨_, _, rfl, rfl⟩

theorem modifyTiling_moves (f : Tiling α → Tiling α) : cursor.Keeps text (modifyTiling f) :=
  modifyDraft_moves _

theorem bindVariable_moves (name : String) (value : α) :
    cursor.Keeps text (bindVariable name value) :=
  modifyDraft_moves _

/-- A load that stops leaves the cursor where it is; only errors in the text need a place. -/
theorem stop_moves {e : LoadError α} (he : ∀ p, e ≠ .malformed p) :
    cursor.Moves text F A (stop e : Drafting α β) := by
  refine fun s hs => ⟨(nomatch ·), fun h => ?_⟩
  cases h
  exact ⟨Nat.le_refl _, hs, fun p hp => absurd hp (he p)⟩

theorem offset_moves : cursor.Moves text (· ≤ text.size) (fun _ => False)
    (ofReader Reader.offset : Drafting α Nat) :=
  read_moves Reader.offset_moves

/-- A token that is found is taken. -/
theorem eat_moves {token : String} (h : 0 < token.utf8ByteSize) :
    cursor.Moves text (fun _ => True) (· = true) (ofReader (Reader.eat token) : Drafting α Bool) :=
  read_moves (Reader.eat_tests h)

theorem expect_moves (token : String) :
    cursor.Keeps text (ofReader (Reader.expect token) : Drafting α Unit) :=
  read_moves (Reader.expect_moves token).keeps

/-- A fault may be told of any place in the text. -/
theorem failAt_moves {place : Nat} {fault : Fault} (hplace : place ≤ text.size)
    (hfault : Reader.plain fault = true) :
    cursor.Moves text F A (ofReader (Reader.failAt place fault) : Drafting α β) :=
  read_moves (Reader.failAt_moves hplace hfault)

theorem fail_moves {fault : Fault} (hfault : Reader.plain fault = true) :
    cursor.Moves text F A (ofReader (Reader.fail fault) : Drafting α β) :=
  read_moves (Reader.fail_moves hfault)

/-- A loop the rounds of which advance when they go on. -/
theorem iterate_moves {step : γ → Drafting α (γ ⊕ β)} {c : γ}
    (h : ∀ c, cursor.Moves text (fun _ => True) (·.isLeft = true) (step c)) :
    cursor.Keeps text (iterate step c) :=
  .loop (I := fun _ => True) (fun c _ => (h c).mono (fun r _ => by cases r <;> trivial)
    fun _ h => h) trivial

/-- A guard that refuses at an earlier place. -/
theorem guard_moves {c : Prop} [Decidable c] {place : Nat} {fault : Fault} {x : Drafting α β}
    {f : Unit → Drafting α β} (hplace : place ≤ text.size) (hfault : Reader.plain fault = true)
    (h : cursor.Moves text F A x) :
    cursor.Moves text F A (if c then ofReader (Reader.failAt place fault) >>= f else x) :=
  .ite (fun _ => (failAt_moves (F := fun _ => False) (A := fun _ => False) hplace hfault).bind
    fun _ => False.elim) fun _ => h

/-! ### Flags and texts -/

theorem flag_moves (name : String) {place : Nat} (hplace : place ≤ text.size) :
    cursor.Keeps text (flag name place : Drafting α Unit) := by
  unfold flag
  split
  iterate 6 exact modifyTiling_moves _
  exact failAt_moves hplace rfl

/-- A round that goes on to a further option has taken the comma. -/
theorem optionRound_moves :
    cursor.Moves text (fun _ => True) (·.isLeft = true) (optionRound () : Drafting α _) := by
  refine (read_moves (Reader.takeUntil_moves 34)).bind fun s _ => ?_
  refine (read_moves Reader.takeChar_moves).bind fun _ _ => ?_
  refine (modifyTiling_moves _).bind fun _ _ => ?_
  refine .ifTaken (eat_moves (by decide)) ?_ ?_
  · exact (expect_moves _).bind fun _ _ => .pure trivial id
  · exact (expect_moves _).bind fun _ _ => .pure trivial Bool.false_ne_true

theorem options_moves : cursor.Keeps text (options : Drafting α Unit) := by
  rw [options_eq]
  exact (expect_moves _).bind fun _ _ => iterate_moves fun _ => optionRound_moves

/-- A round that goes on has taken a byte of the tree state. -/
theorem treeRound_moves (depth : Nat) :
    cursor.Moves text (fun _ => True) (·.isLeft = true) (treeRound depth : Drafting α _) := by
  refine (read_moves Reader.takeChar_moves).bindOf fun c _ => ?_
  cases c with
  | none => exact fail_moves rfl
  | some c =>
      refine .ite (fun _ => ?_) fun _ => .ite (fun _ => ?_) fun _ => ?_ <;>
        exact .pure trivial fun h => h.2 rfl

theorem treeScan_moves : cursor.Keeps text (treeScan : Drafting α Unit) := by
  rw [treeScan_eq]
  exact iterate_moves treeRound_moves

theorem treeState_moves : cursor.Keeps text (treeState : Drafting α Unit) :=
  offset_moves.bind fun _ _ => treeScan_moves.bind fun _ _ =>
    (read_moves Reader.source_moves).bind fun _ _ => offset_moves.bind fun _ _ =>
      modifyTiling_moves _

/-! ### Values -/

theorem scope_moves : cursor.Keeps text (scope : Drafting α (Scope α)) :=
  draft_moves.bind fun _ _ => .pure trivial id

theorem checkSliderCount_moves {place : Nat} (hplace : place ≤ text.size) :
    cursor.Keeps text (checkSliderCount place : Drafting α Unit) :=
  draft_moves.bind fun _ _ => .ite (fun _ => failAt_moves hplace rfl) fun _ => .pure trivial id

/-- The fields of a slider keep to the text if its value does. -/
theorem sliderFields_moves {value : Drafting α β} (h : cursor.Keeps text value) :
    cursor.Keeps text (sliderFields value) :=
  (read_moves Reader.identifier_moves).bind fun _ _ =>
    (expect_moves _).bind fun _ _ => h.bind fun _ _ => (expect_moves _).bind fun _ _ =>
    h.bind fun _ _ => (expect_moves _).bind fun _ _ => h.bind fun _ _ =>
    (expect_moves _).bind fun _ _ => .pure trivial id

variable [Scalar α]

/-- An expression takes something. -/
theorem sum_advances : cursor.Advances text (sum : Drafting α α) :=
  scope_moves.bind fun _ _ => read_moves Expression.sum_advances

theorem real_advances : cursor.Advances text (real : Drafting α α) :=
  scope_moves.bind fun _ _ => read_moves Expression.real_advances

theorem realThenClose_advances : cursor.Advances text (realThenClose : Drafting α α) :=
  scope_moves.bind fun _ _ => read_moves Expression.realThenClose_advances

theorem integer_advances : cursor.Advances text (integer : Drafting α Int) :=
  scope_moves.bind fun _ _ => read_moves Expression.integer_advances

/-- An index takes something, and is refused where it begins. -/
theorem indexBelow_advances (bound : Nat) :
    cursor.Advances text (indexBelow bound : Drafting α Nat) := by
  refine offset_moves.bind fun place hplace => integer_advances.andThen fun v _ => ?_
  cases v with
  | ofNat n => exact .ite (fun _ => .pure trivial id) fun _ => failAt_moves hplace rfl
  | negSucc n => exact failAt_moves hplace rfl

theorem shapeIndex_advances : cursor.Advances text (shapeIndex : Drafting α Nat) :=
  draft_moves.bind fun _ _ => indexBelow_advances _

theorem edgeIndex_advances (a : Nat) : cursor.Advances text (edgeIndex a : Drafting α Nat) :=
  draft_moves.bind fun _ _ => indexBelow_advances _

theorem integerThenClose_moves : cursor.Keeps text (integerThenClose : Drafting α Int) :=
  integer_advances.keeps.bind fun _ _ => (expect_moves _).bind fun _ _ => .pure trivial id

theorem markedShape_moves {place : Nat} (hplace : place ≤ text.size) :
    cursor.Keeps text (markedShape place : Drafting α Nat) := by
  refine .ifTaken (eat_moves (by decide)) (draft_moves.bind fun d _ => ?_) ?_
  · split
    · exact failAt_moves hplace rfl
    · exact .pure trivial id
  · exact shapeIndex_advances.keeps.bind fun _ _ => (expect_moves _).bind fun _ _ =>
      .pure trivial id

/-! ### Variables and sliders -/

theorem slider_moves (prior : Option (Tiling α)) {place : Nat} (hplace : place ≤ text.size) :
    cursor.Keeps text (slider prior place) :=
  (checkSliderCount_moves hplace).bind fun _ _ =>
    (sliderFields_moves real_advances.keeps).bind fun _ _ => draft_moves.bind fun _ _ =>
    (bindVariable_moves _ _).bind fun _ _ => modifyTiling_moves _

theorem intSlider_moves (prior : Option (Tiling α)) {place : Nat} (hplace : place ≤ text.size) :
    cursor.Keeps text (intSlider prior place) :=
  (checkSliderCount_moves hplace).bind fun _ _ =>
    (sliderFields_moves integer_advances.keeps).bind fun _ _ => draft_moves.bind fun _ _ =>
    (bindVariable_moves _ _).bind fun _ _ => modifyTiling_moves _

theorem letVariable_moves : cursor.Keeps text (letVariable : Drafting α Unit) := by
  refine (read_moves Reader.identifier_moves).bind fun name _ => ?_
  have hrest : cursor.Keeps text (do
      Reader.expect "="
      bindVariable name (← realThenClose) : Drafting α Unit) :=
    (expect_moves _).bind fun _ _ => realThenClose_advances.keeps.bind fun _ _ =>
      bindVariable_moves _ _
  exact .ite (fun _ => (fail_moves (F := fun _ => False) (A := fun _ => False) rfl).bind
    fun _ => False.elim) fun _ => hrest

/-! ### Gluings -/

omit [Scalar α] in
/-- A round that goes on has taken a prime. -/
theorem primeRound_moves (n : Nat) :
    cursor.Moves text (fun _ => True) (·.isLeft = true) (primeRound n : Drafting α _) :=
  .ifTaken (eat_moves (by decide)) (.pure trivial id) (.pure trivial Bool.false_ne_true)

omit [Scalar α] in
/-- The end of a cycle is refused where its indices begin, if it is refused. -/
theorem cycleTarget_moves {place : Nat} (hplace : place ≤ text.size) (edge shape : Int) :
    cursor.Keeps text (cycleTarget place edge shape : Drafting α (Nat × Nat)) :=
  draft_moves.bind fun _ _ => guard_moves hplace rfl <| guard_moves hplace rfl <|
    .pure trivial id

theorem cycleEnd_advances : cursor.Advances text (cycleEnd : Drafting α (Nat × Nat)) := by
  rw [cycleEnd_eq]
  refine offset_moves.bind fun place hplace => integer_advances.andThen fun edge _ => ?_
  refine (iterate_moves primeRound_moves).bind fun primes _ => ?_
  refine .ifTaken (eat_moves (by decide)) ?_ (cycleTarget_moves hplace edge primes)
  exact integer_advances.keeps.bind fun shape _ => cycleTarget_moves hplace edge shape

omit [Scalar α] in
theorem cycleOpening_advances :
    cursor.Advances text (cycleOpening : Drafting α (Option Bool)) :=
  .ifTaken (eat_moves (by decide)) (.pure trivial id) <|
    .ifTaken (eat_moves (by decide)) (.pure trivial id) <|
    .ifTaken (eat_moves (by decide)) (.pure trivial id) (fail_moves rfl)

/-- A round that goes on has taken a cycle. -/
theorem cycleRound_moves :
    cursor.Moves text (fun _ => True) (·.isLeft = true) (cycleRound () : Drafting α _) := by
  refine cycleOpening_advances.andThen fun opening _ => ?_
  cases opening with
  | none => exact .pure trivial id
  | some mirror =>
      refine cycleEnd_advances.keeps.bind fun (a, e) _ => ?_
      refine .bind (F := fun _ => True) (A := fun _ => False) ?_ fun closed _ => ?_
      · exact .ifTaken (eat_moves (by decide)) (.pure trivial id) (eat_moves (by decide)).keeps
      extract_lets glue
      have hglue (q : Nat × Nat) : cursor.Keeps text (do let p ← pure q; glue p) :=
        .bind (F := fun _ => True) (A := fun _ => False) (.pure trivial id) fun _ _ =>
          (modifyTiling_moves _).bind fun _ _ => .pure trivial id
      refine .ite (fun _ => hglue _) fun _ => cycleEnd_advances.keeps.bind fun last _ => ?_
      exact .ifTaken (eat_moves (by decide)) (hglue last)
        ((eat_moves (by decide)).keeps.bind fun _ _ => hglue last)

theorem cycles_moves : cursor.Keeps text (cycles : Drafting α Unit) := by
  rw [cycles_eq]
  exact (expect_moves _).bind fun _ _ => (iterate_moves fun _ => cycleRound_moves).bind
    fun _ _ => expect_moves _

theorem connection_moves : cursor.Keeps text (connection : Drafting α Unit) :=
  shapeIndex_advances.keeps.bind fun a _ => (expect_moves _).bind fun _ _ =>
    (edgeIndex_advances a).keeps.bind fun _ _ => (expect_moves _).bind fun _ _ =>
    shapeIndex_advances.keeps.bind fun b _ => (expect_moves _).bind fun _ _ =>
    (edgeIndex_advances b).keeps.bind fun _ _ => (expect_moves _).bind fun _ _ =>
    integerThenClose_moves.bind fun _ _ => modifyTiling_moves _

/-! ### Lines, repetitions and requests -/

theorem subline_moves : cursor.Keeps text (subline : Drafting α Unit) :=
  shapeIndex_advances.keeps.bind fun a _ => (expect_moves _).bind fun _ _ =>
    (edgeIndex_advances a).keeps.bind fun _ _ => (expect_moves _).bind fun _ _ =>
    (edgeIndex_advances a).keeps.bind fun _ _ => (expect_moves _).bind fun _ _ =>
    modifyTiling_moves _

theorem sublines_moves : cursor.Keeps text (sublines : Drafting α Unit) := by
  refine draft_moves.bind fun d _ => real_advances.keeps.bind fun x _ => ?_
  refine .ifTaken (eat_moves (by decide)) (real_advances.keeps.bind fun eps _ => ?_) ?_ <;>
    exact (expect_moves _).bind fun _ _ => modifyTiling_moves _

theorem repeatConnections_moves : cursor.Keeps text (repeatConnections : Drafting α Unit) := by
  refine shapeIndex_advances.keeps.bind fun a _ => (expect_moves _).bind fun _ _ => ?_
  refine offset_moves.bind fun place hplace => integerThenClose_moves.bind fun count _ => ?_
  refine guard_moves hplace rfl (draft_moves.bind fun d _ => ?_)
  dsimp only
  split
  · exact modifyTiling_moves _
  · exact failAt_moves hplace rfl

theorem stretchShear_moves : cursor.Keeps text (stretchShear : Drafting α Unit) :=
  real_advances.keeps.bind fun _ _ => (expect_moves _).bind fun _ _ =>
    real_advances.keeps.bind fun _ _ => (expect_moves _).bind fun _ _ =>
    shapeIndex_advances.keeps.bind fun a _ => (expect_moves _).bind fun _ _ =>
    (edgeIndex_advances a).keeps.bind fun _ _ => (expect_moves _).bind fun _ _ =>
    modifyTiling_moves _

theorem inspection_moves : cursor.Keeps text (inspection : Drafting α Unit) :=
  shapeIndex_advances.keeps.bind fun _ _ => (expect_moves _).bind fun _ _ =>
    draft_moves.bind fun _ _ => stop_moves nofun

/-! ### Tiles -/

theorem pushCorner_moves (corners : Array (Corner α)) (edge angle : α) (ideal : Bool) :
    cursor.Keeps text (pushCorner corners edge angle ideal) :=
  draft_moves.bind fun _ _ => (read_moves (Reader.finite_moves _)).bind fun _ _ =>
    (read_moves (Reader.finite_moves _)).bind fun _ _ =>
    .ite (fun _ => (fail_moves (F := fun _ => False) (A := fun _ => False) rfl).bind
      fun _ => False.elim) fun _ => .pure trivial id

theorem tileRepeat_moves (corners : Array (Corner α)) :
    cursor.Keeps text (tileRepeat corners) := by
  refine offset_moves.bind fun place hplace => sum_advances.keeps.bind fun factor _ => ?_
  refine .ite (fun _ => (expect_moves _).bind fun _ _ => .pure trivial id) fun _ => ?_
  refine (read_moves (Reader.finite_moves _)).bind fun _ _ => ?_
  refine guard_moves hplace rfl (guard_moves hplace rfl ?_)
  exact .ifTaken (eat_moves (by decide)) (.pure trivial id) ((fail_moves (F := fun _ => False)
    (A := fun _ => False) rfl).bind fun _ => False.elim)

/-- An entry of a tile takes something, with a bracket or without. -/
theorem tileEntry_advances (unit : Bool) (corners : Array (Corner α)) :
    cursor.Advances text (tileEntry unit corners) := by
  unfold tileEntry
  extract_lets afterBracket
  have hentry (bracket : Bool) : cursor.Advances text (afterBracket bracket) := by
    unfold afterBracket
    extract_lets afterEdge
    have hcorner (x : α) : cursor.Advances text (do let x ← pure x; afterEdge x) := by
      refine .bind (F := fun _ => True) (A := fun _ => False) (.pure trivial id) fun x _ => ?_
      refine .bind (F := fun _ => True) (A := fun _ => False) ?_ fun ideal _ => ?_
      · exact .ite (fun _ => .pure trivial id) fun _ => (eat_moves (by decide)).keeps
      -- in every form of an entry an angle is read
      refine .ite (fun _ => ?_) fun _ => ?_
      · refine sum_advances.andThen fun a _ => (expect_moves _).bind fun _ _ => ?_
        refine (pushCorner_moves _ _ _ _).bind fun cs _ => sum_advances.keeps.bind fun y _ => ?_
        refine (expect_moves _).bind fun _ _ => sum_advances.keeps.bind fun b _ => ?_
        exact (expect_moves _).bind fun _ _ => pushCorner_moves _ _ _ _
      · exact sum_advances.andThen fun a _ => pushCorner_moves _ _ _ _
    refine .ite (fun _ => hcorner 1) fun _ => sum_advances.keeps.bind fun x _ => ?_
    exact (expect_moves _).bind fun _ _ => hcorner x
  refine .ite (fun _ => ?_) fun _ => (eat_moves (by decide)).keeps.bind fun b _ => hentry b
  exact .bind (F := fun _ => True) (A := fun _ => False) (.pure trivial id) fun b _ => hentry b

/-- A round that goes on to further corners has taken an entry. -/
theorem cornerRound_moves (unit : Bool) (corners : Array (Corner α)) :
    cursor.Moves text (fun _ => True) (·.isLeft = true) (cornerRound unit corners) := by
  refine .ifTaken (eat_moves (by decide)) (.pure trivial id) ?_
  refine .ifTaken (eat_moves (by decide)) ?_ ?_
  · exact (tileRepeat_moves corners).bind fun _ _ => .pure trivial id
  refine (tileEntry_advances unit corners).andThen fun _ _ => ?_
  exact .ifTaken (eat_moves (by decide)) (.pure trivial id) <|
    .ifTaken (eat_moves (by decide)) (.pure trivial id) (fail_moves rfl)

/-- The list of corners is read to its end without leaving the text. -/
theorem outline_moves (unit : Bool) : cursor.Keeps text (outline unit : Drafting α (Outline α)) := by
  rw [outline_eq]
  exact iterate_moves (cornerRound_moves unit)

/-- A tile is refused inside the text, and leaves the cursor there. -/
theorem tile_moves (unit : Bool) {place : Nat} (hplace : place ≤ text.size) :
    cursor.Keeps text (tile unit place : Drafting α Unit) := by
  refine draft_moves.bind fun _ _ => guard_moves hplace rfl ?_
  refine (outline_moves unit).bind fun o _ => guard_moves hplace rfl ?_
  refine draft_moves.bind fun d _ => ?_
  dsimp only
  split
  · exact modifyTiling_moves _
  · exact stop_moves nofun

/-! ### All directives -/

/-- Whatever its name is, a directive keeps to the text, as each of them does. -/
theorem directive_moves (prior : Option (Tiling α)) (name : String) {place : Nat}
    (hplace : place ≤ text.size) : cursor.Keeps text (directive prior name place) := by
  have hsetting (f : α → Tiling α → Tiling α) :
      cursor.Keeps text (do modifyTiling (f (← realThenClose))) :=
    realThenClose_advances.keeps.bind fun _ _ => modifyTiling_moves _
  have hinteger (f : Int → Tiling α → Tiling α) :
      cursor.Keeps text (do modifyTiling (f (← integerThenClose))) :=
    integerThenClose_moves.bind fun _ _ => modifyTiling_moves _
  have hunit (f : α → Draft α → Draft α) :
      cursor.Keeps text (do modifyDraft (f (← realThenClose))) :=
    realThenClose_advances.keeps.bind fun _ _ => modifyDraft_moves _
  have hmark (f : Nat → Tiling α → Tiling α) :
      cursor.Keeps text (do modifyTiling (f (← markedShape place))) :=
    (markedShape_moves hplace).bind fun _ _ => modifyTiling_moves _
  unfold directive
  split
  · exact hsetting _
  · exact options_moves
  · exact hunit _
  · exact hunit _
  · exact hmark _
  · exact hmark _
  · exact slider_moves prior hplace
  · exact intSlider_moves prior hplace
  · exact letVariable_moves
  · exact tile_moves false hplace
  · exact tile_moves true hplace
  · exact scope_moves.bind fun _ _ => (read_moves Expression.index_advances.keeps).bind fun _ _ =>
      (expect_moves _).bind fun _ _ => modifyTiling_moves _
  · exact hsetting _
  · exact treeState_moves
  · exact integer_advances.keeps.bind fun _ _ => (modifyTiling_moves _).bind fun _ _ =>
      expect_moves _
  · exact hinteger _
  · exact hinteger _
  · exact hsetting _
  · exact hsetting _
  · exact cycles_moves
  · exact connection_moves
  · exact subline_moves
  · exact sublines_moves
  · exact repeatConnections_moves
  · exact inspection_moves
  · exact stretchShear_moves
  · exact failAt_moves hplace rfl

/-! ### Rounds of a description -/

omit [Scalar α] in
theorem comment_moves : cursor.Keeps text (comment : Drafting α Unit) := by
  refine (read_moves Reader.takeChar_moves).bind fun _ _ => ?_
  refine (read_moves Reader.peek_moves).bind fun c _ => ?_
  have hremark : cursor.Keeps text (do
      Reader.skipWhile (· == 32)
      let s ← Reader.restOfLine
      if c == some 35 then modifyTiling (remark s) : Drafting α Unit) :=
    (read_moves (Reader.skipWhile_moves _)).bind fun _ _ =>
      (read_moves Reader.restOfLine_moves).bind fun s _ =>
        .ite (fun _ => modifyTiling_moves _) fun _ => .pure trivial id
  exact .ite (fun _ => (read_moves Reader.takeChar_moves).bind fun _ _ => hremark) fun _ => hremark

/-- Rounds advance when they go on. -/
theorem round_moves (prior : Option (Tiling α)) :
    cursor.Moves text (fun _ => True) (·.isLeft = true) (round prior ()) := by
  have hcommand : cursor.Keeps text (command prior) := by
    refine offset_moves.bind fun place hplace => ?_
    refine (read_moves Reader.identifier_moves).bind fun name _ => guard_moves hplace rfl ?_
    refine .ifTaken (eat_moves (by decide)) ?_ (.ifTaken (eat_moves (by decide)) ?_ ?_)
    · exact (flag_moves name hplace).bind fun _ _ => .pure trivial id
    · exact (directive_moves prior name hplace).bind fun _ _ => .pure trivial id
    · exact (failAt_moves (F := fun _ => False) (A := fun _ => False) hplace rfl).bind
        fun _ => False.elim
  have hround : cursor.Keeps text (round prior ()) := by
    refine (modifyDraft_moves _).bind fun _ _ => (read_moves Reader.atEnd_moves).bind fun _ _ => ?_
    refine .ite (fun _ => .pure trivial id) fun _ => ?_
    refine (read_moves Reader.peek_moves).bind fun _ _ => .ite (fun _ => ?_) fun _ => hcommand
    exact comment_moves.bind fun _ _ => .pure trivial id
  refine hround.strengthen fun {s b t} h hleft => ?_
  cases b with
  | inl _ => exact (round_advances h).1
  | inr _ => cases hleft

/-- The description is read without leaving the text, in rounds that take something. -/
theorem description_moves (prior : Option (Tiling α)) : cursor.Keeps text (description prior) :=
  iterate_moves fun _ => round_moves prior

end Mosaic.Drafting
