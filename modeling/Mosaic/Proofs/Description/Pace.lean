import Mosaic.Proofs.Description.TilePace

/-!
# Description — directives keep pace

Each directive of one description is followed by the same one of another description, also if the
two runs read other values (`Drafting.directive_closes`): which directives there are, and where they
end, depends on the text alone.
-/

namespace Mosaic.Drafting

open Lockstep

variable {α : Type} [Scalar α] {S : Stretch} {exact : Prop} {prior prior' : Option (Tiling α)}

/-! ### Flags, options and texts -/

/-- Both drafts get their geometry. -/
theorem setGeometry_keeps {g g' : Geometry} (h : (lockstep S exact prior prior').Val g g') :
    (lockstep S exact prior prior').Keeps Eq (setGeometry g : Drafting α Unit) (setGeometry g') :=
  setting_keeps (fun _ => rfl) (fun _ => rfl) fun he _ _ => by rw [h he]

theorem flag_keeps (name : String) (place place' : Nat) :
    (lockstep S exact prior prior').Keeps Eq (flag name place : Drafting α Unit)
      (flag name place') := by
  unfold flag
  split
  iterate 3 exact setGeometry_keeps (.refl _)
  · exact setting_keeps (fun _ => rfl) (fun _ => rfl) fun _ _ _ => rfl
  · exact setting_keeps (fun _ => rfl) (fun _ => rfl) fun _ _ _ => rfl
  · exact modifyTiling_keeps (fun t => .congr rfl rfl rfl rfl fun _ => rfl) (fun _ => rfl)
      (fun _ => rfl) fun _ _ _ => rfl
  · exact .refuse (failAt_refuses _ _)

theorem optionRound_closes : (lockstep S exact prior prior').Closes (Sum.LiftRel Eq Eq)
    (optionRound () : Drafting α (Unit ⊕ Unit)) (optionRound ()) := by
  refine .bind (read_follows (Stretch.takeUntil_follows 34)) fun s _ hs => hs ▸ ?_
  refine .bind (read_tests Stretch.takeChar_tests).follows fun _ _ _ => ?_
  refine .bind (Keeps.follows (R := Eq) (setting_keeps (fun _ => rfl) (fun _ => rfl)
    fun _ _ _ => rfl)) fun _ _ _ => ?_
  refine .bind (eat_tests (c := ',') rfl).follows fun more _ hmore => hmore ▸ ?_
  refine .ite (fun _ => ?_) fun _ => ?_
  · exact .andThen (expect_closes (c := '"') rfl) fun _ _ _ => .pure (.inl rfl)
  · exact .andThen (expect_closes (c := ')') rfl) fun _ _ _ => .pure (.inr rfl)

/-- The options of both sources end at the same token. -/
theorem options_closes :
    (lockstep S exact prior prior').Closes Eq (options : Drafting α Unit) options := by
  rw [options_eq]
  refine .bind (expect_closes (c := '"') rfl).follows fun _ _ _ => ?_
  exact .iterate (S := Eq) (fun _ _ _ _ h => nomatch h) (fun _ _ _ => optionRound_closes) rfl

/-- The tiling with one more tree state. -/
def withTreeState (payload : String) (t : Tiling α) : Tiling α :=
  { t with treeStates := t.treeStates.push (Text.trim payload), haveTree := true }

omit [Scalar α] in
/-- The text of a tree state is cut out from where it begins to where the scan stops. -/
theorem treeState_apply (text : ByteArray) (s : Desk α) : treeState text s =
    match treeScan text s with
    | .ok _ t => modifyTiling (withTreeState (textBetween text s.offset (t.offset - 1))) text t
    | .error e t => .error e t := by
  change (treeScan >>= fun _ => _ : Drafting α Unit) text s = _
  simp only [bind, ReaderT.bind, EStateM.bind]
  cases treeScan text s <;> rfl

/-- Both readers count the same parentheses of a tree state. -/
theorem treeRound_closes (depth : Nat) : (lockstep S exact prior prior').Closes
    (Sum.LiftRel Eq Eq) (treeRound depth : Drafting α (Nat ⊕ Unit)) (treeRound depth) := by
  refine .tests (read_tests Stretch.takeChar_tests) (fun c hc => ?_) fun c hc => ?_
  · cases c with
    | none => cases hc
    | some c =>
        refine .ite (fun _ => .pure (.inl rfl)) fun _ => ?_
        refine .ite (fun _ => ?_) fun _ => .pure (.inl rfl)
        refine .pure ?_
        split
        · exact .inr rfl
        · exact .inl rfl
  · cases c with
    | none => exact .refuse (fail_refuses _)
    | some c => exact absurd rfl hc

theorem treeScan_closes :
    (lockstep S exact prior prior').Closes Eq (treeScan : Drafting α Unit) treeScan := by
  rw [treeScan_eq]
  exact .iterate (S := Eq) (fun _ _ _ _ h => nomatch h)
    (fun depth _ hdepth => hdepth ▸ treeRound_closes depth) rfl

theorem treeState_closes :
    (lockstep S exact prior prior').Closes Eq (treeState : Drafting α Unit) treeState := by
  have hscans : (lockstep S exact prior prior').Closes Eq (treeScan : Drafting α Unit) treeScan :=
    treeScan_closes
  have hputs (p p' : String) (hp : (lockstep S exact prior prior').Val p p') :
      (lockstep S exact prior prior').Keeps Eq (modifyTiling (withTreeState (α := α) p))
        (modifyTiling (withTreeState p')) :=
    setting_keeps (fun _ => rfl) (fun _ => rfl) fun he _ _ => by rw [hp he]; rfl
  have hok {s s' : Desk α} {b} (h : treeState S.first s = .ok b s') : ∃ t,
      treeScan S.first s = .ok () t ∧ modifyTiling (withTreeState (textBetween S.first s.offset
        (t.offset - 1))) S.first t = .ok () s' := by
    rw [treeState_apply] at h
    split at h
    · exact ⟨_, ‹_›, h⟩
    · cases h
  refine ⟨⟨fun h => ?_, fun {s b s' u} h hr hu => ?_, fun {s e s'} h => ?_⟩, fun h hr => ?_⟩
  · obtain ⟨t, hscan, hput⟩ := hok h
    exact trans _ (hscans.keeps.leads hscan) ((hputs _ _ (.refl _)).leads hput)
  · obtain ⟨t, hscan, hput⟩ := hok h
    have ht := reached_of_leads _ ((hputs _ _ (.refl _)).leads hput) hr
    have hanswer := hscans.keeps.answers hscan ht hu
    change (lockstep S exact prior prior').Answers Eq b s' (treeState S.second u)
    rw [treeState_apply]
    change (lockstep S exact prior prior').Answers Eq () t (treeScan S.second u) at hanswer
    generalize treeScan S.second u = r at hanswer
    cases hanswer with
    | error hne => exact .error hne
    | ok _ hv =>
        refine (hputs _ _ fun _ => ?_).answers hput hr hv
        have hle := (hscans.keeps.leads hscan).1
        rw [hu.1.2, hv.1.2, S.textBetween_pred_shift hu.1.1 hle ht.1]
  · change treeState S.first s = .error e s' at h
    rw [treeState_apply] at h
    split at h
    · cases h
    · cases h
      exact hscans.keeps.lets ‹_›
  · obtain ⟨t, hscan, hput⟩ := hok h
    exact hscans.closes hscan (reached_of_leads _ ((hputs _ _ (.refl _)).leads hput) hr)

/-! ### Marks, variables and sliders -/

/-- A shape that is marked is read in lockstep, and both are in bounds or neither is. -/
theorem markedShape_closes (place place' : Nat) :
    (lockstep S exact prior prior').Closes (lockstep S exact prior prior').Val
      (markedShape place : Drafting α Nat) (markedShape place') := by
  refine .ifTaken (eat_tests (c := ')') rfl) ?_ ?_
  · refine .bind draft_keeps fun d e h => ?_
    have hsize : (lockstep S exact prior prior').Val d.tiling.shapes.size e.tiling.shapes.size :=
      fun he => h.agree he (·.shapes.size) fun _ _ => rfl
    generalize d.tiling.shapes.size = m at hsize ⊢
    generalize e.tiling.shapes.size = m' at hsize ⊢
    cases m with
    | zero => exact .refuse (failAt_refuses _ _)
    | succ n =>
        cases m' with
        | zero =>
            exact (Steps.pure (Val.refl n)).outrun (fun he => nomatch hsize he)
              (failAt_refuses _ _)
        | succ n' => exact .pure fun he => Nat.succ.inj (hsize he)
  · refine .bind shapeIndex_paces fun i i' hi => ?_
    exact .andThen (expect_closes (c := ')') rfl) fun _ _ _ => .pure hi

theorem integerThenClose_closes : (lockstep S exact prior prior').Closes
    (lockstep S exact prior prior').Val (integerThenClose : Drafting α Int) integerThenClose :=
  .bind integer_paces fun _ _ hv => .andThen (expect_closes (c := ')') rfl) fun _ _ _ => .pure hv

theorem letVariable_closes :
    (lockstep S exact prior prior').Closes Eq (letVariable : Drafting α Unit) letVariable := by
  refine .bind identifier_follows fun name _ hname => hname ▸ ?_
  refine .guard (fun _ => Iff.rfl) (.bind (fail_refuses _)) (.bind (fail_refuses _)) fun _ => ?_
  refine .bind (expect_closes (c := '=') rfl).follows fun _ _ _ => ?_
  exact .andThen realThenClose_closes fun v v' hv => bindVariable_keeps name hv

/-- Drafts that are alike have room for as many sliders. -/
theorem checkSliderCount_keeps (place place' : Nat) : (lockstep S exact prior prior').Keeps Eq
    (checkSliderCount place : Drafting α Unit) (checkSliderCount place') :=
  draft_keeps.bind fun d e h => by
    have hcount (he : exact) := h.agree he (fun t => t.sliders.size + t.intSliders.size)
      fun _ _ => rfl
    exact .guard (fun he => hcount he ▸ Iff.rfl) (failAt_refuses _ _) (failAt_refuses _ _)
      fun _ => .pure rfl

/-- Sliders of the same name that are equal in an exact comparison. -/
def SliderAlike {β : Type} (exact : Prop) (s s' : Slider β) : Prop :=
  s'.name = s.name ∧ (exact → s = s')

instance {β : Type} : Std.Refl (SliderAlike (β := β) exact) := ⟨fun _ => ⟨rfl, fun _ => rfl⟩⟩

/-- The fields of a slider are read in lockstep. -/
theorem sliderFields_closes {β : Type} {value : Drafting α β}
    (hvalue : (lockstep S exact prior prior').Paces value value) :
    (lockstep S exact prior prior').Closes (SliderAlike exact) (sliderFields value)
      (sliderFields value) := by
  refine .bind identifier_follows fun name _ hname => hname ▸ ?_
  refine .bind (expect_closes (c := ',') rfl).follows fun _ _ _ => .bind hvalue fun a a' ha => ?_
  refine .bind (expect_closes (c := ',') rfl).follows fun _ _ _ => .bind hvalue fun b b' hb => ?_
  refine .bind (expect_closes (c := ',') rfl).follows fun _ _ _ => .bind hvalue fun c c' hc => ?_
  refine .andThen (expect_closes (c := ')') rfl) fun _ _ _ => .pure ⟨rfl, fun he => ?_⟩
  rw [ha he, hb he, hc he]

/-- The draft with one more slider. -/
def withSlider (prior : Option (Tiling α)) (s : Slider α) (d : Draft α) : Draft α :=
  let current := Tiling.realValue prior d.tiling.sliders.size s.zero
  { d with
    bindings := d.bindings.insert s.name current
    tiling := { d.tiling with sliders := d.tiling.sliders.push { s with current } } }

/-- The draft with one more slider for integers. -/
def withIntSlider (prior : Option (Tiling α)) (s : Slider Int) (d : Draft α) : Draft α :=
  let current := Tiling.intValue prior d.tiling.intSliders.size s.zero
  { d with
    bindings := d.bindings.insert s.name (Scalar.ofInt current)
    tiling := { d.tiling with intSliders := d.tiling.intSliders.push { s with current } } }

/-- A slider whose fields are read is added, if there is room for it. -/
theorem slider_apply {place : Nat} {text : ByteArray} {s t : Desk α}
    {x : Slider α}
    (hcount : s.draft.tiling.sliders.size + s.draft.tiling.intSliders.size < maxSliders)
    (hfields : sliderFields real text s = .ok x t) :
    slider prior place text s = .ok () { t with draft := withSlider prior x t.draft } := by
  have hcheck : checkSliderCount place text s = .ok () s := by
    change (if maxSliders ≤ _ then _ else _ : Drafting α Unit) text s = _
    rw [if_neg (by omega)]
    rfl
  exact bind_ok.mpr ⟨(), s, hcheck, bind_ok.mpr ⟨x, t, hfields, rfl⟩⟩

/-- Sliders are added to both drafts, with the values that their prior tilings give them. -/
theorem slider_closes (place place' : Nat) :
    (lockstep S exact prior prior').Closes Eq (slider prior place) (slider prior' place') := by
  refine .bind (checkSliderCount_keeps place place').follows fun _ _ _ => ?_
  refine .andThen (sliderFields_closes real_paces) fun s s' hs => ?_
  refine modifyDraft_keeps (f := withSlider prior s) (g := withSlider prior' s')
    (fun d => .pushSlider rfl) fun d e hheeds h => ?_
  -- the slider that the first run has added has the value that the second run gives it
  have hvalue (he : exact) : Tiling.realValue prior' d.tiling.sliders.size s.zero =
      Tiling.realValue prior d.tiling.sliders.size s.zero :=
    ((hheeds he).sliders Array.getElem?_push_size).symm
  obtain ⟨hnames, hintNames⟩ := Prod.mk.inj h.names
  exact
    { names := by
        simp only [withSlider, Tiling.sliderNames, Array.map_push, hnames, hintNames, hs.1]
      tiling := fun he => by
        obtain ⟨order, ht⟩ := h.tiling he
        exact ⟨order, by simp only [withSlider, ht, ← hs.2 he, hvalue he]⟩
      angleUnit := h.angleUnit
      distanceUnit := h.distanceUnit
      bindings := fun he other => by
        have hsize := h.agree he (·.sliders.size) fun _ _ => rfl
        simp only [withSlider, Std.TreeMap.getElem?_insert, ← hs.2 he, ← hsize, hvalue he,
          h.bindings he] }

theorem intSlider_closes (place place' : Nat) :
    (lockstep S exact prior prior').Closes Eq (intSlider prior place)
      (intSlider prior' place') := by
  refine .bind (checkSliderCount_keeps place place').follows fun _ _ _ => ?_
  refine .andThen (sliderFields_closes integer_paces) fun s s' hs => ?_
  refine modifyDraft_keeps (f := withIntSlider prior s) (g := withIntSlider prior' s')
    (fun d => .pushIntSlider rfl) fun d e hheeds h => ?_
  -- the slider that the first run has added has the value that the second run gives it
  have hvalue (he : exact) : Tiling.intValue prior' d.tiling.intSliders.size s.zero =
      Tiling.intValue prior d.tiling.intSliders.size s.zero :=
    ((hheeds he).intSliders Array.getElem?_push_size).symm
  obtain ⟨hnames, hintNames⟩ := Prod.mk.inj h.names
  exact
    { names := by
        simp only [withIntSlider, Tiling.sliderNames, Array.map_push, hnames, hintNames, hs.1]
      tiling := fun he => by
        obtain ⟨order, ht⟩ := h.tiling he
        exact ⟨order, by simp only [withIntSlider, ht, ← hs.2 he, hvalue he]⟩
      angleUnit := h.angleUnit
      distanceUnit := h.distanceUnit
      bindings := fun he other => by
        have hsize := h.agree he (·.intSliders.size) fun _ _ => rfl
        simp only [withIntSlider, Std.TreeMap.getElem?_insert, ← hs.2 he, ← hsize, hvalue he,
          h.bindings he] }

/-! ### Gluings -/

/-- Gluing the same edges of drafts that are alike leaves them alike. -/
theorem connect_keeps {a a' e e' b b' f f' : Nat} {m m' : Bool}
    (h : exact → a = a' ∧ e = e' ∧ b = b' ∧ f = f' ∧ m = m') :
    (lockstep S exact prior prior').Keeps Eq (modifyTiling (α := α) (·.connect a e b f m))
      (modifyTiling (·.connect a' e' b' f' m')) := by
  have hnames (t : Tiling α) (a e b f : Nat) (m : Bool) :
      (t.connect a e b f m).sliderNames = t.sliderNames := rfl
  refine modifyTiling_keeps (fun t => .connect a e b f m) (fun t => hnames t ..)
    (fun t => hnames t ..) fun he t order => ?_
  obtain ⟨rfl, rfl, rfl, rfl, rfl⟩ := h he
  rfl

/-- The ends of edge cycles are looked for in lockstep. -/
theorem cycleTarget_paces (place place' : Nat) {e e' v v' : Int}
    (he : (lockstep S exact prior prior').Val e e') (hv : (lockstep S exact prior prior').Val v v') :
    (lockstep S exact prior prior').Paces (cycleTarget place e v : Drafting α (Nat × Nat))
      (cycleTarget place' e' v') := by
  refine Follows.bind draft_keeps.follows fun d d' h => ?_
  refine .guard (fun hexact => ?_) (.bind (failAt_refuses _ _)) (.bind (failAt_refuses _ _))
    fun _ => ?_
  · rw [hv hexact, h.agree hexact (·.shapes.size) fun _ _ => rfl]
  refine .guard (fun hexact => ?_) (.bind (failAt_refuses _ _)) (.bind (failAt_refuses _ _))
    fun _ => .pure fun hexact => ?_
  · rw [hv hexact, he hexact, h.agree hexact (fun t => (t.shape v'.toNat).size) fun _ _ => rfl]
  · rw [hv hexact, he hexact]

/-- Both readers count the same primes. -/
theorem primes_follows : (lockstep S exact prior prior').Follows Eq
    (iterate primeRound 0 : Drafting α Nat) (iterate primeRound 0) := by
  refine .iterate (S := Eq) (fun _ _ _ _ h => nomatch h) (fun n _ hn => hn ▸ ?_) rfl
  exact .ifTaken (eat_tests (c := '\'') rfl) (.pure (.inl rfl)) (.pure (.inr rfl))

theorem cycleEnd_paces :
    (lockstep S exact prior prior').Paces (cycleEnd : Drafting α (Nat × Nat)) cycleEnd := by
  rw [cycleEnd_eq]
  refine offset_keeps.follows.bind fun place place' _ => integer_paces.bind fun e e' he => ?_
  refine Follows.bind primes_follows fun primes _ hprimes => hprimes ▸ ?_
  refine .ifTaken (eat_tests (c := '@') rfl) ?_ ?_
  · exact integer_paces.bind fun v v' hv => cycleTarget_paces place place' he hv
  · exact Follows.bind (.pure (Val.refl (primes : Int))) fun v v' hv =>
      cycleTarget_paces place place' he hv

theorem cycleOpening_follows : (lockstep S exact prior prior').Follows Eq
    (cycleOpening : Drafting α (Option Bool)) cycleOpening :=
  .ifTaken (eat_tests (c := '(') rfl) (.pure rfl) <|
    .ifTaken (eat_tests (c := '[') rfl) (.pure rfl) <|
    .ifTaken (eat_tests (c := '"') rfl) (.pure rfl) (.refuse (fail_refuses _))

/-- A cycle is read in lockstep. -/
theorem cycleRound_follows : (lockstep S exact prior prior').Follows (Sum.LiftRel Eq Eq)
    (cycleRound () : Drafting α (Unit ⊕ Unit)) (cycleRound ()) := by
  refine cycleOpening_follows.bind fun opening _ hopening => hopening ▸ ?_
  cases opening with
  | none => exact .pure (.inr rfl)
  | some mirror =>
      refine cycleEnd_paces.bind fun p p' hp => ?_
      obtain ⟨a, e⟩ := p
      obtain ⟨a', e'⟩ := p'
      refine Follows.bind (R := Eq) ?_ fun closed _ hclosed => hclosed ▸ ?_
      · exact .ifTaken (eat_tests (c := ')') rfl) (.pure rfl) (eat_tests (c := ']') rfl).follows
      extract_lets glue glue'
      have hglue (q q' : Nat × Nat) (hq : (lockstep S exact prior prior').Val q q') :
          (lockstep S exact prior prior').Follows (Sum.LiftRel Eq Eq) (glue q) (glue' q') := by
        obtain ⟨b, f⟩ := q
        obtain ⟨b', f'⟩ := q'
        refine Follows.bind (Keeps.follows (R := Eq) (connect_keeps fun hexact => ?_))
          fun _ _ _ => .pure (.inl rfl)
        obtain ⟨rfl, rfl⟩ := Prod.mk.inj (hp hexact)
        obtain ⟨rfl, rfl⟩ := Prod.mk.inj (hq hexact)
        exact ⟨rfl, rfl, rfl, rfl, rfl⟩
      refine .ite (fun _ => Follows.bind (.pure hp) hglue) fun _ => ?_
      refine cycleEnd_paces.bind fun q q' hq => ?_
      have hlast : (lockstep S exact prior prior').Follows (Sum.LiftRel Eq Eq)
          (do let p ← pure q; glue p) (do let p ← pure q'; glue' p) :=
        Follows.bind (.pure hq) hglue
      exact .ifTaken (eat_tests (c := ')') rfl) hlast
        (Follows.bind (eat_tests (c := ']') rfl).follows fun _ _ _ => hlast)

/-- A cycle may end without a token, but not the directive. -/
theorem cycles_closes :
    (lockstep S exact prior prior').Closes Eq (cycles : Drafting α Unit) cycles := by
  rw [cycles_eq]
  refine .bind (expect_closes (c := '"') rfl).follows fun _ _ _ => ?_
  refine .bind (R := Eq) ?_ fun _ _ _ => expect_closes (c := ')') rfl
  exact .iterate (S := Eq) (fun _ _ _ _ h => nomatch h) (fun _ _ _ => cycleRound_follows) rfl

/-- A gluing is read in lockstep. -/
theorem connection_closes :
    (lockstep S exact prior prior').Closes Eq (connection : Drafting α Unit) connection := by
  refine .bind shapeIndex_paces fun a a' ha => ?_
  refine .bind (expect_closes (c := ',') rfl).follows fun _ _ _ => ?_
  refine .bind (edgeIndex_paces ha) fun e e' he => ?_
  refine .bind (expect_closes (c := ',') rfl).follows fun _ _ _ => ?_
  refine .bind shapeIndex_paces fun b b' hb => ?_
  refine .bind (expect_closes (c := ',') rfl).follows fun _ _ _ => ?_
  refine .bind (edgeIndex_paces hb) fun f f' hf => ?_
  refine .bind (expect_closes (c := ',') rfl).follows fun _ _ _ => ?_
  refine .andThen integerThenClose_closes fun m m' hm => connect_keeps fun hexact => ?_
  rw [hm hexact]
  exact ⟨ha hexact, he hexact, hb hexact, hf hexact, rfl⟩

theorem stretchShear_closes :
    (lockstep S exact prior prior').Closes Eq (stretchShear : Drafting α Unit) stretchShear := by
  refine .bind real_paces fun x x' hx => ?_
  refine .bind (expect_closes (c := ',') rfl).follows fun _ _ _ => ?_
  refine .bind real_paces fun y y' hy => ?_
  refine .bind (expect_closes (c := ',') rfl).follows fun _ _ _ => ?_
  refine .bind shapeIndex_paces fun a a' ha => ?_
  refine .bind (expect_closes (c := ',') rfl).follows fun _ _ _ => ?_
  refine .bind (edgeIndex_paces ha) fun e e' he => ?_
  refine .andThen (expect_closes (c := ')') rfl) fun _ _ _ => ?_
  refine modifyTiling_keeps (fun t => .setStretchShear a e x y) (fun _ => rfl) (fun _ => rfl)
    fun hexact _ _ => ?_
  rw [ha hexact, he hexact, hx hexact, hy hexact]
  rfl

/-! ### Lines and repetitions -/

theorem subline_closes :
    (lockstep S exact prior prior').Closes Eq (subline : Drafting α Unit) subline := by
  refine .bind shapeIndex_paces fun a a' ha => ?_
  refine .bind (expect_closes (c := ',') rfl).follows fun _ _ _ => ?_
  refine .bind (edgeIndex_paces ha) fun i i' hi => ?_
  refine .bind (expect_closes (c := ',') rfl).follows fun _ _ _ => ?_
  refine .bind (edgeIndex_paces ha) fun j j' hj => ?_
  refine .andThen (expect_closes (c := ')') rfl) fun _ _ _ => ?_
  refine modifyTiling_keeps (fun t => .modifyShape fun s _ => ⟨rfl, rfl, rfl, rfl, rfl, rfl⟩)
    (fun _ => rfl) (fun _ => rfl) fun hexact _ _ => ?_
  rw [ha hexact, hi hexact, hj hexact]
  rfl

theorem sublines_closes :
    (lockstep S exact prior prior').Closes Eq (sublines : Drafting α Unit) sublines := by
  refine .bind draft_keeps.follows fun d d' h => .bind real_paces fun x x' hx => ?_
  have hfinish (eps eps' : α) (heps : (lockstep S exact prior prior').Val eps eps') :
      (lockstep S exact prior prior').Closes Eq (do
        Reader.expect ")"
        modifyTiling fun t => { t with shapes := t.shapes.map fun s => { s with
          sublines := s.sublines ++
            (vertexPairsAt t.space (x * d.distanceUnit) eps s).toArray } } : Drafting α Unit) (do
        Reader.expect ")"
        modifyTiling fun t => { t with shapes := t.shapes.map fun s => { s with
          sublines := s.sublines ++
            (vertexPairsAt t.space (x' * d'.distanceUnit) eps' s).toArray } }) := by
    refine .andThen (expect_closes (c := ')') rfl) fun _ _ _ => ?_
    refine modifyTiling_keeps (fun t => ?_) (fun _ => rfl) (fun _ => rfl) fun hexact _ _ => ?_
    · exact .revise rfl rfl rfl id (fun i => Array.getElem?_map ..)
        fun i s _ => ⟨rfl, rfl, rfl, rfl, rfl, rfl⟩
    · rw [hx hexact, heps hexact, h.distanceUnit hexact]
      rfl
  refine .bind (eat_tests (c := ',') rfl).follows fun ranged _ hranged => hranged ▸ ?_
  refine .ite (fun _ => .bind real_paces fun y y' hy => ?_) fun _ => ?_
  · refine .bind (Steps.pure (R := Val _) fun hexact => ?_) hfinish
    rw [hy hexact, h.distanceUnit hexact]
  · exact .bind (Steps.pure (Val.refl _)) hfinish

/-- The repetition of the connections of a shape, for a place to complain about. -/
def repeatShape (place a : Nat) (count : Int) : Drafting α Unit := do
  let s := (← draft).tiling.shape a
  match s.setRepeat count.toNat with
  | some s => modifyTiling (·.modifyShape a fun _ => s)
  | none => Reader.failAt place (.repeatNotAFactor count.toNat s.angles.size)

omit [Scalar α] in
/-- A repetition of a shape is written to the draft if it divides its edges. -/
theorem repeatShape_apply (place a : Nat) (count : Int) (text : ByteArray) (s : Desk α) :
    repeatShape place a count text s =
      match (s.draft.tiling.shape a).setRepeat count.toNat with
      | some r => modifyTiling (·.modifyShape a fun _ => r) text s
      | none => .error (.malformed ⟨.repeatNotAFactor count.toNat
          (s.draft.tiling.shape a).angles.size, Position.of text place⟩) s := by
  change (match (s.draft.tiling.shape a).setRepeat count.toNat with
    | some r => modifyTiling (·.modifyShape a fun _ => r)
    | none => ofReader (Reader.failAt place _) : Drafting α Unit) text s = _
  cases (s.draft.tiling.shape a).setRepeat count.toNat <;> rfl

/-- Drafts that are alike refuse a repetition alike. -/
theorem repeatShape_keeps {place place' a a' : Nat} {v v' : Int}
    (ha : (lockstep S exact prior prior').Val a a')
    (hv : (lockstep S exact prior prior').Val v v') :
    (lockstep S exact prior prior').Keeps Eq (repeatShape place a v : Drafting α Unit)
      (repeatShape place' a' v') := by
  refine still_keeps (fun h => ?_) (fun h => ?_) fun {s b s' u} h hheeds hu => ?_
  · rw [repeatShape_apply] at h
    split at h
    · rename_i r hr
      cases h
      refine ⟨rfl, .modifyShape fun s hs => ?_⟩
      rw [Tiling.shape_eq hs] at hr
      exact Shape.setRepeat_sameBoundary hr
    · cases h
  · rw [repeatShape_apply] at h
    split at h <;> cases h
  · rw [repeatShape_apply] at h
    split at h
    · rename_i r hr
      cases h
      have hsame (he : exact) :
          (u.draft.tiling.shape a').setRepeat v'.toNat = some r := by
        rw [← ha he, ← hv he, ← hu.agree he (·.shape a) fun _ _ => rfl, hr]
      rw [repeatShape_apply]
      cases hr' : (u.draft.tiling.shape a').setRepeat v'.toNat with
      | none => exact fun he => nomatch (hsame he).symm.trans hr'
      | some r' =>
          refine ⟨rfl, rfl, hu.edit (f := (·.modifyShape a fun _ => r))
            (g := (·.modifyShape a' fun _ => r')) (fun _ => rfl) (fun _ => rfl) fun he _ _ => ?_⟩
          rw [ha he, Option.some.inj ((hsame he).symm.trans hr')]
          rfl
    · cases h

theorem repeatConnections_closes :
    (lockstep S exact prior prior').Closes Eq (repeatConnections : Drafting α Unit)
      repeatConnections := by
  refine .bind shapeIndex_paces fun a a' ha => ?_
  refine .bind (expect_closes (c := ',') rfl).follows fun _ _ _ => ?_
  refine .bind offset_keeps.follows fun place place' _ => ?_
  refine .andThen integerThenClose_closes fun v v' hv => ?_
  refine .guard (fun hexact => by rw [hv hexact]) (.bind (failAt_refuses _ _))
    (.bind (failAt_refuses _ _)) fun _ => repeatShape_keeps ha hv

/-- Both loads stop to be inspected, or neither does. -/
theorem inspection_closes :
    (lockstep S exact prior prior').Closes Eq (inspection : Drafting α Unit) inspection := by
  refine .bind shapeIndex_paces fun a a' ha => ?_
  refine .bind (expect_closes (c := ')') rfl).follows fun _ _ _ => .refuse ⟨?_, ?_⟩
  · exact fun h => nomatch h
  · intro s e s' h i t he
    subst he
    cases h
    exact .refl _

/-! ### All directives -/

/-- A setting of a value. -/
theorem setting_closes {β : Type} {value : Drafting α β} {f : β → Tiling α → Tiling α}
    (hvalue : (lockstep S exact prior prior').Closes (lockstep S exact prior prior').Val value
      value)
    (hstem : ∀ v t, (f v t).stem = t.stem)
    (hf : ∀ v t order, f v { t with order } = { f v t with order }) :
    (lockstep S exact prior prior').Closes Eq (do modifyTiling (f (← value)))
      (do modifyTiling (f (← value))) :=
  hvalue.andThen fun v v' hv => setting_keeps (hstem v) (hstem v') fun he t order => by
    rw [hv he, hf]

/-- A mark on a shape. -/
theorem mark_closes {mark : Shape α → Shape α} {f : Tiling α → Tiling α} (place place' : Nat)
    (hmark : ∀ s : Shape α, s.SameBoundary (mark s)) (hstem : ∀ t, (f t).stem = t.stem)
    (hf : ∀ t order, f { t with order } = { f t with order }) :
    (lockstep S exact prior prior').Closes Eq
      (do let i ← markedShape place; modifyTiling fun t => f (t.modifyShape i mark))
      (do let i ← markedShape place'; modifyTiling fun t => f (t.modifyShape i mark)) := by
  refine (markedShape_closes place place').andThen fun i i' hi => ?_
  have hnames (i : Nat) (t : Tiling α) :
      (f (t.modifyShape i mark)).sliderNames = t.sliderNames := by
    rw [Tiling.sliderNames_of_stem (hstem _)]
    rfl
  refine modifyTiling_keeps (fun t => ?_) (hnames i) (hnames i') fun he t order => ?_
  · exact .trans (.modifyShape fun s _ => hmark s) (.of_stem (hstem _))
  · rw [hi he]
    exact hf (t.modifyShape i' mark) order

/-- Whatever its name is, a directive is read in lockstep, as each of them is. -/
theorem directive_closes (name : String) (place place' : Nat) :
    (lockstep S exact prior prior').Closes Eq (directive prior name place)
      (directive prior' name place') := by
  have hline (s : Shape α) : s.SameBoundary { s with line := true } :=
    ⟨rfl, rfl, rfl, rfl, rfl, rfl⟩
  have hgrave (s : Shape α) : s.SameBoundary { s with grave := true } :=
    ⟨rfl, rfl, rfl, rfl, rfl, rfl⟩
  unfold directive
  split
  -- geometry, options and units
  · exact realThenClose_closes.andThen fun k k' hk => setGeometry_keeps (Val.map hk _)
  · exact options_closes
  · exact realThenClose_closes.andThen fun u u' hu => modifyDraft_keeps (fun d => .refl _)
      fun d e _ h => { h with angleUnit := fun he => (hu he).symm }
  · exact realThenClose_closes.andThen fun u u' hu => modifyDraft_keeps (fun d => .refl _)
      fun d e _ h => { h with distanceUnit := fun he => (hu he).symm }
  -- marks on shapes
  · exact mark_closes (f := ({ · with haveLine := true })) place place' hline (fun _ => rfl)
      fun _ _ => rfl
  · exact mark_closes (f := ({ · with haveGrave := true })) place place' hgrave (fun _ => rfl)
      fun _ _ => rfl
  -- sliders and variables
  · exact slider_closes place place'
  · exact intSlider_closes place place'
  · exact letVariable_closes
  -- tiles
  · exact tile_closes false place place'
  · exact tile_closes true place place'
  -- numbers and texts that no shape depends on
  · refine .bind scope_keeps.follows fun s s' hs => ?_
    refine .bind (read_follows (Expression.index_paces hs)) fun n n' hn => ?_
    exact (expect_closes (c := ')') rfl).andThen fun _ _ _ => setting_keeps (fun _ => rfl)
      (fun _ => rfl) fun he _ _ => by rw [hn he]
  · exact setting_closes (f := fun x t => { t with cscale := x }) realThenClose_closes
      (fun _ _ => rfl) fun _ _ _ => rfl
  · exact treeState_closes
  · refine .bind integer_paces fun n n' hn => ?_
    refine .bind (Keeps.follows (R := Eq) (setting_keeps (fun _ => rfl) (fun _ => rfl)
      fun he _ _ => by rw [hn he])) fun _ _ _ => ?_
    exact expect_closes (c := ')') rfl
  · exact setting_closes (f := fun n t => { t with yendorBacksteps := n }) integerThenClose_closes
      (fun _ _ => rfl) fun _ _ _ => rfl
  · exact setting_closes (f := fun n t => { t with range := n }) integerThenClose_closes
      (fun _ _ => rfl) fun _ _ _ => rfl
  · exact setting_closes (f := fun x t => { t with floorScale := x }) realThenClose_closes
      (fun _ _ => rfl) fun _ _ _ => rfl
  · exact setting_closes (f := fun x t => { t with boundaryRatio := x }) realThenClose_closes
      (fun _ _ => rfl) fun _ _ _ => rfl
  -- gluings, lines and whatever else points to edges
  · exact cycles_closes
  · exact connection_closes
  · exact subline_closes
  · exact sublines_closes
  · exact repeatConnections_closes
  · exact inspection_closes
  · exact stretchShear_closes
  · exact .refuse (failAt_refuses _ _)

end Mosaic.Drafting
