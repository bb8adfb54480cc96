import Mosaic.Proofs.Description.Lockstep
import Mosaic.Proofs.Description.Tile

/-!
# Description — tiles keep pace

Tiles of two descriptions with the same text are read together, also where one of the two is an
apeirogon and the other one is not: the factor after a `*` is what tells, and both lists end with
the same parenthesis (`tileRepeat_closes`).  The shape of an apeirogon ends at infinity when it is
added, unless the tiling is combinatorial (`addTile_keeps`).
-/

namespace Mosaic.Drafting

open Lockstep

variable {α : Type} [Scalar α] {S : Stretch} {exact : Prop} {prior prior' : Option (Tiling α)}

/-! ### Corners -/

/-- Corners are refused alike, or added to both lists. -/
theorem pushCorner_keeps {corners corners' : Array (Corner α)} {x x' y y' : α} (ideal : Bool)
    (hc : (lockstep S exact prior prior').Val corners corners')
    (hx : (lockstep S exact prior prior').Val x x')
    (hy : (lockstep S exact prior prior').Val y y') :
    (lockstep S exact prior prior').Keeps (lockstep S exact prior prior').Val
      (pushCorner corners x y ideal) (pushCorner corners' x' y' ideal) := by
  refine draft_keeps.bind fun d d' h => ?_
  refine Lockstep.Keeps.bind (read_keeps (Stretch.finite_keeps fun he => ?_)) fun e e' hedge => ?_
  · rw [hx he, h.distanceUnit he]
  refine Lockstep.Keeps.bind (read_keeps (Stretch.finite_keeps fun he => ?_)) fun a a' hangle => ?_
  · rw [hy he, h.angleUnit he]
  refine .guard (fun he => by rw [hc he]) (.bind (fail_refuses _)) (.bind (fail_refuses _))
    fun _ => .pure fun he => ?_
  rw [hc he, hedge he, hangle he]

/-- An entry of a tile is read in lockstep. -/
theorem tileEntry_paces (unit : Bool) {corners corners' : Array (Corner α)}
    (hc : (lockstep S exact prior prior').Val corners corners') :
    (lockstep S exact prior prior').Paces (tileEntry unit corners) (tileEntry unit corners') := by
  unfold tileEntry
  extract_lets afterBracket afterBracket'
  have hentry (bracket : Bool) :
      (lockstep S exact prior prior').Paces (afterBracket bracket) (afterBracket' bracket) := by
    unfold afterBracket afterBracket'
    extract_lets afterEdge afterEdge'
    have hcorner (x x' : α) (hx : (lockstep S exact prior prior').Val x x') :
        (lockstep S exact prior prior').Paces (afterEdge x) (afterEdge' x') := by
      refine Follows.bind (R := Eq) ?_ fun ideal _ hideal => hideal ▸ ?_
      · exact .ite (fun _ => .pure rfl) fun _ => (eat_tests (c := '[') rfl).follows
      refine .ite (fun _ => ?_) fun _ => ?_
      · refine sum_paces.bind fun a a' ha => ?_
        refine (expect_closes (c := ',') rfl).follows.bind fun _ _ _ => ?_
        refine (pushCorner_keeps true hc hx ha).follows.bind fun cs cs' hcs => ?_
        refine sum_paces.bind fun y y' hy => ?_
        refine (expect_closes (c := ',') rfl).follows.bind fun _ _ _ => ?_
        refine sum_paces.bind fun b b' hb => ?_
        refine (expect_closes (c := ']') rfl).follows.bind fun _ _ _ => ?_
        exact (pushCorner_keeps false hcs hy hb).follows
      · exact sum_paces.bind fun a a' ha => (pushCorner_keeps false hc hx ha).follows
    refine .ite (fun _ => Follows.bind (.pure (Val.refl 1)) hcorner) fun _ => ?_
    refine sum_paces.bind fun x x' hx => ?_
    exact (expect_closes (c := ',') rfl).follows.bind fun _ _ _ => Follows.bind (.pure hx) hcorner
  refine .ite (fun _ => Follows.bind (Steps.pure (R := Eq) rfl) fun b _ hb => hb ▸ hentry b)
    fun _ => ?_
  exact (eat_tests (c := '[') rfl).follows.bind fun b _ hb => hb ▸ hentry b

/-! ### Repetitions -/

/-- The outline after a factor, if it is one. -/
def repeated? (corners : Array (Corner α)) (factor : α) : Option (Outline α) :=
  if factor == Scalar.infinity then some ⟨corners, true, 1⟩
  else if Scalar.isFinite factor then
    let factor := Scalar.round factor
    if factor < 0 then none
    else if !inRepeatBounds factor || decide (maxShapeEdges < corners.size * factor.toNat) then none
    else some ⟨repeatItems corners factor.toNat, false, factor.toNat⟩
  else none

/-- Answers `b` at the closing parenthesis. -/
def closing {β : Type} (b : β) (fault : Fault) : Drafting α β := do
  if ← Reader.eat ")" then return b
  else Reader.fail fault

theorem closing_closes {β : Type} {R : β → β → Prop} {b c : β} (h : R b c)
    (fault fault' : Fault) : (lockstep S exact prior prior').Closes R
      (closing b fault : Drafting α β) (closing c fault') :=
  .ifTaken (eat_tests (c := ')') rfl) (.pure h) (.refuse (fail_refuses _))

/-- What comes after a finite factor in `tileRepeat`. -/
def finiteTail (place : Nat) (corners : Array (Corner α)) (factor : Int) :
    Drafting α (Outline α) := do
  if factor < 0 then Reader.failAt place .negativeRepeat
  if !inRepeatBounds factor || decide (maxShapeEdges < corners.size * factor.toNat) then
    Reader.failAt place (.repeatTooLarge factor)
  unless ← Reader.eat ")" do Reader.fail .expectedClosing
  return ⟨repeatItems corners factor.toNat, false, factor.toNat⟩

/-- What comes after any factor. -/
def repeatTail (place : Nat) (corners : Array (Corner α)) (factor : α) :
    Drafting α (Outline α) := do
  if factor == Scalar.infinity then
    Reader.expect ")"
    return ⟨corners, true, 1⟩
  finiteTail place corners (Scalar.round (← Reader.finite factor))

/-- A computation that refuses every text. -/
def Never {β : Type} (x : Drafting α β) : Prop :=
  ∀ text s, ∃ e s', x text s = .error (.malformed e) s'

/-- A computation that never answers is refused. -/
theorem Never.refuses {β : Type} {x : Drafting α β} (h : Never x) :
    (lockstep S exact prior prior').Refuses x where
  never {text s _ _} hx := by
    obtain ⟨e, s', he⟩ := h text s
    cases he.symm.trans hx
  lets {s _ _} hx i t hi := by
    obtain ⟨e, s', he⟩ := h S.first s
    cases he.symm.trans hx
    cases hi

omit [Scalar α] in
/-- To expect the closing parenthesis is one way to end a list. -/
theorem expect_then_pure {β : Type} (b : β) :
    (do Reader.expect ")"; return b : Drafting α β) = closing b (.expected ")") := by
  funext text s
  change (ofReader (Reader.eat ")" >>= fun taken => if taken then pure () else
    Reader.fail (.expected ")")) >>= fun _ => pure b : Drafting α β) text s =
      (ofReader (Reader.eat ")") >>= fun taken => if taken then pure b else
        ofReader (Reader.fail (.expected ")")) : Drafting α β) text s
  simp only [bind, ReaderT.bind, EStateM.bind, ofReader]
  cases Reader.eat ")" text s.offset with
  | error e i => rfl
  | ok taken i => cases taken <;> rfl

omit [Scalar α] in
/-- A factor in bounds repeats the corners if the parenthesis is there; any other one is refused. -/
theorem finiteTail_eq (place : Nat) (corners : Array (Corner α)) (factor : Int) :
    match (if factor < 0 then none
      else if !inRepeatBounds factor || decide (maxShapeEdges < corners.size * factor.toNat) then
        none
      else some ⟨repeatItems corners factor.toNat, false, factor.toNat⟩) with
    | some o => finiteTail place corners factor = closing o .expectedClosing
    | none => Never (finiteTail place corners factor) := by
  unfold finiteTail
  by_cases hneg : factor < 0
  · rw [if_pos hneg, if_pos hneg]
    exact fun text s => ⟨_, _, rfl⟩
  rw [if_neg hneg, if_neg hneg]
  by_cases hlarge : (!inRepeatBounds factor || decide (maxShapeEdges < corners.size * factor.toNat))
  · rw [if_pos hlarge, if_pos hlarge]
    exact fun text s => ⟨_, _, rfl⟩
  rw [if_neg hlarge, if_neg hlarge]
  refine congrArg (ofReader (Reader.eat ")") >>= ·) (funext fun taken => ?_)
  cases taken <;> rfl

/-- The list of corners ends with a parenthesis after any factor, unless the factor is refused. -/
theorem repeatTail_eq (place : Nat) (corners : Array (Corner α)) (factor : α) :
    match repeated? corners factor with
    | some o => ∃ fault, repeatTail place corners factor = closing o fault
    | none => Never (repeatTail place corners factor) := by
  unfold repeated? repeatTail
  by_cases hinfinite : (factor == Scalar.infinity) = true
  · rw [if_pos hinfinite, if_pos hinfinite]
    exact ⟨_, expect_then_pure _⟩
  rw [if_neg hinfinite, if_neg hinfinite]
  by_cases hfinite : Scalar.isFinite factor = true
  · rw [if_pos hfinite, show Reader.finite factor = pure factor from if_pos hfinite]
    have htail := finiteTail_eq place corners (Scalar.round factor)
    dsimp only
    split at htail
    · exact ⟨_, htail⟩
    · exact htail
  · rw [if_neg hfinite, show Reader.finite factor = Reader.fail _ from if_neg hfinite]
    exact fun text s => ⟨_, _, rfl⟩

/-- A factor is read in lockstep. -/
theorem tileRepeat_closes {corners corners' : Array (Corner α)}
    (hc : (lockstep S exact prior prior').Val corners corners') :
    (lockstep S exact prior prior').Closes (lockstep S exact prior prior').Val
      (tileRepeat corners) (tileRepeat corners') := by
  refine .bind offset_keeps.follows fun place place' _ => .bind sum_paces fun v v' hv => ?_
  change (lockstep S exact prior prior').Closes _ (repeatTail place corners v)
    (repeatTail place' corners' v')
  have hsame (he : exact) : repeated? corners v = repeated? corners' v' := by rw [hc he, hv he]
  have hx := repeatTail_eq place corners v
  have hy := repeatTail_eq place' corners' v'
  generalize repeated? corners v = o at hx hsame
  generalize repeated? corners' v' = o' at hy hsame
  cases o with
  | none => exact .refuse hx.refuses
  | some o =>
      obtain ⟨fault, hx⟩ := hx
      rw [hx]
      cases o' with
      | none =>
          exact (closing_closes (Val.refl o) fault fault).outrun (fun he => nomatch hsame he)
            hy.refuses
      | some o' =>
          obtain ⟨fault', hy⟩ := hy
          rw [hy]
          exact closing_closes (fun he => Option.some.inj (hsame he)) fault fault'

/-- A round of the list of corners is read in lockstep. -/
theorem cornerRound_closes (unit : Bool) {cs cs' : Array (Corner α)}
    (hcs : (lockstep S exact prior prior').Val cs cs') :
    (lockstep S exact prior prior').Closes
      (Sum.LiftRel (lockstep S exact prior prior').Val (lockstep S exact prior prior').Val)
      (cornerRound unit cs) (cornerRound unit cs') := by
  refine .ifTaken (eat_tests (c := ')') rfl) (.pure (.inr fun he => by rw [hcs he])) ?_
  refine .ifTaken (eat_tests (c := '*') rfl) ?_ ?_
  · exact (tileRepeat_closes hcs).keeps.bind fun o o' ho => .pure (.inr ho)
  refine .bind (tileEntry_paces unit hcs) fun ds ds' hds => ?_
  refine .ifTaken (eat_tests (c := ',') rfl) (.pure (.inl hds)) ?_
  refine .ifTaken (eat_tests (c := ')') rfl) (.pure (.inr fun he => by rw [hds he])) ?_
  exact .refuse (fail_refuses _)

/-- The list ends with a parenthesis. -/
theorem outline_closes (unit : Bool) : (lockstep S exact prior prior').Closes
    (lockstep S exact prior prior').Val (outline unit : Drafting α (Outline α)) (outline unit) := by
  rw [outline_eq]
  exact .iterate (S := (lockstep S exact prior prior').Val) (fun _ _ _ _ h => nomatch h)
    (fun _ _ hcs => cornerRound_closes unit hcs) (Val.refl #[])

/-! ### Shapes -/

/-- The addition of a shape with a given outline. -/
def addTile (o : Outline α) : Drafting α Unit := do
  let d ← draft
  let id := d.tiling.shapes.size
  match Shape.ofCorners id d.tiling.space d.tiling.isCombinatorial o.apeirogonal o.corners
      o.repeatCount with
  | .ok (shape, _) => modifyTiling fun t => { t with shapes := t.shapes.push shape }
  | .error e => stop (.openPolygon ⟨id, e.chain, inUnits d e.defect, d.bindings.toList⟩)

/-- The shape that is added. -/
def newShape (t : Tiling α) (o : Outline α) :
    Except (Polygon.Open α) (Shape α × Polygon.Built α) :=
  Shape.ofCorners t.shapes.size t.space t.isCombinatorial o.apeirogonal o.corners o.repeatCount

theorem addTile_apply (o : Outline α) (text : ByteArray) (s : Desk α) : addTile o text s =
    match newShape s.draft.tiling o with
    | .ok (r, _) => modifyTiling (fun t => { t with shapes := t.shapes.push r }) text s
    | .error e => .error (.openPolygon ⟨s.draft.tiling.shapes.size, e.chain,
        inUnits s.draft e.defect, s.draft.bindings.toList⟩) s := by
  change (match newShape s.draft.tiling o with
    | .ok (r, _) => modifyTiling fun t => { t with shapes := t.shapes.push r }
    | .error e => stop _ : Drafting α Unit) text s = _
  cases newShape s.draft.tiling o <;> rfl

/-- A new apeirogon ends at infinity, or it is a placeholder. -/
theorem grows_newShape {o : Outline α} (hfits : o.Fits) (hne : o.corners ≠ #[]) {t : Tiling α}
    {r : Shape α} {b : Polygon.Built α} (h : newShape t o = .ok (r, b)) :
    t.Grows prior { t with shapes := t.shapes.push r } := by
  unfold newShape at h
  obtain ⟨n, hn⟩ := hfits.entries
  refine .pushShape (fun hc hap => ?_) fun hc => ?_
  · have hap : o.apeirogonal = true := by
      obtain ⟨built, -, hr⟩ := except_bind_ok h
      cases hr
      exact hap
    rw [hc, hap] at h
    exact ⟨_, Shape.ofCorners_endsAtInfinity hn (hn.pos (by simpa using hne)) h⟩
  · rw [hc] at h
    exact Shape.ofCorners_isPlaceholder h

/-- Outlines that are alike add shapes that are alike, or are refused alike. -/
theorem addTile_keeps {o o' : Outline α} (hfits : o.Fits) (hne : o.corners ≠ #[])
    (ho : (lockstep S exact prior prior').Val o o') :
    (lockstep S exact prior prior').Keeps Eq (addTile o) (addTile o') := by
  refine still_keeps (fun h => ?_) (fun h => ?_) fun {s b s' u} h hheeds hu => ?_
  · rw [addTile_apply] at h
    split at h
    · rename_i r b hr
      cases h
      exact ⟨rfl, grows_newShape hfits hne hr⟩
    · cases h
  · rw [addTile_apply] at h
    split at h <;> cases h
  · rw [addTile_apply] at h
    split at h
    · rename_i r b hr
      cases h
      have hsame (he : exact) : newShape u.draft.tiling o' = .ok (r, b) := by
        rw [← ho he, ← hu.agree he (newShape · o) fun _ _ => rfl, hr]
      rw [addTile_apply]
      cases hr' : newShape u.draft.tiling o' with
      | error e => exact fun he => nomatch (hsame he).symm.trans hr'
      | ok p =>
          obtain ⟨q, b'⟩ := p
          refine ⟨rfl, rfl, hu.edit (f := fun t => { t with shapes := t.shapes.push r })
            (g := fun t => { t with shapes := t.shapes.push q }) (fun _ => rfl) (fun _ => rfl)
            fun he _ _ => ?_⟩
          obtain ⟨rfl, -⟩ := Prod.mk.inj (Except.ok.inj ((hsame he).symm.trans hr'))
          rfl
    · cases h

/-- A tile is read in lockstep. -/
theorem tile_closes (unit : Bool) (place place' : Nat) :
    (lockstep S exact prior prior').Closes Eq (tile unit place : Drafting α Unit)
      (tile unit place') := by
  refine .bind draft_keeps.follows fun d d' h => ?_
  refine .guard (fun he => ?_) (.bind (failAt_refuses _ _)) (.bind (failAt_refuses _ _)) fun _ => ?_
  · rw [h.agree he (·.shapes.size) fun _ _ => rfl]
  have hfits {s : Desk α} {o : Outline α} {s' : Desk α}
      (hok : outline unit S.first s = .ok o s') : o.Fits :=
    ((outline_yields (E := fun _ => True) unit S.first s rfl).1 o s' hok).2
  refine (outline_closes unit).andThenOf hfits fun o o' ho hsame => ?_
  refine .guard (fun he => by rw [hsame he]) (.bind (failAt_refuses _ _))
    (.bind (failAt_refuses _ _)) fun hne => ?_
  exact addTile_keeps ho (by simpa using hne) hsame

end Mosaic.Drafting
