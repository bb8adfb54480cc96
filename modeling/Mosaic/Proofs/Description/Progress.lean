import Mathlib
import Mosaic.Proofs.Description.Places
import Mosaic.Proofs.Description.Stage
import Mosaic.Proofs.Expression.Operations
import Mosaic.Proofs.Scalar.Whole

/-!
# Description — progress

The cursor only goes forward, whatever is read and whatever is wrong with it, and so reading ends on
every source (`Tiling.reading_progresses`).  Faults are found at places of the text
(`Tiling.fault_points_iff`): offset, line and column of each agree, but for a number that is not
well formed, the column of which is that of its end.
-/

namespace Mosaic

open Drafting

variable {α : Type} [Scalar α]

namespace Drafting

variable {settings : Settings} {prior : Option (Tiling α)} {text : ByteArray}

/-- Reading comes to a last round, and ends as this does. -/
theorem description_ends (settings : Settings) (prior : Option (Tiling α)) (text : ByteArray) :
    ∃ s, Stage settings prior text s ∧
      ((∃ t, round prior () text s = .ok (.inr ()) t ∧
          description prior text (start settings prior) = .ok () t) ∨
        ∃ e t, round prior () text s = .error e t ∧
          description prior text (start settings prior) = .error e t) := by
  obtain ⟨⟨⟩, s, hrounds, -, hend⟩ := Cursor.Moves.loop_ends (C := cursor)
    (I := fun _ => True) (F := fun _ => True) (c := ()) (s := start settings prior) stalled
    (fun c _ => (round_moves prior).mono (fun r _ => by cases r <;> trivial) fun _ h => h) trivial
    (Nat.zero_le text.size)
  refine ⟨s, hrounds, ?_⟩
  rcases hend with ⟨⟨⟩, t, hround, heq⟩ | hfails
  · exact .inl ⟨t, hround, heq⟩
  · exact .inr hfails

end Drafting

namespace Tiling

variable {source : String} {settings : Settings} {prior : Option (Tiling α)}
  {rules : Tiling α → Except String Unit}

/-- What a load finds wrong with the text of a source is at a place of the text. -/
theorem load_malformed {e : ParseError} (hsize : source.utf8ByteSize ≤ maxSourceLength)
    (h : load source settings prior rules = .error (.malformed e)) :
    Reader.cursor.allows source.toByteArray e := by
  obtain h | ⟨u, -, h⟩ | ⟨reason, hreason⟩ := load_error h
  · obtain ⟨hlong, -⟩ | ⟨desk, h⟩ := read_error h
    · exact absurd hsize (Nat.not_le_of_lt hlong)
    · exact ((description_moves prior).error (Nat.zero_le _) h).2.2 e rfl
  · obtain ⟨x, hx, -⟩ := finish_error h
    cases hx
  · cases hreason

/-- **Where faults point.** -/
theorem fault_points_iff :
    (∀ (text : ByteArray) (op : Operation α) (i j : Nat) (e : ParseError), i ≤ text.size →
      op.read text i = .error e j →
      e.Placed text ∧ (e.position.PointsAt text ↔ e.fault.isMalformedNumber = false)) ∧
    ∀ (source : String) (settings : Settings) (prior : Option (Tiling α))
      (rules : Tiling α → Except String Unit) (e : ParseError),
      source.utf8ByteSize ≤ maxSourceLength →
      load source settings prior rules = .error (.malformed e) →
      e.Placed source.toByteArray ∧
        (e.position.PointsAt source.toByteArray ↔ e.fault.isMalformedNumber = false) := by
  refine ⟨fun text op i j e hi h => ?_, fun source settings prior rules e hsize h => ?_⟩
  · obtain ⟨hplaced, -⟩ := (op.read_moves.error hi h).2.2
    exact ⟨hplaced, hplaced.pointsAt_iff⟩
  · obtain ⟨hplaced, -⟩ := load_malformed hsize h
    exact ⟨hplaced, hplaced.pointsAt_iff⟩

set_option maxRecDepth 10000 in
/-- A flag that there is not, on the second line, is refused where its name begins. -/
theorem fault_points_flag :
    "e2.\n e3.".utf8ByteSize ≤ maxSourceLength ∧ ∃ e : ParseError,
      (load "e2.\n e3." .default none (fun _ => .ok ()) : Except (LoadError Whole) _) =
        .error (.malformed e) ∧
      e.position = ⟨5, 2, 2⟩ ∧ e.position.PointsAt "e2.\n e3.".toByteArray := by
  have hsize : "e2.\n e3.".utf8ByteSize ≤ maxSourceLength := by decide +kernel
  have hload : (match (load "e2.\n e3." .default none (fun _ => .ok ()) :
      Except (LoadError Whole) (Tiling Whole)) with
    | .error (.malformed e) => e == ⟨.unknownFlag "e3", ⟨5, 2, 2⟩⟩
    | _ => false) = true := by cbv
  split at hload
  case h_1 e he =>
    obtain rfl := beq_iff_eq.mp hload
    exact ⟨hsize, _, he, rfl,
      ((fault_points_iff.2 _ .default none (fun _ => .ok ()) _ hsize he).2).mpr rfl⟩
  case h_2 => cases hload

/-- The scope of expressions with whole numbers and no variables. -/
def wholeScope : Scope Whole := ⟨.euclidean, ∅⟩

/-- A lone point is refused at its offset, but with the column behind it. -/
theorem lone_point_misplaced : ∃ e : ParseError,
    (Operation.sum wholeScope).read ".".toByteArray 0 = .error e 1 ∧
      e.position = ⟨0, 1, 2⟩ ∧ ¬ e.position.PointsAt ".".toByteArray := by
  have hread : (Operation.sum wholeScope).read ".".toByteArray 0 =
      .error ⟨.malformedNumber ".", ⟨0, 1, 2⟩⟩ 1 := by cbv
  refine ⟨_, hread, rfl, fun h => ?_⟩
  have hcolumn : (2 : Nat) = Position.sinceLineFeed ".".toByteArray 0 + 1 := h.column
  exact absurd hcolumn (by decide)

/-! ### Progress -/

/-- **Reading goes forward.**  Whatever the operations are that a text is read by, and whether they
answer or fail, the cursor goes forward and stays in the text, and the count of nesting is what it
was; an expression that is read takes something.  So the rounds of every loop advance when they go
on, and the description of a tiling comes to a last round on every source. -/
theorem reading_progresses (text : ByteArray) :
    (∀ (ops : List (Operation α)) (s : Expression.Nesting), s.offset ≤ text.size →
      s.depth ≤ Expression.maxDepth →
      s.offset ≤ (Operation.after text s ops).offset ∧
        (Operation.after text s ops).offset ≤ text.size ∧
          (Operation.after text s ops).depth = s.depth) ∧
    (∀ (op : Operation α) (s t : Expression.Nesting), op.isExpression = true →
      s.offset ≤ text.size → s.depth ≤ Expression.maxDepth → op.count text s = .ok () t →
      s.offset < t.offset) ∧
    (∀ (op : Operation α) (i : Nat),
      op.count text ⟨i, 0⟩ = Expression.Nested.ofReader op.read text ⟨i, 0⟩) ∧
    (∀ (scope : Scope α) (room : Nat),
      Reader.cursor.Progresses text
        (Expression.link "+" "-" (· + ·) (· - ·)
          (Expression.productOf (Expression.unary scope room))) ∧
      Reader.cursor.Progresses text
        (Expression.link "*" "/" (· * ·) (· / ·) (Expression.unary scope room)) ∧
      Reader.cursor.Progresses text (Expression.round
        (Expression.sumOf (Expression.productOf (Expression.unary scope room))))) ∧
    (∀ unit : Bool, (cursor (α := α)).Progresses text (cornerRound unit)) ∧
    (cursor (α := α)).Progresses text optionRound ∧
    (cursor (α := α)).Progresses text treeRound ∧
    (cursor (α := α)).Progresses text primeRound ∧
    (cursor (α := α)).Progresses text cycleRound ∧
    (∀ prior : Option (Tiling α), cursor.Progresses text (round prior)) ∧
    (∀ (settings : Settings) (prior : Option (Tiling α)), ∃ s, Stage settings prior text s ∧
      ((∃ t, round prior () text s = .ok (.inr ()) t ∧
          description prior text (start settings prior) = .ok () t) ∨
        ∃ e t, round prior () text s = .error e t ∧
          description prior text (start settings prior) = .error e t ∧
            ∀ p, e ≠ .malformed ⟨.stalled, p⟩)) := by
  refine ⟨fun ops s => Operation.after_spec ops, fun op s t hop hs hdepth =>
    op.advances_of_isExpression hop hs hdepth, fun op => op.count_eq_read text, fun scope room =>
    ⟨?_, ?_, ?_⟩, fun unit => ?_, ?_, ?_, ?_, ?_, fun prior => ?_, fun settings prior => ?_⟩
  · exact .of_moves (Expression.link_moves (by decide) (by decide)
      (Expression.product_moves room))
  · exact .of_moves (Expression.link_moves (by decide) (by decide) (Expression.unary_moves room))
  · exact .of_moves (Expression.round_moves (Expression.sumOf_advances scope room).keeps)
  · exact .of_moves (cornerRound_moves unit)
  · exact .of_moves fun _ => optionRound_moves
  · exact .of_moves treeRound_moves
  · exact .of_moves primeRound_moves
  · exact .of_moves fun _ => cycleRound_moves
  · exact .of_moves fun _ => round_moves prior
  · obtain ⟨s, hstage, hend⟩ := description_ends settings prior text
    refine ⟨s, hstage, hend.imp id fun ⟨e, t, hround, hfails⟩ => ⟨e, t, hround, hfails, ?_⟩⟩
    rintro p rfl
    exact ((description_moves prior).error (Nat.zero_le _) hfails).2.2 _ rfl |>.2 rfl

set_option maxRecDepth 10000 in
/-- An expression that is not closed, and what is asked after it has failed; an expression that is
read; and the first round of a description. -/
theorem reading_progresses_unclosed :
    (∃ s, Operation.after "(1+2".toByteArray ⟨0, 0⟩
        [.sum wholeScope, .eat "*", .real wholeScope] = s ∧
      s.offset ≤ "(1+2".toByteArray.size ∧ s.depth = 0) ∧
    (∃ t, (Operation.sum wholeScope).count "-1)".toByteArray ⟨0, 0⟩ = .ok () t ∧
      0 < t.offset) ∧
    ∃ t, round (none : Option (Tiling Whole)) () "e2. c2(1)".toByteArray (start .default none) =
      .ok (.inl ()) t ∧ 0 < t.offset := by
  have hsum : answer ((Operation.sum wholeScope).count "-1)".toByteArray ⟨0, 0⟩) = some () := by cbv
  have hround : answer (round (none : Option (Tiling Whole)) () "e2. c2(1)".toByteArray
      (start .default none)) = some (.inl ()) := by cbv
  have hroom : 0 ≤ Expression.maxDepth := Nat.zero_le _
  obtain ⟨hafter, -⟩ := reading_progresses (α := Whole) "(1+2".toByteArray
  obtain ⟨-, hreads, -⟩ := reading_progresses (α := Whole) "-1)".toByteArray
  obtain ⟨-, -, -, -, -, -, -, -, -, hrounds, -⟩ :=
    reading_progresses (α := Whole) "e2. c2(1)".toByteArray
  obtain ⟨-, hsize, hdepth⟩ := hafter [.sum wholeScope, .eat "*", .real wholeScope] ⟨0, 0⟩
    (Nat.zero_le _) hroom
  refine ⟨⟨_, rfl, hsize, hdepth⟩, ⟨_, eq_ok_of_answer hsum, ?_⟩, ⟨_, eq_ok_of_answer hround, ?_⟩⟩
  · exact hreads _ _ _ rfl (Nat.zero_le _) hroom (eq_ok_of_answer hsum)
  · exact (hrounds none () () _ _ (Nat.zero_le _) (eq_ok_of_answer hround)).1

end Tiling

end Mosaic
