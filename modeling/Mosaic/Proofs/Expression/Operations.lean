import Mosaic.Proofs.Expression.Nesting

/-!
# Expression — sequences of operations

A text is read by operations of the cursor and by expressions, one after the other, and a failure
does not keep the next one from going on where it stopped (`Operation.after`).  Whatever the
operations are, the cursor goes forward and stays in the text, and the count of nesting is what it
was before (`Operation.after_spec`).

* `Operation.read`, `Operation.count`: what an operation does, and the same with a count of nesting.
-/

namespace Mosaic

open Reader

/-- What can be asked of a cursor. -/
inductive Operation (α : Type) where
  | eat (token : String)
  | expect (token : String)
  | skipBlanks
  | atEnd
  | takeChar
  | identifier
  | restOfLine
  | takeUntil (stop : UInt8)
  | finite (x : α)
  | note (message : String)
  | sum (scope : Scope α)
  | real (scope : Scope α)
  | integer (scope : Scope α)
  | index (scope : Scope α)
  | realThenClose (scope : Scope α)

namespace Operation

variable {α : Type} [Scalar α] {text : ByteArray}

/-- Whether an operation reads an expression. -/
def isExpression : Operation α → Bool
  | sum _ | real _ | integer _ | index _ | realThenClose _ => true
  | _ => false

/-- What an operation does to the cursor, whatever it answers. -/
def read : Operation α → Reader Unit
  | eat token => do let _ ← Reader.eat token
  | expect token => Reader.expect token
  | skipBlanks => Reader.skipBlanks
  | atEnd => do let _ ← Reader.atEnd
  | takeChar => do let _ ← Reader.takeChar
  | identifier => do let _ ← Reader.identifier
  | restOfLine => do let _ ← Reader.restOfLine
  | takeUntil stop => do let _ ← Reader.takeUntil stop
  | finite x => do let _ ← Reader.finite x
  | note message => Reader.fail (.note message)
  | sum scope => do let _ ← Expression.sum scope
  | real scope => do let _ ← Expression.real scope
  | integer scope => do let _ ← Expression.integer scope
  | index scope => do let _ ← Expression.index scope
  | realThenClose scope => do let _ ← Expression.realThenClose scope

/-- The same with a count of nesting. -/
def count : Operation α → Expression.Nested Unit
  | sum scope => do let _ ← Expression.Nested.sum scope
  | real scope => do let _ ← Expression.Nested.real scope
  | integer scope => do let _ ← Expression.Nested.integer scope
  | index scope => do let _ ← Expression.Nested.index scope
  | realThenClose scope => do let _ ← Expression.Nested.realThenClose scope
  | op => .ofReader op.read

open Expression (Nested Nesting maxDepth)

/-- An operation goes forward while counting, and takes something if it reads an expression. -/
theorem count_agrees (op : Operation α) (text : ByteArray) {d : Nat} (hd : d ≤ maxDepth) :
    Nested.Counts text d (fun _ => op.isExpression = true) op.count op.read := by
  have htoken {r : Reader Unit} (h : cursor.Keeps text r) :
      Nested.Counts text d (fun _ => false = true) (.ofReader r) r :=
    .reading (h.mono (fun _ h => h) fun _ h => nomatch h)
  have hdrop {β : Type} {A : β → Prop} {x : Reader β}
      (h : cursor.Moves text (fun _ => True) A x) : cursor.Keeps text (do let _ ← x) :=
    h.bind fun _ _ => .pure trivial id
  have hexpression {β : Type} {x : Nested β} {r : Reader β}
      (h : Nested.Counts text d (fun _ => True) x r) :
      Nested.Counts text d (fun _ => true = true) (do let _ ← x) (do let _ ← r) := by
    obtain ⟨r', hagrees, hr, hmoves⟩ := h.andThen fun _ => .pure ()
    exact ⟨r', hagrees, hr, hmoves.mono (fun _ h => h) fun _ _ => trivial⟩
  cases op with
  | eat token => exact htoken (hdrop (eat_moves token))
  | expect token => exact htoken (expect_moves token).keeps
  | skipBlanks => exact htoken skipBlanks_moves
  | atEnd => exact htoken (hdrop atEnd_moves)
  | takeChar => exact htoken (hdrop takeChar_moves)
  | identifier => exact htoken (hdrop identifier_moves)
  | restOfLine => exact htoken (hdrop restOfLine_moves)
  | takeUntil stop => exact htoken (hdrop (takeUntil_moves stop))
  | finite x => exact htoken (hdrop (finite_moves x))
  | note message => exact htoken (fail_moves rfl)
  | sum scope => exact hexpression (.sum scope hd)
  | real scope => exact hexpression (.real scope hd)
  | integer scope => exact hexpression (.integer scope hd)
  | index scope => exact hexpression (.index scope hd)
  | realThenClose scope => exact hexpression (.realThenClose scope hd)

/-- The state after an operation, whether it answers or fails. -/
def step (text : ByteArray) (s : Nesting) (op : Operation α) : Nesting := left (op.count text s)

/-- The state after a sequence of operations. -/
def after (text : ByteArray) (s : Nesting) (ops : List (Operation α)) : Nesting :=
  ops.foldl (step text) s

/-- One operation goes forward and leaves the count as it is. -/
theorem step_spec (op : Operation α) {s : Nesting} (hs : s.offset ≤ text.size)
    (hdepth : s.depth ≤ maxDepth) : s.offset ≤ (step text s op).offset ∧
      (step text s op).offset ≤ text.size ∧ (step text s op).depth = s.depth := by
  obtain ⟨r, hagrees, -, hmoves⟩ := op.count_agrees text hdepth
  unfold step
  rw [show op.count text s = Nested.ofReader r text s from hagrees text s.offset, Nested.ofReader]
  cases hr : r text s.offset with
  | ok b i =>
      obtain ⟨hle, hsize, -⟩ := hmoves.ok hs hr
      exact ⟨hle, hsize, rfl⟩
  | error e i =>
      obtain ⟨hle, hsize, -⟩ := hmoves.error hs hr
      exact ⟨hle, hsize, rfl⟩

/-- So does every sequence of operations. -/
theorem after_spec (ops : List (Operation α)) {s : Nesting} (hs : s.offset ≤ text.size)
    (hdepth : s.depth ≤ maxDepth) : s.offset ≤ (after text s ops).offset ∧
      (after text s ops).offset ≤ text.size ∧ (after text s ops).depth = s.depth := by
  induction ops generalizing s with
  | nil => exact ⟨Nat.le_refl _, hs, rfl⟩
  | cons op ops ih =>
      obtain ⟨hle, hsize, hop⟩ := op.step_spec hs hdepth
      obtain ⟨hle', hsize', hops⟩ := ih (s := step text s op) hsize (hop ▸ hdepth)
      exact ⟨Nat.le_trans hle hle', hsize', hops.trans hop⟩

/-- An operation that reads an expression, and does not fail, has taken something. -/
theorem advances_of_isExpression (op : Operation α) (hop : op.isExpression = true) {s t : Nesting}
    (hs : s.offset ≤ text.size) (hdepth : s.depth ≤ maxDepth) (h : op.count text s = .ok () t) :
    s.offset < t.offset := by
  obtain ⟨r, hagrees, -, hmoves⟩ := op.count_agrees text hdepth
  rw [show op.count text s = Nested.ofReader r text s from hagrees text s.offset,
    Nested.ofReader] at h
  cases hr : r text s.offset with
  | ok b i =>
      rw [hr] at h
      cases h
      exact (hmoves.ok hs hr).2.2.2 hop
  | error e i =>
      rw [hr] at h
      cases h

/-- Outside of expressions the count does not matter. -/
theorem count_eq_read (op : Operation α) (text : ByteArray) (i : Nat) :
    op.count text ⟨i, 0⟩ = Nested.ofReader op.read text ⟨i, 0⟩ := by
  obtain ⟨r, hagrees, hr, -⟩ := op.count_agrees text (Nat.zero_le maxDepth)
  rw [← hr rfl]
  exact hagrees text i

theorem read_moves (op : Operation α) : cursor.Moves text (fun _ => True)
    (fun _ => op.isExpression = true) op.read := by
  obtain ⟨r, -, hr, hmoves⟩ := op.count_agrees text (Nat.zero_le maxDepth)
  exact hr rfl ▸ hmoves

end Operation

end Mosaic
