import Mosaic.Proofs.Expression.Operations
import Mosaic.Proofs.Expression.Places
import Mosaic.Proofs.Reading.Capture

/-!
# Expression — what expressions take out of a text

Numbers and expressions stay on characters of the source.  What a number that is not well formed and
a name without a meaning repeat in their faults are excerpts of it (`excerpt_numeral`,
`primary_faithful`).
-/

namespace Mosaic

/-- An exponent ends behind a digit, if there is one. -/
theorem ExponentAt.onCharacter {source : String} {i j : Nat} {e : Int}
    (h : ExponentAt source.toByteArray i j e) (hi : OnCharacter source i) :
    OnCharacter source j := by
  cases h with
  | absent => exact hi
  | unsigned _ hdigits hj => exact hdigits.onCharacter_of_lt (fun _ => isDigit_ascii) hj
  | plus _ _ hdigits hj | minus _ _ hdigits hj =>
      exact hdigits.onCharacter_of_lt (fun _ => isDigit_ascii) hj

namespace Reader

variable {source : String} {i : Nat}

/-- A number is read behind its last digit, or refused with the text that has been tried. -/
theorem excerpt_numeral (hi : OnCharacter source i) :
    (∀ n j, numeral source.toByteArray i = .ok n j → OnCharacter source j) ∧
      ∀ e j, numeral source.toByteArray i = .error e j →
        ∃ w, e.fault = .malformedNumber w ∧ Excerpt source i j w := by
  rw [numeral_eq]
  dsimp only
  obtain ⟨hwhole, -⟩ := runEnd_spec isDigit source.toByteArray i
  have hpoint := hwhole.onCharacter (fun _ => isDigit_ascii) hi
  generalize runEnd isDigit source.toByteArray i = point at hwhole hpoint ⊢
  have hfirst : OnCharacter source
        (if source.toByteArray[point]? == some 46 then point + 1 else point) ∧
      point ≤ if source.toByteArray[point]? == some 46 then point + 1 else point := by
    split
    · exact ⟨(onCharacter_of_ascii (beq_iff_eq.mp ‹_›) (by decide)).2, Nat.le_succ _⟩
    · exact ⟨hpoint, Nat.le_refl _⟩
  generalize (if source.toByteArray[point]? == some 46 then point + 1 else point) = first
    at hfirst ⊢
  obtain ⟨hfraction, -⟩ := runEnd_spec isDigit source.toByteArray first
  have hstop := hfraction.onCharacter (fun _ => isDigit_ascii) hfirst.1
  have htaken := exponentAt_taken source.toByteArray (runEnd isDigit source.toByteArray first)
  have hend := htaken.onCharacter hstop
  have hle := htaken.noLineFeed.1.1
  split
  · refine ⟨fun n j h => ?_, nofun⟩
    cases h
    exact hend
  · refine ⟨nofun, fun e j h => ?_⟩
    cases h
    exact ⟨_, rfl, excerpt_textBetween hi hend
      (Nat.le_trans (Nat.le_trans hwhole.1 hfirst.2) (Nat.le_trans hfraction.1 hle))⟩

/-- A number that is refused is quoted as it stands in the source. -/
theorem numeral_faithful : (faithful source).Keeps numeral := by
  intro i hi
  obtain ⟨hok, herror⟩ := excerpt_numeral hi
  refine ⟨fun h => ⟨hok _ _ h, trivial⟩, fun h => ?_⟩
  obtain ⟨w, hfault, hexcerpt⟩ := herror _ _ h
  exact ⟨hexcerpt.right, .of_some (by rw [hfault]; rfl) hexcerpt.isExcerpt⟩

theorem number_faithful {α : Type} [Scalar α] :
    (faithful source).Keeps (number : Reader α) :=
  numeral_faithful.bind fun _ _ => .pure trivial

end Reader

namespace Expression

open Reader

variable {source : String} {α : Type}

section Operands

variable {a b : String} {f g : α → α → α} {operand expr : Reader α}

/-- One more operand of a chain. -/
theorem link_faithful (h : (faithful source).Keeps operand) (v : α) :
    (faithful source).Keeps (link a b f g operand v) := by
  refine .test (eat_faithful a) ?_ (.test (eat_faithful b) ?_ (.pure trivial)) <;>
    exact h.bind fun _ _ => .pure trivial

theorem chain_faithful (h : (faithful source).Keeps operand) :
    (faithful source).Keeps (chain a b f g operand) :=
  h.bind fun _ _ => .loop
    (fun v => (link_faithful h v).mono fun r _ => by cases r <;> trivial)
    fun _ => .of_none rfl

theorem round_faithful (h : (faithful source).Keeps expr) (args : List α) :
    (faithful source).Keeps (round expr args) :=
  h.bind fun _ _ => .test (eat_faithful ")") (.pure trivial)
    ((expect_faithful ",").bind fun _ _ => .pure trivial)

theorem arguments_faithful [Scalar α] (h : (faithful source).Keeps expr) :
    (faithful source).Keeps (arguments expr) :=
  .test (eat_faithful ")") (.pure trivial) <| .loop
    (fun args => (round_faithful h args).mono fun r _ => by cases r <;> trivial)
    fun _ => .of_none rfl

end Operands

variable [Scalar α] {scope : Scope α} {expr : Reader α} {name : String} {fault : Fault}

/-! ### Names -/

/-- A variable that is not known is quoted. -/
theorem lookup_quotes (hname : IsExcerpt source name) (h : scope.lookup name = .error fault) :
    fault.Quotes source := by
  unfold Scope.lookup at h
  split at h
  · cases h
  · cases h
    exact .of_some rfl hname

/-- A function that is not known, or is given another number of arguments, is quoted. -/
theorem call_quotes {args : List α} (hname : IsExcerpt source name)
    (h : scope.call name args = .error fault) : fault.Quotes source := by
  unfold Scope.call at h
  split at h
  · cases h
  · cases h
    exact .of_some rfl hname
  · split at h <;> cases h <;> exact .of_some rfl hname

/-- What a primary is refused for is quoted. -/
theorem primary_faithful (h : (faithful source).Keeps expr) :
    (faithful source).Keeps (primary scope expr) := by
  intro i hi
  have hgap := gap_onCharacter hi
  change (faithful source).Kept _ (primary scope expr source.toByteArray i)
  cases hc : source.toByteArray[gap source.toByteArray i]? with
  | none =>
      rw [primary_none hc]
      exact .of_error hgap (.of_none rfl)
  | some c =>
      rw [primary_eq hc]
      split
      · -- a parenthesis is a character, so that the text inside begins on one
        rename_i hparen
        obtain rfl := beq_iff_eq.mp hparen
        have hnext := (onCharacter_of_ascii hc (by decide)).2
        rw [bind_of_ok (takeChar_of_some hc)]
        exact (h.bind fun v _ => (expect_faithful ")").bind fun _ _ => .pure trivial) _ hnext
      split
      · exact number_faithful _ hgap
      split
      · refine identifier_faithful.bind (fun name hname => ?_) _ hgap
        refine .test (eat_faithful "(") ?_ (ofExcept_faithful fun fault => lookup_quotes hname)
        exact (arguments_faithful h).bind fun args _ =>
          ofExcept_faithful fun fault => call_quotes hname
      · exact fail_faithful (.of_none rfl) _ hgap

/-! ### Expressions -/

/-- What a signed power is refused for is quoted, whatever room there is for nesting. -/
theorem unary_faithful (room : Nat) :
    (faithful source).Keeps (unary scope room) := by
  induction room with
  | zero => exact fail_faithful (.of_none rfl)
  | succ room ih =>
      refine .test (eat_faithful "-") (ih.bind fun _ _ => .pure trivial) ?_
      refine .test (eat_faithful "+") ih ?_
      refine (primary_faithful (chain_faithful (chain_faithful ih))).bind fun base _ => ?_
      exact .test (eat_faithful "^") (ih.bind fun _ _ => .pure trivial) (.pure trivial)

/-- What an expression is refused for is quoted. -/
theorem sum_faithful : (faithful source).Keeps (sum scope) :=
  chain_faithful (chain_faithful (unary_faithful maxDepth))

theorem real_faithful : (faithful source).Keeps (real scope) :=
  sum_faithful.bind fun v _ => finite_faithful v

theorem integer_faithful : (faithful source).Keeps (integer scope) :=
  real_faithful.bind fun _ _ => .pure trivial

theorem index_faithful : (faithful source).Keeps (index scope) := by
  refine integer_faithful.bind fun v _ => ?_
  cases v with
  | ofNat n => exact .pure trivial
  | negSucc n => exact fail_faithful (.of_none rfl)

theorem realThenClose_faithful : (faithful source).Keeps (realThenClose scope) :=
  real_faithful.bind fun _ _ => (expect_faithful ")").bind fun _ _ => .pure trivial

end Expression

namespace Operation

variable {α : Type} {source : String} {i : Nat}

/-- The operation does not take a single byte out of a character of several ones, nor looks for
one. -/
def Whole (source : String) (i : Nat) : Operation α → Prop
  | takeChar => ∀ c, source.toByteArray[i]? = some c → c < 128
  | takeUntil stop => stop < 128
  | _ => True

variable [Scalar α]

/-- Whatever the operation, and whether it answers or fails, the cursor stays on characters. -/
theorem read_onCharacter (op : Operation α) (hop : op.Whole source i) (hi : OnCharacter source i) :
    OnCharacter source (left (op.read source.toByteArray i)) := by
  have hreading {β : Type} {F : β → Prop} {x : Reader β} (h : (Reader.faithful source).Runs F x) :
      OnCharacter source (left ((do let _ ← x : Reader Unit) source.toByteArray i)) :=
    ((h.bind fun _ _ => .pure trivial : (Reader.faithful source).Keeps _) i hi).left
  cases op with
  | eat token => exact hreading (Reader.eat_faithful token)
  | expect token => exact (Reader.expect_faithful token i hi).left
  | skipBlanks => exact (Reader.skipBlanks_faithful i hi).left
  | atEnd => exact hreading Reader.atEnd_faithful
  | takeChar =>
      change OnCharacter source (left ((Reader.takeChar >>= _ : Reader Unit) source.toByteArray i))
      cases hc : source.toByteArray[i]? with
      | none =>
          rw [Reader.bind_of_ok (Reader.takeChar_of_none hc)]
          exact hi
      | some c =>
          rw [Reader.bind_of_ok (Reader.takeChar_of_some hc)]
          exact (onCharacter_of_ascii hc (hop c hc)).2
  | identifier => exact hreading Reader.identifier_faithful
  | restOfLine => exact hreading Reader.restOfLine_faithful
  | takeUntil stop => exact hreading (Reader.takeUntil_faithful stop hop)
  | finite x => exact hreading (Reader.finite_faithful x)
  | note message => exact hi
  | sum scope => exact hreading Expression.sum_faithful
  | real scope => exact hreading Expression.real_faithful
  | integer scope => exact hreading Expression.integer_faithful
  | index scope => exact hreading Expression.index_faithful
  | realThenClose scope => exact hreading Expression.realThenClose_faithful

end Operation

end Mosaic
