import Mosaic.Proofs.Expression.Soundness
import Mosaic.Proofs.Reading.Places

/-!
# Expression — the cursor goes forward

Expressions are read forward, and one that has a value takes at least one byte (`sum_advances`).
The rounds of all loops advance: those of sums and products behind an operator (`link_moves`), those
of a list of arguments behind an expression (`round_moves`).  A number goes back when no exponent
follows its mark, but not behind its digits (`numeral_ends`).
-/

namespace Mosaic

variable {text : ByteArray} {i j : Nat}

/-- A run of bytes of one kind is one of every wider kind. -/
theorem AllBytes.mono {p q : UInt8 → Bool} (h : AllBytes p text i j)
    (hpq : ∀ c, p c = true → q c = true) : AllBytes q text i j := by
  refine ⟨h.1, fun k hk hkj => ?_⟩
  obtain ⟨c, hc, hp⟩ := (Option.any_eq_true _ _).mp (h.2 k hk hkj)
  exact (Option.any_eq_true _ _).mpr ⟨c, hc, hpq c hp⟩

theorem AllBytes.le_size {p : UInt8 → Bool} (h : AllBytes p text i j) (hij : i < j) :
    j ≤ text.size := by
  obtain ⟨c, hc, -⟩ := (Option.any_eq_true _ _).mp (h.2 (j - 1) (by omega) (by omega))
  have := lt_size_of_getElem? hc
  omega

theorem isDigit_ne_lineFeed {c : UInt8} (h : isDigit c = true) : (c != 10) = true := by
  grind [isDigit]

/-- An exponent is inside the text, and there is no line feed in it. -/
theorem ExponentAt.noLineFeed {e : Int} (h : ExponentAt text i j e) :
    AllBytes (· != 10) text i j ∧ (i ≤ text.size → j ≤ text.size) := by
  have hmark {k : Nat} (hk : (text[k]?).any isMark) : (text[k]?).any (· != 10) = true := by
    obtain ⟨c, hc, hmark⟩ := (Option.any_eq_true _ _).mp hk
    exact (Option.any_eq_true _ _).mpr ⟨c, hc, by grind [isMark]⟩
  have hsigned {k : Nat} {c : UInt8} (hc : text[k]? = some c) (hne : (c != 10) = true) :
      (text[k]?).any (· != 10) = true := (Option.any_eq_true _ _).mpr ⟨c, hc, hne⟩
  cases h with
  | absent => exact ⟨.refl, id⟩
  | unsigned hmark' hdigits hj =>
      exact ⟨.cons (hmark hmark') (hdigits.mono fun _ => isDigit_ne_lineFeed),
        fun _ => hdigits.le_size hj⟩
  | plus hmark' hsign hdigits hj | minus hmark' hsign hdigits hj =>
      exact ⟨.cons (hmark hmark') (.cons (hsigned hsign (by decide))
        (hdigits.mono fun _ => isDigit_ne_lineFeed)), fun _ => hdigits.le_size hj⟩

namespace Reader

/-- A number that begins with a digit or a point is taken, or refused behind its first byte. -/
theorem numeral_ends (hi : (text[i]?).any fun c => isDigit c || c == 46) :
    cursor.Ends text (fun _ => True) (fun _ => True) i (numeral text i) := by
  obtain ⟨c, hc, hfirst⟩ := (Option.any_eq_true _ _).mp hi
  have hlt := lt_size_of_getElem? hc
  refine ⟨fun {n j} h => ?_, fun {e j} h => ?_⟩
  · have hspelled := numeral_ok h
    have hij := hspelled.lt
    obtain ⟨point, first, stop, e, hwhole, hfraction, hsome, hexponent, -⟩ := hspelled
    have hstop : stop ≤ text.size := by
      rcases hfraction with ⟨rfl, rfl⟩ | ⟨hpoint, rfl, hfraction⟩
      · exact hwhole.le_size (by omega)
      · rcases Nat.eq_or_lt_of_le hfraction.1 with rfl | hlt
        · exact lt_size_of_getElem? hpoint
        · exact hfraction.le_size hlt
    exact ⟨Nat.le_of_lt hij, hexponent.noLineFeed.2 hstop, trivial, fun _ => hij⟩
  · rw [numeral_eq] at h
    dsimp only at h
    have hpoint := (runEnd_spec isDigit text i).1.1
    generalize hp : runEnd isDigit text i = point at h hpoint
    generalize hf : (if text[point]? == some 46 then point + 1 else point) = first at h
    have hstop := (runEnd_spec isDigit text first).1.1
    generalize hs : runEnd isDigit text first = stop at h hstop
    split at h
    · cases h
    · rename_i hnone
      cases h
      -- there are no digits, so that the number is a point
      obtain rfl : i = point := by omega
      have hdigit : isDigit c = false := by
        have hend := (runEnd_spec isDigit text i).2
        rwa [hp, hc, Option.any_some, Bool.not_eq_true] at hend
      have h46 : c = 46 := by
        rw [hdigit, Bool.false_or] at hfirst
        exact beq_iff_eq.mp hfirst
      subst h46
      rw [hc, if_pos (by rfl)] at hf
      obtain ⟨hbytes, hsize⟩ := (exponentAt_taken text stop).noLineFeed
      have hle := hbytes.1
      obtain rfl : stop = i + 1 := by omega
      have hall : AllBytes (· != 10) text i (exponentTaken text (i + 1)).2 :=
        .cons ((Option.any_eq_true _ _).mpr ⟨46, hc, by decide⟩) hbytes
      have hend := hsize hlt
      rw [Position.of_eq hend, (Position.of_stretch hall).1]
      exact ⟨Nat.le_of_lt hle, hend, ⟨⟨⟨Nat.le_of_lt hlt, rfl⟩, (nomatch ·),
        fun _ => ⟨_, hle, hall, rfl⟩⟩, (nomatch ·)⟩⟩

end Reader

namespace Expression

open Reader

variable {α : Type}

section Operands

variable {a b : String} {f g : α → α → α} {operand : Reader α}

/-- A round of a chain goes on behind an operator only. -/
theorem link_moves (ha : 0 < a.utf8ByteSize) (hb : 0 < b.utf8ByteSize)
    (h : cursor.Keeps text operand) (v : α) :
    cursor.Moves text (fun _ => True) (·.isLeft = true) (link a b f g operand v) := by
  refine .ifTaken (eat_tests ha) ?_ (.ifTaken (eat_tests hb) ?_ ?_)
  · exact h.bind fun _ _ => .pure trivial id
  · exact h.bind fun _ _ => .pure trivial id
  · exact .pure trivial Bool.false_ne_true

/-- A chain of operators keeps to the text if its operands do. -/
theorem chain_moves (ha : 0 < a.utf8ByteSize) (hb : 0 < b.utf8ByteSize)
    (h : cursor.Keeps text operand) : cursor.Keeps text (chain a b f g operand) :=
  h.bind fun _ _ => .loop (I := fun _ => True) (fun v _ => (link_moves ha hb h v).mono
    (fun r _ => by cases r <;> trivial) fun _ h => h) trivial

variable {expr : Reader α}

/-- A round of a list of arguments takes an expression. -/
theorem round_moves (h : cursor.Keeps text expr) (args : List α) :
    cursor.Moves text (fun _ => True) (·.isLeft = true) (round expr args) := by
  refine h.bind fun v _ => .ifTaken (eat_tests (by decide)) ?_ ?_
  · exact .pure trivial id
  · exact (expect_advances (by decide)).andThen fun _ _ => .pure trivial id

/-- Arguments keep to the text if the expressions in them do. -/
theorem arguments_moves [Scalar α] (h : cursor.Keeps text expr) :
    cursor.Keeps text (arguments expr) := by
  refine .ifTaken (eat_tests (by decide)) (.pure trivial id) ?_
  exact .loop (I := fun _ => True) (fun args _ => (round_moves h args).mono
    (fun r _ => by cases r <;> trivial) fun _ h => h) trivial

end Operands

variable [Scalar α] {scope : Scope α} {expr : Reader α}

/-- A variable that is not known is told of where it stands. -/
theorem lookup_plain (scope : Scope α) (name : String) (fault : Fault)
    (h : scope.lookup name = .error fault) : plain fault = true := by
  unfold Scope.lookup at h
  split at h
  · cases h
  · cases h
    rfl

/-- A call that is refused is told of where it stands. -/
theorem call_plain (scope : Scope α) (name : String) (args : List α) (fault : Fault)
    (h : scope.call name args = .error fault) : plain fault = true := by
  unfold Scope.call at h
  split at h
  · cases h
  · cases h
    rfl
  · split at h <;> cases h <;> rfl

/-- A primary keeps to the text if the expressions in parentheses do. -/
theorem primary_moves (h : cursor.Keeps text expr) : cursor.Keeps text (primary scope expr) := by
  intro i hi
  have hgap := gap_le_size hi
  refine .of_le ?_ (le_gap text i)
  cases hc : text[gap text i]? with
  | none =>
      have hfails : cursor.Keeps text (fail .expectedExpression : Reader α) := fail_moves rfl
      rw [primary_none hc]
      exact hfails _ hgap
  | some c =>
      rw [primary_eq hc]
      split
      · refine takeChar_moves.bind (fun _ _ => h.bind fun v _ => ?_) _ hgap
        exact (expect_moves ")").bind fun _ _ => .pure trivial id
      split
      · exact (numeral_ends (by rwa [hc])).bindOf fun n _ => .pure trivial fun h => h.1
      split
      · refine identifier_moves.bind (fun name _ => ?_) _ hgap
        refine .ifTaken (eat_tests (by decide)) ?_ (ofExcept_moves (lookup_plain scope name))
        exact (arguments_moves h).bind fun args _ => ofExcept_moves (call_plain scope name args)
      · exact fail_moves rfl _ hgap

/-- A signed power keeps to the text, whatever room there is for nesting. -/
theorem unary_moves (room : Nat) : cursor.Keeps text (unary scope room) := by
  induction room with
  | zero => exact fail_moves rfl
  | succ room ih =>
      refine .ifTaken (eat_tests (by decide)) (ih.bind fun _ _ => .pure trivial id) ?_
      refine .ifTaken (eat_tests (by decide)) ih ?_
      refine (primary_moves (chain_moves (by decide) (by decide)
        (chain_moves (by decide) (by decide) ih))).bind fun base _ => ?_
      exact .ifTaken (eat_tests (by decide)) (ih.bind fun _ _ => .pure trivial id)
        (.pure trivial id)

/-- A product keeps to the text. -/
theorem product_moves (room : Nat) : cursor.Keeps text (productOf (unary scope room)) :=
  chain_moves (by decide) (by decide) (unary_moves room)

/-- An expression that has a value takes at least one byte, however deep it is nested. -/
theorem sumOf_advances (scope : Scope α) (room : Nat) :
    cursor.Advances text (sumOf (productOf (unary scope room))) := by
  have hmoves : cursor.Keeps text (sumOf (productOf (unary scope room))) :=
    chain_moves (by decide) (by decide) (product_moves room)
  refine hmoves.strengthen fun {i v j} h _ => ?_
  obtain ⟨t, k, hspells, hgap, -⟩ :=
    sumOf_reads (fun _ _ _ => productOf_reads fun _ _ _ => unary_reads) h
  have hlt : gap text i < k := (hspells.of_gap (gap_gap text i).symm).lt
  have hle := le_gap text k
  by_contra hji
  have : gap text j ≤ gap text i :=
    runEnd_le_of_not (Nat.le_trans (Nat.le_of_not_lt hji) (le_gap text i)) (not_blank_gap text i)
  omega

theorem sum_advances : cursor.Advances text (sum scope) := sumOf_advances scope maxDepth

theorem real_advances : cursor.Advances text (real scope) :=
  sum_advances.andThen fun v _ => finite_moves v

theorem integer_advances : cursor.Advances text (integer scope) :=
  real_advances.andThen fun _ _ => .pure trivial id

theorem index_advances : cursor.Advances text (index scope) := by
  refine integer_advances.andThen fun v _ => ?_
  cases v with
  | ofNat n => exact .pure trivial id
  | negSucc n => exact fail_moves rfl

theorem realThenClose_advances : cursor.Advances text (realThenClose scope) :=
  real_advances.andThen fun _ _ => (expect_moves ")").bind fun _ _ => .pure trivial id

end Expression

end Mosaic
