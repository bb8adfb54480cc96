import Mosaic.Expression.Parser
import Mosaic.Proofs.Expression.Parser
import Mosaic.Proofs.Reading.Stretch

/-!
# Expression — reading an expression twice

Where the end of an expression is depends on the text alone, not on the values of its names: the
runs of the parser in two scopes keep pace with each other, and read equal values if the names mean
the same (`Scope.Agree`).
-/

namespace Mosaic

variable {α : Type} [Scalar α]

/-- Names mean the same in both scopes. -/
structure Scope.Agree (s s' : Scope α) : Prop where
  lookup : ∀ name, s.lookup name = s'.lookup name
  call : ∀ name args, s.call name args = s'.call name args

/-- Scopes of one space with the same variables agree. -/
theorem Scope.agree_of {s s' : Scope α} (hspace : s.space = s'.space)
    (hbindings : ∀ name : String, s.bindings[name]? = s'.bindings[name]?) : s.Agree s' where
  lookup name := by rw [lookup, hbindings, lookup]
  call name args := by unfold call; rw [hspace]

namespace Expression

open Lockstep Stretch Reader

variable {S : Stretch} {exact : Prop}

section Operands

omit [Scalar α]

/-- A chain of operands is followed if the operands are. -/
theorem chain_paces {a b : String} {c d : Char} {f g : α → α → α} {operand operand' : Reader α}
    (ha : a.toByteArray.data.toList = [c.toUInt8]) (hb : b.toByteArray.data.toList = [d.toUInt8])
    (hoperand : (S.lockstep exact).Paces operand operand') :
    (S.lockstep exact).Paces (chain a b f g operand)
      (chain a b f g operand') := by
  refine hoperand.bind fun v v' hv => ?_
  refine Follows.iterate (S := (S.lockstep exact).Val) (fun _ _ => trivial) (fun v v' hv => ?_) hv
  refine .ifTaken (eat_tests ha) ?_ (.ifTaken (eat_tests hb) ?_ ?_)
  · exact hoperand.bind fun w w' hw => .pure (.inl (Val.map₂ hv hw f))
  · exact hoperand.bind fun w w' hw => .pure (.inl (Val.map₂ hv hw g))
  · exact .pure (.inr hv)

/-- Arguments are read in lockstep if the expressions in them are. -/
theorem arguments_paces {expr expr' : Reader α}
    (h : (S.lockstep exact).Paces expr expr') :
    (S.lockstep exact).Paces (arguments expr) (arguments expr') := by
  refine .ifTaken (eat_tests (c := ')') rfl) (.pure (Val.refl [])) ?_
  refine Follows.iterate (S := (S.lockstep exact).Val) (fun _ _ => trivial)
    (fun args args' hargs => ?_) (Val.refl [])
  refine h.bind fun v v' hv => ?_
  have hcons : (S.lockstep exact).Val (v :: args) (v' :: args') := Val.map₂ hv hargs List.cons
  refine .ifTaken (eat_tests (c := ')') rfl) ?_ ?_
  · exact .pure (.inr (Val.map hcons List.reverse))
  · exact (expect_closes (c := ',') rfl).follows.bind fun _ _ _ => .pure (.inl hcons)

end Operands

theorem sumOf_paces {term term' : Reader α}
    (h : (S.lockstep exact).Paces term term') :
    (S.lockstep exact).Paces (sumOf term) (sumOf term') :=
  chain_paces (c := '+') (d := '-') rfl rfl h

theorem productOf_paces {factor factor' : Reader α}
    (h : (S.lockstep exact).Paces factor factor') :
    (S.lockstep exact).Paces (productOf factor) (productOf factor') :=
  chain_paces (c := '*') (d := '/') rfl rfl h

variable {scope scope' : Scope α}

/-- The two readers of a primary look up the same names; where only the pace is to be the same,
their values may differ. -/
theorem primary_paces {expr expr' : Reader α} (hscope : exact → scope.Agree scope')
    (h : (S.lockstep exact).Paces expr expr') :
    (S.lockstep exact).Paces (primary scope expr)
      (primary scope' expr') := by
  refine (skipWhile_follows _).bind fun _ _ _ => peek_follows.bind fun c _ hc => hc ▸ ?_
  cases c with
  | none => exact .refuse (fail_refuses _)
  | some c =>
      refine .ite (fun _ => ?_) fun _ => .ite (fun _ => ?_) fun _ => .ite (fun _ => ?_) fun _ => ?_
      · refine takeChar_tests.follows.bind fun _ _ _ => h.bind fun v v' hv => ?_
        exact (expect_closes (c := ')') rfl).follows.bind fun _ _ _ => .pure hv
      · exact number_follows.imp fun _ _ hv _ => hv
      · refine identifier_follows.bind fun name _ hname => hname ▸ ?_
        refine .ifTaken (eat_tests (c := '(') rfl) ?_ ?_
        · refine (arguments_paces h).bind fun args args' hargs => ?_
          exact (ofExcept_keeps fun he => by rw [(hscope he).call, hargs he]).follows
        · exact (ofExcept_keeps fun he => (hscope he).lookup name).follows
      · exact .refuse (fail_refuses _)

/-- Signed powers are read in lockstep, whatever room there is for nesting. -/
theorem unary_paces (hscope : exact → scope.Agree scope') (room : Nat) :
    (S.lockstep exact).Paces (unary scope room) (unary scope' room) := by
  induction room with
  | zero => exact .refuse (fail_refuses _)
  | succ room ih =>
      unfold unary
      refine .ifTaken (eat_tests (c := '-') rfl) ?_ ?_
      · exact ih.bind fun v v' hv => .pure (Val.map hv (-·))
      refine .ifTaken (eat_tests (c := '+') rfl) ih ?_
      refine (primary_paces hscope (sumOf_paces (productOf_paces ih))).bind
        fun base base' hbase => ?_
      refine .ifTaken (eat_tests (c := '^') rfl) ?_ (.pure hbase)
      exact ih.bind fun v v' hv => .pure (Val.map₂ hbase hv Scalar.pow)

/-- Expressions are read in lockstep. -/
theorem sum_paces (hscope : exact → scope.Agree scope') :
    (S.lockstep exact).Paces (sum scope) (sum scope') :=
  sumOf_paces (productOf_paces (unary_paces hscope maxDepth))

theorem real_paces (hscope : exact → scope.Agree scope') :
    (S.lockstep exact).Paces (real scope) (real scope') :=
  (sum_paces hscope).bind fun _ _ hv => (finite_keeps hv).follows

theorem integer_paces (hscope : exact → scope.Agree scope') :
    (S.lockstep exact).Paces (integer scope) (integer scope') :=
  (real_paces hscope).bind fun _ _ hv => .pure (Val.map hv Scalar.round)

theorem index_paces (hscope : exact → scope.Agree scope') :
    (S.lockstep exact).Paces (index scope) (index scope') := by
  refine (integer_paces hscope).bind fun v v' hv => ?_
  cases v with
  | negSucc n => exact .refuse (fail_refuses _)
  | ofNat n =>
      cases v' with
      | ofNat n' => exact .pure fun he => Int.ofNat.inj (hv he)
      | negSucc n' =>
          exact Steps.outrun (.pure (Val.refl n)) (fun he => nomatch hv he) (fail_refuses _)

/-- A real number and the parenthesis behind it are read in lockstep. -/
theorem realThenClose_closes (hscope : exact → scope.Agree scope') :
    (S.lockstep exact).Closes (S.lockstep exact).Val (realThenClose scope)
      (realThenClose scope') :=
  .bind (real_paces hscope) fun _ _ hv =>
    .andThen (expect_closes (c := ')') rfl) fun _ _ _ => .pure hv

end Expression

end Mosaic
