import Mosaic.Expression.Parser
import Mosaic.Proofs.Expression.Grammar

/-!
# Expression — what the parser does

For each part of the parser, what it has taken when it answers, and what it answers where its
tokens stand.  Sums and products are chains of operands (`chain`).

* `chain_ok`, `round_ok`, `primary_ok`, `unary_ok`: what has been taken.
* `iterate_link_first`, `iterate_link_second`, `iterate_stop`, `round_more`, `round_last`,
  `primary_of_…`, `unary_of_…`: what is answered.
-/

namespace Mosaic.Expression

open Reader

variable {α : Type} {text : ByteArray} {i j k l : Nat} {v w : α}

/-! ### Chains -/

section Chain

/-- One more operand, after either of two tokens. -/
def link (a b : String) (f g : α → α → α) (operand : Reader α) (v : α) : Reader (α ⊕ α) := do
  if ← eat a then return .inl (f v (← operand))
  else if ← eat b then return .inl (g v (← operand))
  else return .inr v

/-- Operands joined by either of two tokens, grouped to the left. -/
def chain (a b : String) (f g : α → α → α) (operand : Reader α) : Reader α := do
  iterate (link a b f g operand) (← operand)

/-- A sum is a chain of terms. -/
theorem sumOf_eq [Scalar α] (term : Reader α) :
    sumOf term = chain "+" "-" (· + ·) (· - ·) term := rfl

/-- A product is a chain of factors. -/
theorem productOf_eq [Scalar α] (factor : Reader α) :
    productOf factor = chain "*" "/" (· * ·) (· / ·) factor := rfl

variable {a b : String} {c d : Char} {f g : α → α → α} {operand : Reader α}

/-- One more operand has been taken after one of the tokens, or the chain is over. -/
theorem link_ok (ha : a.toByteArray.data.toList = [c.toUInt8])
    (hb : b.toByteArray.data.toList = [d.toUInt8]) {r : α ⊕ α}
    (h : link a b f g operand v text i = .ok r j) :
    (∃ k w, Token text c i k ∧ operand text k = .ok w j ∧ r = .inl (f v w)) ∨
      (∃ k w, Token text d i k ∧ operand text k = .ok w j ∧ r = .inl (g v w)) ∨
      (r = .inr v ∧ j = gap text i) := by
  obtain ⟨taken, k, htaken, h⟩ := bind_ok.mp h
  rcases eat_ok ha htaken with ⟨rfl, htoken⟩ | ⟨rfl, rfl, -⟩
  · obtain ⟨w, _, hw, h⟩ := bind_ok.mp h
    cases h
    exact Or.inl ⟨_, w, htoken, hw, rfl⟩
  · obtain ⟨taken, k, htaken, h⟩ := bind_ok.mp h
    rcases eat_ok hb htaken with ⟨rfl, htoken⟩ | ⟨rfl, rfl, -⟩
    · obtain ⟨w, _, hw, h⟩ := bind_ok.mp h
      cases h
      exact Or.inr (Or.inl ⟨_, w, htoken.of_gap (gap_gap text i), hw, rfl⟩)
    · cases h
      exact Or.inr (Or.inr ⟨rfl, gap_gap text i⟩)

/-- What holds of the first operand and is kept by each further one holds of a chain. -/
theorem chain_ok (ha : a.toByteArray.data.toList = [c.toUInt8])
    (hb : b.toByteArray.data.toList = [d.toUInt8]) {P : α → Nat → Prop}
    (hfirst : ∀ v j, operand text i = .ok v j → P v j)
    (hf : ∀ v w j k l, P v j → Token text c j k → operand text k = .ok w l → P (f v w) l)
    (hg : ∀ v w j k l, P v j → Token text d j k → operand text k = .ok w l → P (g v w) l)
    (h : chain a b f g operand text i = .ok v j) : ∃ k, P v k ∧ j = gap text k := by
  obtain ⟨u, k, hu, h⟩ := bind_ok.mp h
  have hstep : ∀ u k r l, P u k → link a b f g operand u text k = .ok (.inl r) l → P r l := by
    intro u k r l hP hlink
    rcases link_ok ha hb hlink with ⟨_, w, ht, hw, hr⟩ | ⟨_, w, ht, hw, hr⟩ | ⟨hr, -⟩
    · cases hr
      exact hf _ _ _ _ _ hP ht hw
    · cases hr
      exact hg _ _ _ _ _ hP ht hw
    · cases hr
  obtain ⟨u', m, hP, hlast⟩ := iterate_ok (hfirst _ _ hu) hstep h
  rcases link_ok ha hb hlast with ⟨_, _, -, -, hr⟩ | ⟨_, _, -, -, hr⟩ | ⟨hr, hj⟩
  · cases hr
  · cases hr
  · cases hr
    exact ⟨m, hP, hj⟩

/-- A chain that has its first operand is a loop over the others. -/
theorem chain_eq (h : operand text i = .ok v j) :
    chain a b f g operand text i = iterate (link a b f g operand) v text j :=
  bind_of_ok (x := operand) h

/-- Where the first token stands, the loop takes one more operand. -/
theorem iterate_link_first (ha : a.toByteArray.data.toList = [c.toUInt8])
    (ht : Token text c i k) (hw : operand text k = .ok w j) (hkj : k ≤ j) :
    iterate (link a b f g operand) v text (gap text i) =
      iterate (link a b f g operand) (f v w) text j := by
  obtain ⟨-, hik, hlt⟩ := ht.lt
  refine iterate_of_inl ?_ (Nat.lt_of_lt_of_le hik hkj) hlt
  have ht := ht.of_gap (gap_gap text i).symm
  exact bind_ok.mpr ⟨true, k, eat_of_token ha ht, bind_ok.mpr ⟨w, j, hw, rfl⟩⟩

/-- Where the second token stands, it does too, once the first one has been looked for. -/
theorem iterate_link_second (ha : a.toByteArray.data.toList = [c.toUInt8])
    (hb : b.toByteArray.data.toList = [d.toUInt8]) (hne : d.toUInt8 ≠ c.toUInt8)
    (ht : Token text d i k) (hw : operand text k = .ok w j) (hkj : k ≤ j) :
    iterate (link a b f g operand) v text (gap text i) =
      iterate (link a b f g operand) (g v w) text j := by
  obtain ⟨-, hik, hlt⟩ := ht.lt
  refine iterate_of_inl ?_ (Nat.lt_of_lt_of_le hik hkj) hlt
  have hfirst : eat a text (gap text i) = .ok false (gap text i) := by
    rw [eat_eq ha, gap_gap, if_neg]
    rw [ht.byte]
    exact fun h => hne (Option.some.inj h)
  refine bind_ok.mpr ⟨false, _, hfirst, bind_ok.mpr ⟨true, k, ?_, bind_ok.mpr ⟨w, j, hw, rfl⟩⟩⟩
  exact eat_of_token hb (ht.of_gap (gap_gap text i).symm)

/-- Where neither token stands, the chain is over. -/
theorem iterate_stop (ha : a.toByteArray.data.toList = [c.toUInt8])
    (hb : b.toByteArray.data.toList = [d.toUInt8]) (hc : text[gap text i]? ≠ some c.toUInt8)
    (hd : text[gap text i]? ≠ some d.toUInt8) :
    iterate (link a b f g operand) v text (gap text i) = .ok v (gap text i) := by
  have hfirst : eat a text (gap text i) = .ok false (gap text i) := by
    rw [eat_eq ha, gap_gap, if_neg hc]
  have hsecond : eat b text (gap text i) = .ok false (gap text i) := by
    rw [eat_eq hb, gap_gap, if_neg hd]
  exact iterate_of_inr (bind_ok.mpr ⟨false, _, hfirst, bind_ok.mpr ⟨false, _, hsecond, rfl⟩⟩)

end Chain

/-! ### Arguments -/

section Arguments

/-- One more argument, and the token after it. -/
def round (expr : Reader α) (args : List α) : Reader (List α ⊕ List α) := do
  let args := (← expr) :: args
  if ← eat ")" then return .inr args.reverse
  expect ","
  return .inl args

/-- Arguments are a loop over rounds, unless the parenthesis closes at once. -/
theorem arguments_eq [Scalar α] (expr : Reader α) :
    arguments expr = (do
      if ← eat ")" then return []
      iterate (round expr) []) := rfl

variable {expr : Reader α} {args : List α}

/-- An argument has been read, and the token after it tells whether it was the last. -/
theorem round_ok {r : List α ⊕ List α} (h : round expr args text i = .ok r j) :
    ∃ v k, expr text i = .ok v k ∧
      ((Token text ')' k j ∧ r = .inr (v :: args).reverse) ∨
        (Token text ',' k j ∧ r = .inl (v :: args))) := by
  obtain ⟨v, k, hv, h⟩ := bind_ok.mp h
  refine ⟨v, k, hv, ?_⟩
  obtain ⟨taken, l, htaken, h⟩ := bind_ok.mp h
  rcases eat_ok (c := ')') rfl htaken with ⟨rfl, ht⟩ | ⟨rfl, rfl, -⟩
  · cases h
    exact Or.inl ⟨ht, rfl⟩
  · obtain ⟨_, l, hcomma, h⟩ := bind_ok.mp h
    cases h
    exact Or.inr ⟨(expect_ok (c := ',') rfl hcomma).of_gap (gap_gap text k), rfl⟩

/-- A closing parenthesis ends the arguments. -/
theorem round_last (hv : expr text i = .ok v k) (ht : Token text ')' k j) :
    round expr args text i = .ok (.inr (v :: args).reverse) j :=
  bind_ok.mpr ⟨v, k, hv, bind_ok.mpr ⟨true, j, eat_of_token rfl ht, rfl⟩⟩

/-- A comma asks for another one. -/
theorem round_more (hv : expr text i = .ok v k) (ht : Token text ',' k j) :
    round expr args text i = .ok (.inl (v :: args)) j := by
  refine bind_ok.mpr ⟨v, k, hv, bind_ok.mpr ⟨false, gap text k, ?_, ?_⟩⟩
  · refine eat_of_ne (c := ')') rfl ?_
    rw [ht.byte]
    decide
  · exact bind_ok.mpr ⟨(), j, expect_of_token rfl (ht.of_gap (gap_gap text k).symm), rfl⟩

end Arguments

/-! ### Primaries and powers -/

section Primary

variable [Scalar α] {scope : Scope α} {expr : Reader α} {x f : String} {n : Numeral} {c : UInt8}
  {args : List α}

/-- An identifier is as long as bytes of names go on. -/
theorem identifier_eq (hi : (text[gap text i]?).any isNameStart) :
    identifier text i = .ok
      (textBetween text (gap text i) (runEnd isNamePart text (gap text i)))
      (runEnd isNamePart text (gap text i)) := by
  unfold identifier
  change (if (text[gap text i]?).any isNameStart then _ else _ : Reader String) text
    (gap text i) = _
  rw [if_pos hi]
  rfl

theorem isNameStart_isNamePart {c : UInt8} (h : isNameStart c) : isNamePart c := by
  rw [isNamePart, h, Bool.true_or]

/-- An identifier that has been read is a name, as it is not empty. -/
theorem identifier_ok (hi : (text[gap text i]?).any isNameStart)
    (h : identifier text i = .ok x j) : NameAt text (gap text i) j x := by
  rw [identifier_eq hi] at h
  cases h
  obtain ⟨hrun, hend⟩ := runEnd_spec isNamePart text (gap text i)
  refine ⟨hi, hrun, Nat.lt_of_le_of_ne hrun.1 fun heq => hend ?_, rfl⟩
  obtain ⟨c, hc, hstart⟩ := (Option.any_eq_true _ _).mp hi
  rw [← heq]
  exact (Option.any_eq_true _ _).mpr ⟨c, hc, isNameStart_isNamePart hstart⟩

/-- A name is read to its end. -/
theorem identifier_of_nameAt (h : NameAt text (gap text i) j x) (hj : Ends text j) :
    identifier text i = .ok x j := by
  rw [identifier_eq h.start, runEnd_eq h.part (hj.not_any fun _ hc => hc), h.value]

/-- The ways to read a primary. -/
inductive PrimaryTaken (scope : Scope α) (expr : Reader α) (text : ByteArray) (i j : Nat) (v : α) :
    Prop where
  | paren (k l : Nat) (hopen : Token text '(' i k) (hv : expr text k = .ok v l)
      (hclose : Token text ')' l j)
  | number (n : Numeral) (hn : numeral text (gap text i) = .ok n j)
      (hv : v = Scalar.ofDecimal n.digits n.exponent)
  | name (x : String) (k : Nat) (hx : NameAt text (gap text i) k x) (hv : scope.lookup x = .ok v)
      (hj : j = gap text k)
  | call (f : String) (k l : Nat) (args : List α) (hf : NameAt text (gap text i) k f)
      (hopen : Token text '(' k l) (hargs : arguments expr text l = .ok args j)
      (hv : scope.call f args = .ok v)

/-- The first byte after the blanks decides how a primary is read. -/
theorem primary_eq (hc : text[gap text i]? = some c) : primary scope expr text i =
    (if c == 40 then do
      let _ ← takeChar
      let v ← expr
      expect ")"
      return v
    else if isDigit c || c == 46 then number
    else if isNameStart c then do
      let name ← identifier
      if ← eat "(" then ofExcept (scope.call name (← arguments expr))
      else ofExcept (scope.lookup name)
    else fail .expectedExpression : Reader α) text (gap text i) := by
  have hpeek : peek text (gap text i) = .ok (some c) (gap text i) :=
    congrArg (EStateM.Result.ok · _) hc
  exact (bind_of_ok (x := skipBlanks) rfl).trans (bind_of_ok hpeek)

/-- At the end of the text there is none. -/
theorem primary_none (hi : text[gap text i]? = none) : primary scope expr text i =
    .error ⟨.expectedExpression, Position.of text (gap text i)⟩ (gap text i) := by
  have hpeek : peek text (gap text i) = .ok none (gap text i) :=
    congrArg (EStateM.Result.ok · _) hi
  exact (bind_of_ok (x := skipBlanks) rfl).trans (bind_of_ok hpeek)

/-- Blanks before a primary do not count. -/
theorem primary_gap : primary scope expr text (gap text i) = primary scope expr text i := by
  cases hc : text[gap text i]? with
  | none => rw [primary_none (i := gap text i) (by rwa [gap_gap]), primary_none hc, gap_gap]
  | some c => rw [primary_eq (i := gap text i) (by rwa [gap_gap]), primary_eq hc, gap_gap]

omit [Scalar α] in
theorem ofExcept_ok {e : Except Fault α} (h : ofExcept e text i = .ok v j) : e = .ok v ∧ i = j := by
  cases e with
  | ok w =>
      cases h
      exact ⟨rfl, rfl⟩
  | error _ => cases h

omit [Scalar α] in
theorem ofExcept_eq {e : Except Fault α} (h : e = .ok v) : ofExcept e text i = .ok v i := by
  rw [h]
  rfl

/-- A primary has been read in one of these ways. -/
theorem primary_ok (h : primary scope expr text i = .ok v j) :
    PrimaryTaken scope expr text i j v := by
  cases hc : text[gap text i]? with
  | none =>
      rw [primary_none hc] at h
      cases h
  | some c =>
      rw [primary_eq hc] at h
      split at h
      · rename_i hparen
        obtain ⟨_, k, hopen, h⟩ := bind_ok.mp h
        obtain ⟨w, l, hv, h⟩ := bind_ok.mp h
        obtain ⟨_, _, hclose, h⟩ := bind_ok.mp h
        cases h
        have hk : k = gap text i + 1 := by
          unfold takeChar at hopen
          rw [hc] at hopen
          cases hopen
          rfl
        exact .paren k l ⟨by rw [hc, beq_iff_eq.mp hparen]; rfl, hk⟩ hv (expect_ok rfl hclose)
      split at h
      · obtain ⟨n, _, hn, h⟩ := bind_ok.mp h
        cases h
        exact .number n hn rfl
      split at h
      · rename_i hstart
        obtain ⟨x, k, hx, h⟩ := bind_ok.mp h
        have hx := identifier_ok (by rwa [gap_gap, hc]) hx
        rw [gap_gap] at hx
        obtain ⟨taken, l, htaken, h⟩ := bind_ok.mp h
        rcases eat_ok (c := '(') rfl htaken with ⟨rfl, ht⟩ | ⟨rfl, rfl, -⟩
        · obtain ⟨args, _, hargs, h⟩ := bind_ok.mp h
          obtain ⟨hv, rfl⟩ := ofExcept_ok h
          exact .call x k l args hx ht hargs hv
        · obtain ⟨hv, rfl⟩ := ofExcept_ok h
          exact .name x k hx hv rfl
      · cases h

/-- An expression in parentheses is read. -/
theorem primary_of_paren (hopen : Token text '(' i k) (hv : expr text k = .ok v l)
    (hclose : Token text ')' l j) : primary scope expr text i = .ok v j := by
  rw [primary_eq hopen.byte, if_pos (by decide)]
  refine bind_ok.mpr ⟨some '('.toUInt8, k, ?_, bind_ok.mpr ⟨v, l, hv, ?_⟩⟩
  · unfold takeChar
    rw [hopen.byte, hopen.stop]
  · exact bind_ok.mpr ⟨(), j, expect_of_token rfl hclose, rfl⟩

/-- A digit or a point begins a number. -/
theorem primary_of_number (hc : text[gap text i]? = some c) (hdigit : isDigit c || c == 46)
    (hn : numeral text (gap text i) = .ok n j) :
    primary scope expr text i = .ok (Scalar.ofDecimal n.digits n.exponent) j := by
  have hne : (c == 40) = false := by
    rw [beq_eq_false_iff_ne]
    rintro rfl
    exact absurd hdigit (by decide)
  rw [primary_eq hc, hne, if_neg Bool.false_ne_true, if_pos hdigit]
  exact bind_ok.mpr ⟨n, j, hn, rfl⟩

/-- The byte that a name begins with begins nothing else. -/
theorem isNameStart_only (hc : isNameStart c) :
    (c == 40) = false ∧ (isDigit c || c == 46) = false := by
  grind [isNameStart, isDigit]

/-- A name has been read; the token after it tells whether it is called or looked up. -/
theorem primary_of_nameAt (hx : NameAt text (gap text i) k x) (hk : Ends text k) :
    primary scope expr text i = (do
      if ← eat "(" then ofExcept (scope.call x (← arguments expr))
      else ofExcept (scope.lookup x) : Reader α) text k := by
  obtain ⟨c, hc, hstart⟩ := (Option.any_eq_true _ _).mp hx.start
  obtain ⟨hparen, hnumber⟩ := isNameStart_only hstart
  rw [primary_eq hc, hparen, hnumber, if_neg Bool.false_ne_true, if_neg Bool.false_ne_true,
    if_pos hstart]
  exact bind_of_ok (x := identifier) (identifier_of_nameAt (by rwa [gap_gap]) hk)

theorem primary_of_name (hx : NameAt text (gap text i) k x) (hk : Ends text k)
    (hne : text[gap text k]? ≠ some '('.toUInt8) (hv : scope.lookup x = .ok v) :
    primary scope expr text i = .ok v (gap text k) := by
  rw [primary_of_nameAt hx hk]
  exact bind_ok.mpr ⟨false, gap text k, eat_of_ne rfl hne, ofExcept_eq hv⟩

theorem primary_of_call (hf : NameAt text (gap text i) k f) (hk : Ends text k)
    (hopen : Token text '(' k l) (hargs : arguments expr text l = .ok args j)
    (hv : scope.call f args = .ok v) : primary scope expr text i = .ok v j := by
  rw [primary_of_nameAt hf hk]
  exact bind_ok.mpr
    ⟨true, l, eat_of_token rfl hopen, bind_ok.mpr ⟨args, j, hargs, ofExcept_eq hv⟩⟩

/-- The ways to read a signed power. -/
inductive UnaryTaken (scope : Scope α) (room : Nat) (text : ByteArray) (i j : Nat) (v : α) :
    Prop where
  | neg (k : Nat) (w : α) (hop : Token text '-' i k) (hw : unary scope room text k = .ok w j)
      (hv : v = -w)
  | pos (k : Nat) (hop : Token text '+' i k) (hw : unary scope room text k = .ok v j)
  | base (k : Nat) (hv : primary scope (sumOf (productOf (unary scope room))) text i = .ok v k)
      (hj : j = gap text k)
  | pow (k l : Nat) (b e : α)
      (hb : primary scope (sumOf (productOf (unary scope room))) text i = .ok b k)
      (hop : Token text '^' k l) (he : unary scope room text l = .ok e j) (hv : v = Scalar.pow b e)

variable {room : Nat}

/-- A signed power has been read in one of these ways. -/
theorem unary_ok (h : unary scope (room + 1) text i = .ok v j) :
    UnaryTaken scope room text i j v := by
  obtain ⟨taken, k, htaken, h⟩ := bind_ok.mp h
  rcases eat_ok (c := '-') rfl htaken with ⟨rfl, ht⟩ | ⟨rfl, rfl, -⟩
  · obtain ⟨w, _, hw, h⟩ := bind_ok.mp h
    cases h
    exact .neg k w ht hw rfl
  obtain ⟨taken, k, htaken, h⟩ := bind_ok.mp h
  rcases eat_ok (c := '+') rfl htaken with ⟨rfl, ht⟩ | ⟨rfl, rfl, -⟩
  · exact .pos k (ht.of_gap (gap_gap text i)) h
  obtain ⟨b, k, hb, h⟩ := bind_ok.mp h
  rw [gap_gap, primary_gap] at hb
  obtain ⟨taken, l, htaken, h⟩ := bind_ok.mp h
  rcases eat_ok (c := '^') rfl htaken with ⟨rfl, ht⟩ | ⟨rfl, rfl, -⟩
  · obtain ⟨e, _, he, h⟩ := bind_ok.mp h
    cases h
    exact .pow k l b e hb ht he rfl
  · cases h
    exact .base k hb rfl

theorem unary_of_neg (hop : Token text '-' i k) (hw : unary scope room text k = .ok w j) :
    unary scope (room + 1) text i = .ok (-w) j :=
  bind_ok.mpr ⟨true, k, eat_of_token rfl hop, bind_ok.mpr ⟨w, j, hw, rfl⟩⟩

theorem unary_of_pos (hop : Token text '+' i k) (hw : unary scope room text k = .ok w j) :
    unary scope (room + 1) text i = .ok w j := by
  refine bind_ok.mpr ⟨false, gap text i, eat_of_ne (c := '-') rfl ?_, ?_⟩
  · rw [hop.byte]
    decide
  · exact bind_ok.mpr ⟨true, k, eat_of_token rfl (hop.of_gap (gap_gap text i).symm), hw⟩

/-- Without a sign, what comes first is a primary. -/
theorem unary_of_primary (hminus : text[gap text i]? ≠ some '-'.toUInt8)
    (hplus : text[gap text i]? ≠ some '+'.toUInt8) {b : α}
    (hb : primary scope (sumOf (productOf (unary scope room))) text i = .ok b k) :
    unary scope (room + 1) text i = (do
      if ← eat "^" then return Scalar.pow b (← unary scope room)
      else return b : Reader α) text k := by
  have hfirst : eat "-" text i = .ok false (gap text i) := eat_of_ne (c := '-') rfl hminus
  -- The tests for signs have taken the blanks, so the second test and the primary begin after them.
  have hsecond : eat "+" text (gap text i) = .ok false (gap text i) := by
    rw [eat_of_ne (c := '+') rfl (by rwa [gap_gap]), gap_gap]
  refine (bind_of_ok (x := eat "-") hfirst).trans ((bind_of_ok (x := eat "+") hsecond).trans ?_)
  exact bind_of_ok (primary_gap.trans hb)

/-- A primary without a sign or an exponent is read as it is. -/
theorem unary_of_base (hminus : text[gap text i]? ≠ some '-'.toUInt8)
    (hplus : text[gap text i]? ≠ some '+'.toUInt8)
    (hb : primary scope (sumOf (productOf (unary scope room))) text i = .ok v k)
    (hk : text[gap text k]? ≠ some '^'.toUInt8) :
    unary scope (room + 1) text i = .ok v (gap text k) := by
  rw [unary_of_primary hminus hplus hb]
  exact bind_ok.mpr ⟨false, gap text k, eat_of_ne rfl hk, rfl⟩

/-- A primary with an exponent is raised to it. -/
theorem unary_of_pow (hminus : text[gap text i]? ≠ some '-'.toUInt8)
    (hplus : text[gap text i]? ≠ some '+'.toUInt8)
    (hb : primary scope (sumOf (productOf (unary scope room))) text i = .ok v k)
    (hop : Token text '^' k l) (he : unary scope room text l = .ok w j) :
    unary scope (room + 1) text i = .ok (Scalar.pow v w) j := by
  rw [unary_of_primary hminus hplus hb]
  exact bind_ok.mpr ⟨true, l, eat_of_token rfl hop, bind_ok.mpr ⟨w, j, he, rfl⟩⟩

end Primary

end Mosaic.Expression
