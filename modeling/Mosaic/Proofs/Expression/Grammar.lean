import Mosaic.Expression.Scope
import Mosaic.Proofs.Expression.Numeral

/-!
# Expression — the grammar

Derivation trees of expressions, by the kind of part that they derive (`Category`).  Sums, products
and argument lists grow to the right, so their trees group to the left; a power has its exponent as
a tree below it, so powers group to the right.

* `Tree.Spells`: the text that a tree stands for.  Blanks may precede every token, and every part
  but a list begins with one.
* `Tree.depth`: how many signed powers lie on one path.
* `Tree.Known`, `Tree.value`: the names that occur have a meaning, and what it comes to.  A tree has
  a value if and only if its names are known (`Tree.value_isSome`).
-/

namespace Mosaic.Expression

/-- The kinds of parts of an expression. -/
inductive Category where
  | sum | product | unary | primary | list

/-- What a part of an expression comes to. -/
abbrev Category.Value (α : Type) : Category → Type
  | .list => List α
  | _ => α

/-- Derivations. -/
inductive Tree : Category → Type where
  | term (t : Tree .product) : Tree .sum
  | add (s : Tree .sum) (t : Tree .product) : Tree .sum
  | sub (s : Tree .sum) (t : Tree .product) : Tree .sum
  | factor (t : Tree .unary) : Tree .product
  | mul (s : Tree .product) (t : Tree .unary) : Tree .product
  | div (s : Tree .product) (t : Tree .unary) : Tree .product
  | neg (t : Tree .unary) : Tree .unary
  | pos (t : Tree .unary) : Tree .unary
  | base (t : Tree .primary) : Tree .unary
  | pow (s : Tree .primary) (t : Tree .unary) : Tree .unary
  | paren (t : Tree .sum) : Tree .primary
  | number (n : Numeral) : Tree .primary
  | name (x : String) : Tree .primary
  | call (f : String) : Tree .primary
  | callWith (f : String) (args : Tree .list) : Tree .primary
  | one (t : Tree .sum) : Tree .list
  | more (args : Tree .list) (t : Tree .sum) : Tree .list

/-- From `i` to `j` the name `x` is spelled. -/
structure NameAt (text : ByteArray) (i j : Nat) (x : String) : Prop where
  start : (text[i]?).any isNameStart
  part : AllBytes isNamePart text i j
  some_part : i < j
  value : x = textBetween text i j

/-- A primary begins with a parenthesis, a digit, a point or a letter. -/
def opening (c : UInt8) : Bool := c == 40 || isDigit c || c == 46 || isNameStart c

/-- A byte that begins a primary comes next, after blanks. -/
def Opens (text : ByteArray) (i : Nat) : Prop := (text[gap text i]?).any opening

/-- What begins a primary is none of the other tokens. -/
theorem Opens.ne {text : ByteArray} {i : Nat} {c : UInt8} (h : Opens text i)
    (hc : opening c = false) :
    text[gap text i]? ≠ some c := by
  intro hi
  rw [Opens, hi, Option.any_some, hc] at h
  cases h

namespace Tree

/-- From `i` to `j` the tree is spelled. -/
inductive Spells (text : ByteArray) : {c : Category} → Tree c → (i j : Nat) → Prop where
  | term {t i j} (ht : Spells text t i j) : Spells text (.term t) i j
  | add {s t i j k l} (hs : Spells text s i k) (hop : Token text '+' k l)
      (ht : Spells text t l j) : Spells text (.add s t) i j
  | sub {s t i j k l} (hs : Spells text s i k) (hop : Token text '-' k l)
      (ht : Spells text t l j) : Spells text (.sub s t) i j
  | factor {t i j} (ht : Spells text t i j) : Spells text (.factor t) i j
  | mul {s t i j k l} (hs : Spells text s i k) (hop : Token text '*' k l)
      (ht : Spells text t l j) : Spells text (.mul s t) i j
  | div {s t i j k l} (hs : Spells text s i k) (hop : Token text '/' k l)
      (ht : Spells text t l j) : Spells text (.div s t) i j
  | neg {t i j k} (hop : Token text '-' i k) (ht : Spells text t k j) : Spells text (.neg t) i j
  | pos {t i j k} (hop : Token text '+' i k) (ht : Spells text t k j) : Spells text (.pos t) i j
  | base {t i j} (ht : Spells text t i j) : Spells text (.base t) i j
  | pow {s t i j k l} (hs : Spells text s i k) (hop : Token text '^' k l)
      (ht : Spells text t l j) : Spells text (.pow s t) i j
  | paren {t i j k l} (hopen : Token text '(' i k) (ht : Spells text t k l)
      (hclose : Token text ')' l j) : Spells text (.paren t) i j
  | number {n i j} (hn : NumberAt text (gap text i) j n) : Spells text (.number n) i j
  | name {x i j} (hx : NameAt text (gap text i) j x) : Spells text (.name x) i j
  | call {f i j k l} (hf : NameAt text (gap text i) k f) (hopen : Token text '(' k l)
      (hclose : Token text ')' l j) : Spells text (.call f) i j
  | callWith {f args i j k l m} (hf : NameAt text (gap text i) k f) (hopen : Token text '(' k l)
      (hargs : Spells text args l m) (hclose : Token text ')' m j) :
      Spells text (.callWith f args) i j
  | one {t i j} (ht : Spells text t i j) : Spells text (.one t) i j
  | more {args t i j k l} (hargs : Spells text args i k) (hop : Token text ',' k l)
      (ht : Spells text t l j) : Spells text (.more args t) i j

namespace Spells

variable {text : ByteArray} {c : Category} {t : Tree c} {i j k : Nat}

/-- A tree stands for some text. -/
theorem lt (h : Spells text t i j) : i < j := by
  induction h with
  | term _ ih | factor _ ih | base _ ih | one _ ih => exact ih
  | add _ hop _ ihs iht | sub _ hop _ ihs iht | mul _ hop _ ihs iht | div _ hop _ ihs iht
  | pow _ hop _ ihs iht | more _ hop _ ihs iht => exact Nat.lt_trans ihs (Nat.lt_trans hop.lt.1 iht)
  | neg hop _ ih | pos hop _ ih => exact Nat.lt_trans hop.lt.1 ih
  | paren hopen _ hclose ih => exact Nat.lt_trans hopen.lt.1 (Nat.lt_trans ih hclose.lt.1)
  | number hn => exact Nat.lt_of_le_of_lt (le_gap text _) (hn.lt)
  | name hx => exact Nat.lt_of_le_of_lt (le_gap text _) hx.some_part
  | call hf hopen hclose =>
      exact Nat.lt_of_le_of_lt (le_gap text _)
        (Nat.lt_trans hf.some_part (Nat.lt_trans hopen.lt.1 hclose.lt.1))
  | callWith hf hopen _ hclose ih =>
      exact Nat.lt_of_le_of_lt (le_gap text _)
        (Nat.lt_trans hf.some_part
          (Nat.lt_trans hopen.lt.1 (Nat.lt_trans ih hclose.lt.1)))

/-- Blanks before the first token do not count. -/
theorem of_gap (h : Spells text t i j) (hk : gap text i = gap text k) : Spells text t k j := by
  induction h with
  | term _ ih => exact .term (ih hk)
  | add _ hop ht ih _ => exact .add (ih hk) hop ht
  | sub _ hop ht ih _ => exact .sub (ih hk) hop ht
  | factor _ ih => exact .factor (ih hk)
  | mul _ hop ht ih _ => exact .mul (ih hk) hop ht
  | div _ hop ht ih _ => exact .div (ih hk) hop ht
  | neg hop ht _ => exact .neg (hop.of_gap hk) ht
  | pos hop ht _ => exact .pos (hop.of_gap hk) ht
  | base _ ih => exact .base (ih hk)
  | pow _ hop ht ih _ => exact .pow (ih hk) hop ht
  | paren hopen ht hclose _ => exact .paren (hopen.of_gap hk) ht hclose
  | number hn => exact .number (hk ▸ hn)
  | name hx => exact .name (hk ▸ hx)
  | call hf hopen hclose => exact .call (hk ▸ hf) hopen hclose
  | callWith hf hopen hargs hclose _ => exact .callWith (hk ▸ hf) hopen hargs hclose
  | one _ ih => exact .one (ih hk)
  | more _ hop ht ih _ => exact .more (ih hk) hop ht

/-- The first byte of a primary. -/
theorem opens {t : Tree .primary} (h : Spells text t i j) : Opens text i := by
  cases h with
  | paren hopen _ _ =>
      rw [Opens, hopen.byte]
      rfl
  | number hn =>
      obtain ⟨c, hc, hhead⟩ := (Option.any_eq_true _ _).mp hn.head
      refine (Option.any_eq_true _ _).mpr ⟨c, hc, ?_⟩
      rw [opening, Bool.or_assoc (c == 40), hhead, Bool.or_true, Bool.true_or]
  | name hx | call hx _ _ | callWith hx _ _ _ =>
      obtain ⟨c, hc, hstart⟩ := (Option.any_eq_true _ _).mp hx.start
      exact (Option.any_eq_true _ _).mpr ⟨c, hc, by rw [opening, hstart, Bool.or_true]⟩

/-- An expression begins with a sign or with a byte that begins a primary. -/
theorem begins (h : Spells text t i j) :
    (text[gap text i]?).any fun c => c == 43 || c == 45 || opening c := by
  have hopens {t : Tree .primary} {i j : Nat} (h : Spells text t i j) :
      (text[gap text i]?).any fun c => c == 43 || c == 45 || opening c := by
    obtain ⟨c, hc, hopening⟩ := (Option.any_eq_true _ _).mp h.opens
    exact (Option.any_eq_true _ _).mpr ⟨c, hc, by rw [hopening, Bool.or_true]⟩
  induction h with
  | term _ ih | factor _ ih | one _ ih | base _ ih => exact ih
  | add _ _ _ ih _ | sub _ _ _ ih _ | mul _ _ _ ih _ | div _ _ _ ih _ | more _ _ _ ih _
  | pow _ _ _ ih _ => exact ih
  | neg hop _ _ | pos hop _ _ =>
      rw [hop.byte]
      rfl
  | paren hopen ht hclose _ => exact hopens (.paren hopen ht hclose)
  | number hn => exact hopens (.number hn)
  | name hx => exact hopens (.name hx)
  | call hf hopen hclose => exact hopens (.call hf hopen hclose)
  | callWith hf hopen hargs hclose _ => exact hopens (.callWith hf hopen hargs hclose)

/-- No expression begins with any other character. -/
theorem first_ne {a : Char} (h : Spells text t i j)
    (ha : (a.toUInt8 == 43 || a.toUInt8 == 45 || opening a.toUInt8) = false) :
    text[gap text i]? ≠ some a.toUInt8 := by
  intro hi
  have hbegins := h.begins
  rw [hi, Option.any_some, ha] at hbegins
  cases hbegins

end Spells

/-- The greatest number of signed powers on a path. -/
def depth : {c : Category} → Tree c → Nat
  | _, term t | _, factor t | _, paren t | _, one t => t.depth
  | _, add s t | _, sub s t => max s.depth t.depth
  | _, mul s t | _, div s t => max s.depth t.depth
  | _, neg t | _, pos t | _, base t => t.depth + 1
  | _, pow s t => max s.depth t.depth + 1
  | _, number _ | _, name _ | _, call _ => 0
  | _, callWith _ args => args.depth
  | _, more args t => max args.depth t.depth

/-- The number of arguments in a list. -/
def count : Tree .list → Nat
  | one _ => 1
  | more args _ => args.count + 1

end Tree

/-! ### Names -/

/-- The name is that of a variable or of a constant. -/
def Knows {α : Type} (scope : Scope α) (x : String) : Prop :=
  x ∈ scope.bindings ∨ x = "pi" ∨ x = "deg" ∨ x = "inf"

/-- The name is that of a function that takes `n` arguments. -/
def Takes (f : String) (n : Nat) : Prop :=
  ((Elementary.ofName? f).isSome ∧ n = 1) ∨ (f = "atan2" ∧ n = 2) ∨
    ((f = "min" ∨ f = "max") ∧ 1 ≤ n) ∨
    ((f = "ideal_edge" ∨ f = "ideal_angle") ∧ (n = 1 ∨ n = 2))

variable {α : Type} [Scalar α] {scope : Scope α}

/-- The constants. -/
theorem constant?_isSome {x : String} :
    (Scope.constant? x : Option α).isSome ↔ x = "pi" ∨ x = "deg" ∨ x = "inf" := by
  unfold Scope.constant?
  split <;> simp_all

/-- A name has a value if and only if it is known. -/
theorem lookup_isSome {x : String} : (scope.lookup x).toOption.isSome ↔ Knows scope x := by
  unfold Scope.lookup Knows
  rw [← @constant?_isSome α, ← Std.TreeMap.isSome_getElem?_iff_mem]
  cases h : scope.bindings[x]? with
  | some v => simp [Except.toOption]
  | none => cases h : (Scope.constant? x : Option α) <;> simp [Except.toOption]

/-- Elementary functions take one argument. -/
theorem takes_of_elementary {f : String} {g : Elementary} (h : Elementary.ofName? f = some g)
    (n : Nat) : Takes f n ↔ n = 1 := by
  have hne : ∀ x, Elementary.ofName? x = none → f ≠ x := by
    rintro x hx rfl
    rw [hx] at h
    cases h
  simp [Takes, h, hne "atan2" rfl, hne "min" rfl, hne "max" rfl, hne "ideal_edge" rfl,
    hne "ideal_angle" rfl]

/-- A function has a value if and only if it takes as many arguments as it is given. -/
theorem call_isSome {f : String} {args : List α} :
    (scope.call f args).toOption.isSome ↔ Takes f args.length := by
  cases h : Elementary.ofName? f with
  | some g =>
      rw [takes_of_elementary h]
      rcases args with _ | ⟨x, _ | ⟨y, args⟩⟩ <;> simp [Scope.call, h, Except.toOption]
  | none =>
      simp only [Scope.call, Takes, h, Option.isSome_none, Bool.false_eq_true, false_and, false_or]
      rcases args with _ | ⟨x, _ | ⟨y, _ | ⟨z, args⟩⟩⟩
      all_goals split <;> grind [Except.toOption]

namespace Tree

/-- Every name that occurs is known, and every function takes as many arguments as it is given. -/
def Known (scope : Scope α) : {c : Category} → Tree c → Prop
  | _, term t | _, factor t | _, paren t | _, one t => t.Known scope
  | _, neg t | _, pos t | _, base t => t.Known scope
  | _, add s t | _, sub s t => s.Known scope ∧ t.Known scope
  | _, mul s t | _, div s t => s.Known scope ∧ t.Known scope
  | _, pow s t => s.Known scope ∧ t.Known scope
  | _, number _ => True
  | _, name x => Knows scope x
  | _, call f => Takes f 0
  | _, callWith f args => args.Known scope ∧ Takes f args.count
  | _, more args t => args.Known scope ∧ t.Known scope

/-- What the tree comes to, if its names are known. -/
def value (scope : Scope α) : {c : Category} → Tree c → Option (c.Value α)
  | _, term t | _, factor t | _, paren t => t.value scope
  | _, add s t => return (← s.value scope) + (← t.value scope)
  | _, sub s t => return (← s.value scope) - (← t.value scope)
  | _, mul s t => return (← s.value scope) * (← t.value scope)
  | _, div s t => return (← s.value scope) / (← t.value scope)
  | _, neg t => return -(← t.value scope)
  | _, pos t | _, base t => t.value scope
  | _, pow s t => return Scalar.pow (← s.value scope) (← t.value scope)
  | _, number n => some (Scalar.ofDecimal n.digits n.exponent)
  | _, name x => (scope.lookup x).toOption
  | _, call f => (scope.call f []).toOption
  | _, callWith f args => do (scope.call f (← args.value scope)).toOption
  | _, one t => return [← t.value scope]
  | _, more args t => return (← args.value scope) ++ [← t.value scope]

theorem unary_eq_some {β δ : Type} {x : Option β} {f : β → δ} {d : δ} :
    (do return f (← x) : Option δ) = some d ↔ ∃ b, x = some b ∧ f b = d := by
  cases x <;> simp

theorem binary_eq_some {β γ δ : Type} {x : Option β} {y : Option γ} {f : β → γ → δ} {d : δ} :
    (do return f (← x) (← y) : Option δ) = some d ↔
      ∃ b c, x = some b ∧ y = some c ∧ f b c = d := by
  cases x <;> cases y <;> simp

/-- A list of arguments has as many values. -/
theorem length_value {args : Tree .list} {l : List α} (h : args.value scope = some l) :
    l.length = args.count := by
  match args, l, h with
  | one t, l, h =>
      obtain ⟨v, -, rfl⟩ := unary_eq_some.mp h
      rw [count]
      rfl
  | more args t, l, h =>
      obtain ⟨l', v, hl', -, rfl⟩ := binary_eq_some.mp h
      rw [count, List.length_append, length_value hl']
      rfl

theorem isSome_unary {β δ : Type} {x : Option β} {f : β → δ} :
    (do return f (← x) : Option δ).isSome ↔ x.isSome := by
  cases x <;> simp

theorem isSome_binary {β γ δ : Type} {x : Option β} {y : Option γ} {f : β → γ → δ} :
    (do return f (← x) (← y) : Option δ).isSome ↔ x.isSome ∧ y.isSome := by
  cases x <;> cases y <;> simp

/-- A tree has a value if and only if its names are known. -/
theorem value_isSome {c : Category} (t : Tree c) : (t.value scope).isSome ↔ t.Known scope := by
  induction t with
  | term t ih | factor t ih | paren t ih | pos t ih | base t ih => exact ih
  | add s t ihs iht | sub s t ihs iht | mul s t ihs iht | div s t ihs iht | pow s t ihs iht
  | more s t ihs iht => exact isSome_binary.trans (and_congr ihs iht)
  | neg t ih | one t ih => exact isSome_unary.trans ih
  | number n => exact iff_of_true rfl trivial
  | name x => exact lookup_isSome
  | call f => exact call_isSome
  | callWith f args ih =>
      rw [Known, ← ih, value]
      cases h : args.value scope with
      | none => simp
      | some l => simpa [← length_value h] using call_isSome

end Tree

end Mosaic.Expression
