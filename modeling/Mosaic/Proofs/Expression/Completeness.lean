import Mosaic.Proofs.Expression.Soundness

/-!
# Expression — what is spelled is read

Where a derivation tree is spelled and nothing follows that could make it longer (`Follows`), the
parser answers the value of the tree.  The induction is over the tree.  A sum, a product or a list
is one round of a loop for each of its nodes, so what is shown of it is where the loop has got to
(`Answers`).  `sum_accepts_iff` puts both directions together.
-/

namespace Mosaic.Expression

open Reader

/-- The characters that may follow a part of an expression, after blanks. -/
def Category.followers : Category → List Char
  | .list | .sum => [')', ']', ',']
  | .product => ['+', '-', ')', ']', ',']
  | .unary => ['*', '/', '+', '-', ')', ']', ',']
  | .primary => ['^', '*', '/', '+', '-', ')', ']', ',']

/-- What comes next, after blanks, may follow a part of an expression, or nothing does. -/
def Follows (text : ByteArray) (c : Category) (j : Nat) : Prop :=
  ∀ b, text[gap text j]? = some b → b ∈ c.followers.map Char.toUInt8

section Follows

variable {text : ByteArray} {c d : Category} {j k : Nat} {a : Char}

namespace Follows

/-- A token that may not follow does not come next. -/
theorem ne (h : Follows text c j) (ha : a.toUInt8 ∉ c.followers.map Char.toUInt8) :
    text[gap text j]? ≠ some a.toUInt8 := fun hj => ha (h _ hj)

/-- What may follow one part of an expression may follow a smaller part of it. -/
theorem mono (h : Follows text c j) (hcd : c.followers ⊆ d.followers) : Follows text d j :=
  fun b hb => List.map_subset _ hcd (h b hb)

/-- A token that may follow does. -/
theorem of_token (ht : Token text a j k) (ha : a ∈ c.followers) : Follows text c j := by
  intro b hb
  rw [ht.byte] at hb
  cases hb
  exact List.mem_map_of_mem ha

/-- The end of the text may follow anything. -/
theorem of_size (hj : gap text j = text.size) : Follows text c j := by
  intro b hb
  rw [hj] at hb
  simp at hb

/-- Neither a name nor a number goes on there. -/
theorem ends (h : Follows text c j) : Ends text j := by
  refine ends_of_gap fun b hb => ?_
  obtain ⟨a, ha, rfl⟩ := List.mem_map.mp (h b hb)
  have hall : (c.followers.all fun a => !(isNamePart a.toUInt8 || a.toUInt8 == 46)) = true := by
    cases c <;> rfl
  exact (Bool.not_eq_true' _).mp (List.all_eq_true.mp hall a ha)

end Follows

end Follows

/-- A closing parenthesis ends a list of arguments that has none. -/
theorem arguments_of_close {α : Type} [Scalar α] {text : ByteArray} {i j : Nat} {expr : Reader α}
    (h : Token text ')' i j) : arguments expr text i = .ok [] j := by
  exact bind_ok.mpr ⟨true, j, eat_of_token rfl h, rfl⟩

/-- Anything else begins the first argument. -/
theorem arguments_of_ne {α : Type} [Scalar α] {text : ByteArray} {i j : Nat} {expr : Reader α}
    {args : List α} (hi : text[gap text i]? ≠ some ')'.toUInt8)
    (h : iterate (round expr) [] text (gap text i) = .ok args j) :
    arguments expr text i = .ok args j := by
  exact bind_ok.mpr ⟨false, gap text i, eat_of_ne rfl hi, h⟩

variable {α : Type} [Scalar α] {scope : Scope α} {room : Nat} {text : ByteArray}
  {i j k l : Nat} {v w : α}

/-- What the parser answers for a part of an expression that is spelled from `i` to `j`. -/
def Answers (scope : Scope α) (room : Nat) (text : ByteArray) (i j : Nat) :
    (c : Category) → c.Value α → Prop
  | .sum, v => Follows text .product j →
      sumOf (productOf (unary scope room)) text i =
        iterate (link "+" "-" (· + ·) (· - ·) (productOf (unary scope room))) v text (gap text j)
  | .product, v => Follows text .unary j →
      productOf (unary scope room) text i =
        iterate (link "*" "/" (· * ·) (· / ·) (unary scope room)) v text (gap text j)
  | .unary, v => Follows text .unary j → unary scope room text i = .ok v (gap text j)
  | .primary, v => Follows text .primary j → ∃ k, gap text k = gap text j ∧
      primary scope (sumOf (productOf (unary scope room))) text i = .ok v k
  | .list, args =>
      (∀ k, Token text ',' j k →
        iterate (round (sumOf (productOf (unary scope room)))) [] text i =
          iterate (round (sumOf (productOf (unary scope room)))) args.reverse text k) ∧
      (∀ k, Token text ')' j k →
        iterate (round (sumOf (productOf (unary scope room)))) [] text i = .ok args k)

namespace Answers

/-- A product that nothing makes longer is answered by the loop over its factors. -/
theorem product_ends (h : Answers scope room text i j .product v) (hj : Follows text .product j) :
    productOf (unary scope room) text i = .ok v (gap text j) := by
  rw [h (hj.mono (by decide))]
  exact iterate_stop (c := '*') (d := '/') rfl rfl (hj.ne (by decide)) (hj.ne (by decide))

/-- A sum that nothing makes longer is answered by the loop over its terms. -/
theorem sum_ends (h : Answers scope room text i j .sum v) (hj : Follows text .sum j) :
    sumOf (productOf (unary scope room)) text i = .ok v (gap text j) := by
  rw [h (hj.mono (by decide))]
  exact iterate_stop (c := '+') (d := '-') rfl rfl (hj.ne (by decide)) (hj.ne (by decide))

/-- A product is where the loop over terms begins. -/
theorem term (h : Answers scope room text i j .product v) : Answers scope room text i j .sum v := by
  intro hj
  rw [sumOf_eq]
  exact chain_eq (h.product_ends hj)

/-- A term that is added is one round of the loop over terms. -/
theorem add (hv : Answers scope room text i k .sum v) (hop : Token text '+' k l)
    (hw : Answers scope room text l j .product w) (hlj : l ≤ j) :
    Answers scope room text i j .sum (v + w) := fun hj =>
  (hv (.of_token hop (by decide))).trans
    (iterate_link_first rfl hop (hw.product_ends hj) (Nat.le_trans hlj (le_gap text j)))

/-- So is a term that is subtracted; its sign is the second one that the round looks for. -/
theorem sub (hv : Answers scope room text i k .sum v) (hop : Token text '-' k l)
    (hw : Answers scope room text l j .product w) (hlj : l ≤ j) :
    Answers scope room text i j .sum (v - w) := fun hj =>
  (hv (.of_token hop (by decide))).trans (iterate_link_second (c := '+') rfl rfl (by decide) hop
    (hw.product_ends hj) (Nat.le_trans hlj (le_gap text j)))

/-- A signed power is where the loop over factors begins. -/
theorem factor (h : Answers scope room text i j .unary v) :
    Answers scope room text i j .product v := by
  intro hj
  rw [productOf_eq]
  exact chain_eq (h hj)

/-- A factor is one round of the loop over factors. -/
theorem mul (hv : Answers scope room text i k .product v) (hop : Token text '*' k l)
    (hw : Answers scope room text l j .unary w) (hlj : l ≤ j) :
    Answers scope room text i j .product (v * w) := fun hj =>
  (hv (.of_token hop (by decide))).trans
    (iterate_link_first rfl hop (hw hj) (Nat.le_trans hlj (le_gap text j)))

/-- So is a divisor, whose sign comes second. -/
theorem div (hv : Answers scope room text i k .product v) (hop : Token text '/' k l)
    (hw : Answers scope room text l j .unary w) (hlj : l ≤ j) :
    Answers scope room text i j .product (v / w) := fun hj =>
  (hv (.of_token hop (by decide))).trans (iterate_link_second (c := '*') rfl rfl (by decide) hop
    (hw hj) (Nat.le_trans hlj (le_gap text j)))

theorem neg (hop : Token text '-' i k) (h : Answers scope room text k j .unary v) :
    Answers scope (room + 1) text i j .unary (-v) :=
  fun hj => unary_of_neg hop (h hj)

theorem pos (hop : Token text '+' i k) (h : Answers scope room text k j .unary v) :
    Answers scope (room + 1) text i j .unary v :=
  fun hj => unary_of_pos hop (h hj)

/-- A primary without an exponent is a signed power. -/
theorem base (hi : Opens text i) (h : Answers scope room text i j .primary v) :
    Answers scope (room + 1) text i j .unary v := by
  intro hj
  obtain ⟨k, hk, hv⟩ := h (hj.mono (by decide))
  rw [← hk]
  exact unary_of_base (hi.ne (by decide)) (hi.ne (by decide)) hv (hk ▸ hj.ne (by decide))

/-- The exponent is a signed power itself, so powers group to the right. -/
theorem pow (hi : Opens text i) (hv : Answers scope room text i k .primary v)
    (hop : Token text '^' k l) (hw : Answers scope room text l j .unary w) :
    Answers scope (room + 1) text i j .unary (Scalar.pow v w) := by
  intro hj
  obtain ⟨m, hm, hv⟩ := hv (.of_token hop (by decide))
  exact unary_of_pow (hi.ne (by decide)) (hi.ne (by decide)) hv (hop.of_gap hm.symm) (hw hj)

theorem paren (hopen : Token text '(' i k) (h : Answers scope room text k l .sum v)
    (hclose : Token text ')' l j) : Answers scope room text i j .primary v := fun _ =>
  ⟨j, rfl, primary_of_paren hopen (h.sum_ends (.of_token hclose (by decide)))
    (hclose.of_gap (gap_gap text l).symm)⟩

/-- A number goes on as long as it can, so what follows must not belong to it. -/
theorem number {n : Numeral} (hn : NumberAt text (gap text i) j n) :
    Answers scope room text i j .primary (Scalar.ofDecimal n.digits n.exponent) := by
  intro hj
  obtain ⟨c, hc, hdigit⟩ := (Option.any_eq_true _ _).mp hn.head
  exact ⟨j, rfl, primary_of_number hc hdigit (numeral_of_numberAt hn hj.ends)⟩

/-- A name that no parenthesis follows is looked up. -/
theorem name {x : String} (hx : NameAt text (gap text i) j x) (hv : scope.lookup x = .ok v) :
    Answers scope room text i j .primary v := fun hj =>
  ⟨gap text j, gap_gap text j, primary_of_name hx hj.ends (hj.ne (by decide)) hv⟩

theorem call {f : String} (hf : NameAt text (gap text i) k f) (hopen : Token text '(' k l)
    (hclose : Token text ')' l j) (hv : scope.call f [] = .ok v) :
    Answers scope room text i j .primary v := fun _ =>
  ⟨j, rfl, primary_of_call hf (hopen.ends (by decide)) hopen (arguments_of_close hclose) hv⟩

/-- The list of arguments ends where the parenthesis closes, so the call answers right there. -/
theorem callWith {f : String} {m : Nat} {args : List α} (hf : NameAt text (gap text i) k f)
    (hopen : Token text '(' k l) (hl : text[gap text l]? ≠ some ')'.toUInt8)
    (h : Answers scope room text (gap text l) m .list args) (hclose : Token text ')' m j)
    (hv : scope.call f args = .ok v) : Answers scope room text i j .primary v := fun _ =>
  ⟨j, rfl, primary_of_call hf (hopen.ends (by decide)) hopen (arguments_of_ne hl (h.2 j hclose)) hv⟩

/-- The first argument is the first round of the loop over arguments. -/
theorem one (h : Answers scope room text i j .sum v) (hij : i < j) :
    Answers scope room text i j .list [v] := by
  refine ⟨fun k hk => ?_, fun k hk => ?_⟩
  · have hv := h.sum_ends (.of_token hk (by decide))
    obtain ⟨hjk, -, hlt⟩ := hk.lt
    exact iterate_of_inl (round_more hv (hk.of_gap (gap_gap text j).symm))
      (Nat.lt_trans hij hjk) (Nat.lt_trans (Nat.lt_of_lt_of_le hij (le_gap text j)) hlt)
  · have hv := h.sum_ends (.of_token hk (by decide))
    exact iterate_of_inr (round_last hv (hk.of_gap (gap_gap text j).symm))

/-- Each further argument is one more round; arguments are collected in reverse. -/
theorem more {args : List α} (hargs : Answers scope room text i k .list args)
    (hop : Token text ',' k l) (h : Answers scope room text l j .sum v) (hlj : l < j) :
    Answers scope room text i j .list (args ++ [v]) := by
  refine ⟨fun m hm => ?_, fun m hm => ?_⟩
  · have hv := h.sum_ends (.of_token hm (by decide))
    obtain ⟨hjm, -, hlt⟩ := hm.lt
    rw [hargs.1 l hop, List.reverse_append]
    exact iterate_of_inl (round_more hv (hm.of_gap (gap_gap text j).symm))
      (Nat.lt_trans hlj hjm) (Nat.lt_trans (Nat.lt_of_lt_of_le hlj (le_gap text j)) hlt)
  · have hv := h.sum_ends (.of_token hm (by decide))
    rw [hargs.1 l hop]
    refine (iterate_of_inr (round_last hv (hm.of_gap (gap_gap text j).symm))).trans ?_
    rw [List.reverse_cons, List.reverse_reverse]

end Answers

omit [Scalar α] in
theorem ok_of_toOption {e : Except Fault α} (h : e.toOption = some v) : e = .ok v := by
  cases e with
  | ok w =>
      cases h
      rfl
  | error _ => cases h

/-- A tree that is spelled is what the parser reads. -/
theorem answers {c : Category} {t : Tree c} {x : c.Value α} (h : t.Spells text i j)
    (hdepth : t.depth ≤ room) (hx : t.value scope = some x) :
    Answers scope room text i j c x := by
  -- Only a signed power needs room of its own; every other part leaves what it has to its parts.
  induction t generalizing i j room with
  | term t ih =>
      cases h with
      | term ht => exact (ih ht hdepth hx).term
  | add s t ihs iht =>
      cases h with
      | add hs hop ht =>
          obtain ⟨v, w, hv, hw, rfl⟩ := Tree.binary_eq_some.mp hx
          obtain ⟨hsdepth, htdepth⟩ := Nat.max_le.mp hdepth
          exact (ihs hs hsdepth hv).add hop (iht ht htdepth hw) (Nat.le_of_lt ht.lt)
  | sub s t ihs iht =>
      cases h with
      | sub hs hop ht =>
          obtain ⟨v, w, hv, hw, rfl⟩ := Tree.binary_eq_some.mp hx
          obtain ⟨hsdepth, htdepth⟩ := Nat.max_le.mp hdepth
          exact (ihs hs hsdepth hv).sub hop (iht ht htdepth hw) (Nat.le_of_lt ht.lt)
  | factor t ih =>
      cases h with
      | factor ht => exact (ih ht hdepth hx).factor
  | mul s t ihs iht =>
      cases h with
      | mul hs hop ht =>
          obtain ⟨v, w, hv, hw, rfl⟩ := Tree.binary_eq_some.mp hx
          obtain ⟨hsdepth, htdepth⟩ := Nat.max_le.mp hdepth
          exact (ihs hs hsdepth hv).mul hop (iht ht htdepth hw) (Nat.le_of_lt ht.lt)
  | div s t ihs iht =>
      cases h with
      | div hs hop ht =>
          obtain ⟨v, w, hv, hw, rfl⟩ := Tree.binary_eq_some.mp hx
          obtain ⟨hsdepth, htdepth⟩ := Nat.max_le.mp hdepth
          exact (ihs hs hsdepth hv).div hop (iht ht htdepth hw) (Nat.le_of_lt ht.lt)
  | neg t ih =>
      cases h with
      | neg hop ht =>
          obtain ⟨v, hv, rfl⟩ := Tree.unary_eq_some.mp hx
          cases room with
          | zero => cases hdepth
          | succ room => exact .neg hop (ih ht (Nat.le_of_succ_le_succ hdepth) hv)
  | pos t ih =>
      cases h with
      | pos hop ht =>
          cases room with
          | zero => cases hdepth
          | succ room => exact .pos hop (ih ht (Nat.le_of_succ_le_succ hdepth) hx)
  | base t ih =>
      cases h with
      | base ht =>
          cases room with
          | zero => cases hdepth
          | succ room => exact .base ht.opens (ih ht (Nat.le_of_succ_le_succ hdepth) hx)
  | pow s t ihs iht =>
      cases h with
      | pow hs hop ht =>
          obtain ⟨v, w, hv, hw, rfl⟩ := Tree.binary_eq_some.mp hx
          cases room with
          | zero => cases hdepth
          | succ room =>
              obtain ⟨hsdepth, htdepth⟩ := Nat.max_le.mp (Nat.le_of_succ_le_succ hdepth)
              exact .pow hs.opens (ihs hs hsdepth hv) hop (iht ht htdepth hw)
  | paren t ih =>
      cases h with
      | paren hopen ht hclose => exact .paren hopen (ih ht hdepth hx) hclose
  | number n =>
      cases h with
      | number hn =>
          cases hx
          exact .number hn
  | name y =>
      cases h with
      | name hy => exact .name hy (ok_of_toOption hx)
  | call f =>
      cases h with
      | call hf hopen hclose => exact .call hf hopen hclose (ok_of_toOption hx)
  | callWith f args ih =>
      cases h with
      | callWith hf hopen hargs hclose =>
          obtain ⟨l, hl, hv⟩ := Option.bind_eq_some_iff.mp hx
          exact .callWith hf hopen (hargs.first_ne (by decide))
            (ih (hargs.of_gap (gap_gap text _).symm) hdepth hl) hclose (ok_of_toOption hv)
  | one t ih =>
      cases h with
      | one ht =>
          obtain ⟨v, hv, rfl⟩ := Tree.unary_eq_some.mp hx
          exact (ih ht hdepth hv).one ht.lt
  | more args t ihargs iht =>
      cases h with
      | more hargs hop ht =>
          obtain ⟨v, w, hv, hw, rfl⟩ := Tree.binary_eq_some.mp hx
          obtain ⟨hsdepth, htdepth⟩ := Nat.max_le.mp hdepth
          exact (ihargs hargs hsdepth hv).more hop (iht ht htdepth hw) ht.lt

/-- **The parser accepts the grammar.**  From `i` on, an expression with value `v` is read and only
blanks are left if and only if the rest of the text is spelled by a derivation tree, up to blanks,
which has at most 256 signed powers on a path and only known names, and has the value `v`. -/
theorem sum_accepts_iff (scope : Scope α) (text : ByteArray) (i : Nat) (v : α) :
    (∃ j, sum scope text i = .ok v j ∧ AllBytes isBlank text j text.size) ↔
      ∃ (t : Tree .sum) (j : Nat), t.Spells text i j ∧ AllBytes isBlank text j text.size ∧
        t.depth ≤ 256 ∧ t.Known scope ∧ t.value scope = some v := by
  constructor
  · rintro ⟨j, hv, hj⟩
    obtain ⟨t, k, ht, hk, hdepth, hvalue⟩ := sum_reads hv
    refine ⟨t, k, ht, ?_, hdepth, t.value_isSome.mp (Option.isSome_of_eq_some hvalue), hvalue⟩
    exact gap_eq_size_iff.mp (hk.symm.trans (gap_eq_size_iff.mpr hj))
  · rintro ⟨t, j, ht, hj, hdepth, -, hvalue⟩
    have hsize := gap_eq_size_iff.mpr hj
    refine ⟨gap text j, (answers ht hdepth hvalue).sum_ends (.of_size hsize), ?_⟩
    rw [hsize]
    exact .refl

end Mosaic.Expression
