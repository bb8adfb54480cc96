import Mosaic.Proofs.Expression.Parser

/-!
# Expression — what is read is spelled

Whatever the parser answers is the value of a derivation tree that is spelled where it has read
(`Reads`).  The parts of the parser are followed one by one, each for operands of which this is
known; the nesting of signed powers is an induction (`unary_reads`).
-/

namespace Mosaic.Expression

open Reader

variable {α : Type} [Scalar α] {scope : Scope α} {room : Nat} {text : ByteArray}
  {i j k l : Nat} {v w : α}

/-- From `i` a part of an expression has been read with value `v`, at most `room` deep; blanks
between its end and `j` may be left, or have been skipped. -/
def Reads (scope : Scope α) (room : Nat) (text : ByteArray) (c : Category) (i j : Nat)
    (v : c.Value α) : Prop :=
  ∃ (t : Tree c) (k : Nat), t.Spells text i k ∧ gap text j = gap text k ∧ t.depth ≤ room ∧
    t.value scope = some v

namespace Reads

variable {c d e : Category} {x : c.Value α} {y : d.Value α}

/-- Blanks after what has been read do not count. -/
theorem of_gap (h : Reads scope room text c i j x) (hk : gap text k = gap text j) :
    Reads scope room text c i k x := by
  obtain ⟨t, l, ht, hl, hdepth, hvalue⟩ := h
  exact ⟨t, l, ht, hk.trans hl, hdepth, hvalue⟩

/-- Nor do blanks before it. -/
theorem of_start (h : Reads scope room text c i j x) (hk : gap text i = gap text k) :
    Reads scope room text c k j x := by
  obtain ⟨t, l, ht, hl, hdepth, hvalue⟩ := h
  exact ⟨t, l, ht.of_gap hk, hl, hdepth, hvalue⟩

/-- Two parts with a token between them. -/
theorem join {op : Char} (node : Tree c → Tree d → Tree e) {f : c.Value α → d.Value α → e.Value α}
    (hspells : ∀ {s t i j k l}, s.Spells text i k → Token text op k l → t.Spells text l j →
      (node s t).Spells text i j)
    (hdepth : ∀ s t, (node s t).depth = max s.depth t.depth)
    (hvalue : ∀ s t, (node s t).value scope = do return f (← s.value scope) (← t.value scope))
    (hx : Reads scope room text c i j x) (hop : Token text op j k)
    (hy : Reads scope room text d k l y) : Reads scope room text e i l (f x y) := by
  obtain ⟨s, m, hs, hm, hsdepth, hsvalue⟩ := hx
  obtain ⟨t, n, ht, hn, htdepth, htvalue⟩ := hy
  refine ⟨node s t, n, hspells hs (hop.of_gap hm) ht, hn, ?_, ?_⟩
  · rw [hdepth]
    exact Nat.max_le.mpr ⟨hsdepth, htdepth⟩
  · rw [hvalue, hsvalue, htvalue]
    rfl

theorem term (h : Reads scope room text .product i j v) : Reads scope room text .sum i j v := by
  obtain ⟨t, k, ht, hk, hdepth, hvalue⟩ := h
  exact ⟨.term t, k, .term ht, hk, hdepth, hvalue⟩

theorem factor (h : Reads scope room text .unary i j v) : Reads scope room text .product i j v := by
  obtain ⟨t, k, ht, hk, hdepth, hvalue⟩ := h
  exact ⟨.factor t, k, .factor ht, hk, hdepth, hvalue⟩

theorem one (h : Reads scope room text .sum i j v) : Reads scope room text .list i j [v] := by
  obtain ⟨t, k, ht, hk, hdepth, hvalue⟩ := h
  exact ⟨.one t, k, .one ht, hk, hdepth, Tree.unary_eq_some.mpr ⟨v, hvalue, rfl⟩⟩

/-- A sign takes one from the room for nesting. -/
theorem neg (hop : Token text '-' i k) (h : Reads scope room text .unary k j v) :
    Reads scope (room + 1) text .unary i j (-v) := by
  obtain ⟨t, l, ht, hl, hdepth, hvalue⟩ := h
  exact ⟨.neg t, l, .neg hop ht, hl, Nat.succ_le_succ hdepth,
    Tree.unary_eq_some.mpr ⟨v, hvalue, rfl⟩⟩

theorem pos (hop : Token text '+' i k) (h : Reads scope room text .unary k j v) :
    Reads scope (room + 1) text .unary i j v := by
  obtain ⟨t, l, ht, hl, hdepth, hvalue⟩ := h
  exact ⟨.pos t, l, .pos hop ht, hl, Nat.succ_le_succ hdepth, hvalue⟩

/-- A primary is a signed power without a sign, which counts for the nesting all the same. -/
theorem base (h : Reads scope room text .primary i j v) :
    Reads scope (room + 1) text .unary i j v := by
  obtain ⟨t, l, ht, hl, hdepth, hvalue⟩ := h
  exact ⟨.base t, l, .base ht, hl, Nat.succ_le_succ hdepth, hvalue⟩

/-- An exponent is nested in its power. -/
theorem pow (hv : Reads scope room text .primary i j v) (hop : Token text '^' j k)
    (hw : Reads scope room text .unary k l w) :
    Reads scope (room + 1) text .unary i l (Scalar.pow v w) := by
  obtain ⟨s, m, hs, hm, hsdepth, hsvalue⟩ := hv
  obtain ⟨t, n, ht, hn, htdepth, htvalue⟩ := hw
  exact ⟨.pow s t, n, .pow hs (hop.of_gap hm) ht, hn,
    Nat.succ_le_succ (Nat.max_le.mpr ⟨hsdepth, htdepth⟩),
    Tree.binary_eq_some.mpr ⟨v, w, hsvalue, htvalue, rfl⟩⟩

end Reads

/-- Sums are read if terms are: every operand adds a node at the root of the tree. -/
theorem sumOf_reads {term : Reader α}
    (hterm : ∀ i v j, term text i = .ok v j → Reads scope room text .product i j v)
    (h : sumOf term text i = .ok v j) : Reads scope room text .sum i j v := by
  rw [sumOf_eq] at h
  obtain ⟨k, hk, rfl⟩ := chain_ok (c := '+') (d := '-') rfl rfl
    (P := fun v j => Reads scope room text .sum i j v)
    (fun _ _ hv => .term (hterm _ _ _ hv))
    (fun _ _ _ _ _ hv hop hw =>
      .join Tree.add .add (fun _ _ => rfl) (fun _ _ => rfl) hv hop (hterm _ _ _ hw))
    (fun _ _ _ _ _ hv hop hw =>
      .join Tree.sub .sub (fun _ _ => rfl) (fun _ _ => rfl) hv hop (hterm _ _ _ hw)) h
  exact hk.of_gap (gap_gap text k)

/-- Products are read if factors are. -/
theorem productOf_reads {factor : Reader α}
    (hfactor : ∀ i v j, factor text i = .ok v j → Reads scope room text .unary i j v)
    (h : productOf factor text i = .ok v j) : Reads scope room text .product i j v := by
  rw [productOf_eq] at h
  obtain ⟨k, hk, rfl⟩ := chain_ok (c := '*') (d := '/') rfl rfl
    (P := fun v j => Reads scope room text .product i j v)
    (fun _ _ hv => .factor (hfactor _ _ _ hv))
    (fun _ _ _ _ _ hv hop hw =>
      .join Tree.mul .mul (fun _ _ => rfl) (fun _ _ => rfl) hv hop (hfactor _ _ _ hw))
    (fun _ _ _ _ _ hv hop hw =>
      .join Tree.div .div (fun _ _ => rfl) (fun _ _ => rfl) hv hop (hfactor _ _ _ hw)) h
  exact hk.of_gap (gap_gap text k)

/-- The arguments that have been read when the next one is due. -/
def ReadsSome (scope : Scope α) (room : Nat) (text : ByteArray) (i j : Nat) (args : List α) :
    Prop :=
  (args = [] ∧ j = i) ∨
    ∃ m, Reads scope room text .list i m args.reverse ∧ Token text ',' m j

/-- One more argument makes the list longer. -/
theorem ReadsSome.next {args : List α} (h : ReadsSome scope room text i j args)
    (hv : Reads scope room text .sum j k v) :
    Reads scope room text .list i k (v :: args).reverse := by
  rw [List.reverse_cons]
  rcases h with ⟨rfl, rfl⟩ | ⟨m, hargs, hcomma⟩
  · exact hv.one
  · exact .join Tree.more .more (fun _ _ => rfl) (fun _ _ => rfl) hargs hcomma hv

/-- Arguments that have been read are none, or a list with the parenthesis behind it. -/
theorem arguments_reads {expr : Reader α} {args : List α}
    (hexpr : ∀ i v j, expr text i = .ok v j → Reads scope room text .sum i j v)
    (h : arguments expr text i = .ok args j) :
    (args = [] ∧ Token text ')' i j) ∨
      ∃ m, Reads scope room text .list i m args ∧ Token text ')' m j := by
  rw [arguments_eq] at h
  obtain ⟨taken, k, htaken, h⟩ := bind_ok.mp h
  rcases eat_ok (c := ')') rfl htaken with ⟨rfl, ht⟩ | ⟨rfl, rfl, -⟩
  · cases h
    exact Or.inl ⟨rfl, ht⟩
  · have hround : ∀ args k r l, ReadsSome scope room text (gap text i) k args →
        round expr args text k = .ok (.inl r) l → ReadsSome scope room text (gap text i) l r := by
      intro args k r l hargs hround
      obtain ⟨v, m, hv, ⟨-, hr⟩ | ⟨hcomma, hr⟩⟩ := round_ok hround
      · cases hr
      · cases hr
        exact Or.inr ⟨m, hargs.next (hexpr _ _ _ hv), hcomma⟩
    obtain ⟨args', k, hargs, hlast⟩ := iterate_ok (Or.inl ⟨rfl, rfl⟩) hround h
    obtain ⟨v, m, hv, ⟨hclose, hr⟩ | ⟨-, hr⟩⟩ := round_ok hlast
    · cases hr
      exact Or.inr ⟨m, (hargs.next (hexpr _ _ _ hv)).of_start (gap_gap text i), hclose⟩
    · cases hr

/-- A primary has been read if the expressions in it are. -/
theorem primary_reads {expr : Reader α}
    (hexpr : ∀ i v j, expr text i = .ok v j → Reads scope room text .sum i j v)
    (h : primary scope expr text i = .ok v j) : Reads scope room text .primary i j v := by
  cases primary_ok h with
  | paren k l hopen hv hclose =>
      obtain ⟨t, m, ht, hm, hdepth, hvalue⟩ := hexpr _ _ _ hv
      exact ⟨.paren t, j, .paren hopen ht (hclose.of_gap hm), rfl, hdepth, hvalue⟩
  | number n hn hv =>
      exact ⟨.number n, j, .number (numeral_ok hn), rfl, Nat.zero_le _, by rw [hv]; rfl⟩
  | name x k hx hv hj =>
      refine ⟨.name x, k, .name hx, by rw [hj, gap_gap], Nat.zero_le _, ?_⟩
      rw [Tree.value, hv]
      rfl
  | call f k l args hf hopen hargs hv =>
      rcases arguments_reads hexpr hargs with ⟨rfl, hclose⟩ | ⟨m, hargs, hclose⟩
      · refine ⟨.call f, j, .call hf hopen hclose, rfl, Nat.zero_le _, ?_⟩
        rw [Tree.value, hv]
        rfl
      · obtain ⟨t, n, ht, hn, hdepth, hvalue⟩ := hargs
        refine ⟨.callWith f t, j, .callWith hf hopen ht (hclose.of_gap hn), rfl, hdepth, ?_⟩
        rw [Tree.value, hvalue]
        change (scope.call f args).toOption = some v
        rw [hv]
        rfl

/-- A signed power has been read, by induction on the room that is left for nesting. -/
theorem unary_reads (h : unary scope room text i = .ok v j) :
    Reads scope room text .unary i j v := by
  -- A primary may hold a sum again, but one whose signed powers have less room.
  induction room generalizing i v j with
  | zero => cases h
  | succ room ih =>
      have hprimary : ∀ {i v j}, primary scope (sumOf (productOf (unary scope room))) text i =
          .ok v j → Reads scope room text .primary i j v := fun hv =>
        primary_reads (fun _ _ _ => sumOf_reads fun _ _ _ => productOf_reads fun _ _ _ => ih) hv
      cases unary_ok h with
      | neg k w hop hw hv => exact hv ▸ .neg hop (ih hw)
      | pos k hop hw => exact .pos hop (ih hw)
      | base k hv hj => exact (hprimary hv).base.of_gap (by rw [hj, gap_gap])
      | pow k l b e hb hop he hv => exact hv ▸ .pow (hprimary hb) hop (ih he)

/-- An expression that has been read is spelled. -/
theorem sum_reads (h : sum scope text i = .ok v j) : Reads scope maxDepth text .sum i j v :=
  sumOf_reads (fun _ _ _ => productOf_reads fun _ _ _ => unary_reads) h

end Mosaic.Expression
