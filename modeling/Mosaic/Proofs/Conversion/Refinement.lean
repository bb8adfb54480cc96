import Mathlib.Data.Finset.Prod
import Mosaic.Proofs.Conversion.Emission
import Mosaic.Proofs.Conversion.Minimisation
import Mosaic.Proofs.Scalar.Whole

/-!
# Conversion — the fixpoint of partition refinement

A table of pairs is refined by striking out pairs whose successors are not related.  Whether all of
them are struck out at once (`EqualTable.sweep`) or one by one, in any order (`EqualTable.scan`), a
pass loses pairs only, and none of a relation that is kept along successors (`EqualTable.Lowers`).
So passes that go on until one of them changes nothing all end with the same table, which relates
the numbers that are related at the outset and stay so for ever: the greatest relation kept along
successors (`EqualTable.mem_pairs_iff`).  A pass that changes something loses a pair, so there are
few of them.
-/

namespace Mosaic

namespace EqualTable

variable {k n : Nat} {next : Nat → Nat} {r : Nat → Nat → Bool} {p q : Nat × Nat}
  {t u v : EqualTable} {order : List (Nat × Nat)} {orders : Nat → List (Nat × Nat)}

/-- The pairs that are related. -/
def pairs (k : Nat) (t : EqualTable) : Finset (Nat × Nat) :=
  (Finset.range k ×ˢ Finset.range k).filter fun p => holds k t p.1 p.2

/-- The pair of the successors. -/
def onward (next : Nat → Nat) (p : Nat × Nat) : Nat × Nat := (next p.1, next p.2)

/-- Strikes out a pair that is related and whose successors are not. -/
def strike (k : Nat) (next : Nat → Nat) (t : EqualTable) (p : Nat × Nat) : EqualTable :=
  if holds k t p.1 p.2 && !holds k t (next p.1) (next p.2) then
    t.setIfInBounds (p.1 * k + p.2) false
  else t

/-- A pass over the pairs in a given order, each of which sees what has been struck out before. -/
def scan (k : Nat) (next : Nat → Nat) (order : List (Nat × Nat)) (t : EqualTable) : EqualTable :=
  order.foldl (strike k next) t

/-- The table after `n` passes, each in an order of its own. -/
def scanned (k : Nat) (next : Nat → Nat) (orders : Nat → List (Nat × Nat)) (t : EqualTable) :
    Nat → EqualTable
  | 0 => t
  | n + 1 => scan k next (orders n) (scanned k next orders t n)

/-- The pairs row by row. -/
def rowByRow (k : Nat) : List (Nat × Nat) := List.range k ×ˢ List.range k

/-- An order visits all pairs, once or more often. -/
def Visits (k : Nat) (order : List (Nat × Nat)) : Prop := ∀ p, p ∈ order ↔ p.1 < k ∧ p.2 < k

/-- The table has an entry for each pair. -/
def Full (k : Nat) (t : EqualTable) : Prop := t.size = k * k

/-- Pairs that are related have related successors. -/
def Steady (k : Nat) (next : Nat → Nat) (t : EqualTable) : Prop :=
  ∀ p ∈ pairs k t, onward next p ∈ pairs k t

/-- The second table has lost pairs, but none of a relation that is kept along successors. -/
structure Lowers (k : Nat) (next : Nat → Nat) (t u : EqualTable) : Prop where
  full : Full k u
  loses : pairs k u ⊆ pairs k t
  keeps : ∀ R : Set (Nat × Nat), (∀ p ∈ R, onward next p ∈ R) → (∀ p ∈ R, p ∈ pairs k t) →
    ∀ p ∈ R, p ∈ pairs k u

theorem mem_pairs : p ∈ pairs k t ↔ (p.1 < k ∧ p.2 < k) ∧ holds k t p.1 p.2 = true := by
  simp [pairs]

/-- There are no more pairs than places in the table. -/
theorem card_pairs_le : (pairs k t).card ≤ k * k :=
  calc (pairs k t).card ≤ (Finset.range k ×ˢ Finset.range k).card := Finset.card_filter_le ..
    _ = k * k := by rw [Finset.card_product, Finset.card_range]

/-- Row by row all pairs are visited. -/
theorem visits_rowByRow : Visits k (rowByRow k) := by
  rintro ⟨i, j⟩
  simp [rowByRow]

theorem full_ofRelation : Full k (ofRelation k r) := Array.size_ofFn

theorem mem_pairs_ofRelation :
    p ∈ pairs k (ofRelation k r) ↔ (p.1 < k ∧ p.2 < k) ∧ r p.1 p.2 = true := by
  rw [mem_pairs]
  refine and_congr_right fun h => ?_
  rw [holds_ofRelation h.2, if_pos h.1]

/-- A table is known by its pairs. -/
theorem Full.ext (ht : Full k t) (hu : Full k u) (h : pairs k t = pairs k u) : t = u := by
  refine Array.ext (ht.trans hu.symm) fun i hi hi' => ?_
  have hlt : i < k * k := ht ▸ hi
  have hk : 0 < k := Nat.pos_of_mul_pos_left (Nat.zero_lt_of_lt hlt)
  have hentry (w : EqualTable) (hw : i < w.size) : holds k w (i / k) (i % k) = w[i] := by
    rw [holds, Nat.div_add_mod', Array.getElem?_eq_getElem hw, Option.getD_some]
  have hmem := congrArg ((i / k, i % k) ∈ ·) h
  simpa only [mem_pairs, Nat.div_lt_of_lt_mul hlt, Nat.mod_lt i hk, hentry t hi, hentry u hi',
    and_self, true_and, eq_iff_iff, ← Bool.eq_iff_iff] using hmem

/-- Different pairs have different entries. -/
theorem entry_inj (hp : p.2 < k) (hq : q.2 < k) (h : p.1 * k + p.2 = q.1 * k + q.2) : p = q := by
  have hk : 0 < k := Nat.zero_lt_of_lt hp
  have hdiv := congrArg (· / k) h
  have hmod := congrArg (· % k) h
  simp only [Nat.mul_comm _ k, Nat.mul_add_div hk, Nat.mul_add_mod, Nat.div_eq_of_lt hp,
    Nat.div_eq_of_lt hq, Nat.mod_eq_of_lt hp, Nat.mod_eq_of_lt hq, Nat.add_zero] at hdiv hmod
  exact Prod.ext hdiv hmod

/-- Striking out an entry loses its pair. -/
theorem mem_pairs_setIfInBounds (hq : q.1 < k ∧ q.2 < k) :
    p ∈ pairs k (t.setIfInBounds (q.1 * k + q.2) false) ↔ p ∈ pairs k t ∧ p ≠ q := by
  rw [mem_pairs, mem_pairs, @and_assoc (p.1 < k ∧ p.2 < k)]
  refine and_congr_right fun hp => ?_
  rw [holds, holds, Array.getElem?_setIfInBounds]
  by_cases hpq : p = q
  · subst hpq
    simp only [if_true, ne_eq, not_true_eq_false, and_false, iff_false]
    split <;> simp
  · rw [if_neg fun h => hpq (entry_inj hq.2 hp.2 h).symm]
    simp [hpq]

theorem Full.setIfInBounds {i : Nat} {b : Bool} (ht : Full k t) : Full k (t.setIfInBounds i b) :=
  Array.size_setIfInBounds.trans ht

namespace Lowers

theorem refl (ht : Full k t) : Lowers k next t t := ⟨ht, subset_rfl, fun _ _ h => h⟩

theorem trans (h : Lowers k next t u) (h' : Lowers k next u v) : Lowers k next t v :=
  ⟨h'.full, h'.loses.trans h.loses, fun R hR hsub => h'.keeps R hR (h.keeps R hR hsub)⟩

/-- What lies between a table and itself is that table. -/
theorem eq_of_loses (ht : Full k t) (h : Lowers k next t u) (hback : pairs k t ⊆ pairs k u) :
    u = t :=
  h.full.ext ht (h.loses.antisymm hback)

/-- A change loses a pair. -/
theorem card_lt (ht : Full k t) (h : Lowers k next t u) (hne : u ≠ t) :
    (pairs k u).card < (pairs k t).card :=
  Finset.card_lt_card (h.loses.ssubset_of_ne fun heq => hne (h.full.ext ht heq))

/-- **The greatest fixpoint.**  Passes over a relation that have come to an end leave the pairs that
are related, and so are all that follow them. -/
theorem mem_pairs_iff (hnext : ∀ i < k, next i < k) (h : Lowers k next (ofRelation k r) t)
    (hsteady : Steady k next t) : p ∈ pairs k t ↔
      (p.1 < k ∧ p.2 < k) ∧ ∀ n, r (next^[n] p.1) (next^[n] p.2) = true := by
  constructor
  · intro hp
    refine ⟨(mem_pairs.mp hp).1, fun n => ?_⟩
    have hall : (next^[n] p.1, next^[n] p.2) ∈ pairs k t := by
      induction n with
      | zero => exact hp
      | succ n ih =>
          rw [Function.iterate_succ_apply', Function.iterate_succ_apply']
          exact hsteady _ ih
    exact (mem_pairs_ofRelation.mp (h.loses hall)).2
  · intro hp
    refine h.keeps {p | (p.1 < k ∧ p.2 < k) ∧ ∀ n, r (next^[n] p.1) (next^[n] p.2) = true}
      (fun p hp => ⟨⟨hnext _ hp.1.1, hnext _ hp.1.2⟩, fun n => ?_⟩)
      (fun p hp => mem_pairs_ofRelation.mpr ⟨hp.1, hp.2 0⟩) p hp
    exact hp.2 (n + 1)

/-- Passes that have come to an end leave the same table. -/
theorem unique (hnext : ∀ i < k, next i < k) (ht : Lowers k next (ofRelation k r) t)
    (hsteady : Steady k next t) (hu : Lowers k next (ofRelation k r) u)
    (hsteady' : Steady k next u) : t = u := by
  refine ht.full.ext hu.full (Finset.ext fun p => ?_)
  rw [ht.mem_pairs_iff hnext hsteady, hu.mem_pairs_iff hnext hsteady']

end Lowers

/-! ### Passes -/

/-- To strike a pair out lowers the table, if its successor has been struck out. -/
theorem lowers_strike (ht : Full k t) (hp : p.1 < k ∧ p.2 < k) :
    Lowers k next t (strike k next t p) := by
  rw [strike]
  split
  case isFalse => exact .refl ht
  rename_i h
  rw [Bool.and_eq_true, Bool.not_eq_true'] at h
  refine ⟨ht.setIfInBounds, fun q hq => ((mem_pairs_setIfInBounds hp).mp hq).1,
    fun R hR hsub q hq => (mem_pairs_setIfInBounds hp).mpr ⟨hsub q hq, ?_⟩⟩
  rintro rfl
  have honward := (mem_pairs.mp (hsub _ (hR _ hq))).2
  exact Bool.false_ne_true (h.2.symm.trans honward)

/-- A pair that stays where it is tried has related successors. -/
theorem onward_mem_of_strike (hnext : ∀ i < k, next i < k) (h : strike k next t p = t)
    (hp : p ∈ pairs k t) : onward next p ∈ pairs k t := by
  obtain ⟨hlt, hholds⟩ := mem_pairs.mp hp
  refine mem_pairs.mpr ⟨⟨hnext _ hlt.1, hnext _ hlt.2⟩, ?_⟩
  by_contra hne
  have hlost : p ∈ pairs k (strike k next t p) := h.symm ▸ hp
  rw [strike, if_pos (by simpa [hholds, onward] using hne)] at hlost
  exact ((mem_pairs_setIfInBounds hlt).mp hlost).2 rfl

/-- A pass lowers the table, in whichever order it goes. -/
theorem lowers_scan (ht : Full k t) (horder : ∀ p ∈ order, p.1 < k ∧ p.2 < k) :
    Lowers k next t (scan k next order t) := by
  induction order generalizing t with
  | nil => exact .refl ht
  | cons p order ih =>
      have hfirst : Lowers k next t (strike k next t p) :=
        lowers_strike ht (horder p List.mem_cons_self)
      exact hfirst.trans (ih hfirst.full fun q hq => horder q (List.mem_cons_of_mem _ hq))

/-- A pass that changes nothing strikes out nothing. -/
theorem strike_of_scan (ht : Full k t)
    (horder : ∀ p ∈ order, p.1 < k ∧ p.2 < k) (h : scan k next order t = t) :
    ∀ p ∈ order, strike k next t p = t := by
  induction order with
  | nil => intro p hp; cases hp
  | cons p order ih =>
      have hfirst : Lowers k next t (strike k next t p) :=
        lowers_strike ht (horder p List.mem_cons_self)
      have hrest : Lowers k next (strike k next t p) (scan k next order (strike k next t p)) :=
        lowers_scan hfirst.full fun q hq => horder q (List.mem_cons_of_mem _ hq)
      -- What is lost first does not come back.
      have hstill : strike k next t p = t := by
        refine hfirst.eq_of_loses ht ?_
        nth_rewrite 1 [← h]
        exact hrest.loses
      intro q hq
      rcases List.mem_cons.mp hq with rfl | hq
      · exact hstill
      · refine ih (fun q hq => horder q (List.mem_cons_of_mem _ hq)) ?_ q hq
        rw [scan, List.foldl_cons, hstill] at h
        exact h

/-- A table that a pass leaves as it is has no pair to be struck out. -/
theorem steady_of_scan (hnext : ∀ i < k, next i < k) (ht : Full k t) (horder : Visits k order)
    (h : scan k next order t = t) : Steady k next t := by
  intro p hp
  refine onward_mem_of_strike hnext ?_ hp
  exact strike_of_scan ht (fun p hp => (horder p).mp hp) h p
    ((horder p).mpr (mem_pairs.mp hp).1)

theorem lowers_scanned (ht : Full k t) (horders : ∀ n, Visits k (orders n)) :
    Lowers k next t (scanned k next orders t n) := by
  induction n with
  | zero => exact .refl ht
  | succ n ih => exact ih.trans (lowers_scan ih.full fun p hp => (horders n p).mp hp)

/-- There are no more passes that change something than there are pairs. -/
theorem exists_scanned_ends (ht : Full k t)
    (horders : ∀ n, Visits k (orders n)) :
    ∃ n ≤ k * k, scanned k next orders t (n + 1) = scanned k next orders t n := by
  by_contra! hnever
  have hcard : ∀ n ≤ k * k + 1, (pairs k (scanned k next orders t n)).card + n ≤ k * k := by
    intro n hn
    induction n with
    | zero => exact card_pairs_le
    | succ n ih =>
        have hfull : Full k (scanned k next orders t n) := (lowers_scanned ht horders).full
        have hlt : (pairs k (scanned k next orders t (n + 1))).card <
            (pairs k (scanned k next orders t n)).card :=
          (lowers_scan hfull fun p hp => (horders n p).mp hp).card_lt hfull
            (hnever n (Nat.le_of_succ_le_succ hn))
        have hle := ih (Nat.le_of_succ_le hn)
        omega
  have hlast := hcard _ le_rfl
  omega

/-- A sweep keeps the pairs whose successors are in the table. -/
theorem mem_pairs_sweep : p ∈ pairs k (sweep k next t) ↔
    p ∈ pairs k t ∧ holds k t (next p.1) (next p.2) = true := by
  rw [sweep, mem_pairs_ofRelation, Bool.and_eq_true, ← and_assoc, ← mem_pairs]

/-- A sweep lowers the table. -/
theorem lowers_sweep : Lowers k next t (sweep k next t) := by
  refine ⟨full_ofRelation, fun p hp => (mem_pairs_sweep.mp hp).1, fun R hR hsub p hp => ?_⟩
  exact mem_pairs_sweep.mpr ⟨hsub p hp, (mem_pairs.mp (hsub _ (hR p hp))).2⟩

theorem steady_of_sweep (hnext : ∀ i < k, next i < k) (h : sweep k next t = t) :
    Steady k next t := by
  intro p hp
  obtain ⟨hlt, -⟩ := mem_pairs.mp hp
  refine mem_pairs.mpr ⟨⟨hnext _ hlt.1, hnext _ hlt.2⟩, ?_⟩
  rw [← h] at hp
  exact (mem_pairs_sweep.mp hp).2

theorem lowers_settleFrom {fuel : Nat} (ht : Full k t) :
    Lowers k next t (settleFrom k next fuel t) := by
  induction fuel generalizing t with
  | zero => exact .refl ht
  | succ fuel ih =>
      rw [settleFrom]
      split
      · exact .refl ht
      · exact lowers_sweep.trans (ih lowers_sweep.full)

/-- With more rounds than pairs the sweeps come to an end. -/
theorem sweep_settleFrom {fuel : Nat} (ht : Full k t) (hfuel : (pairs k t).card < fuel) :
    sweep k next (settleFrom k next fuel t) = settleFrom k next fuel t := by
  induction fuel generalizing t with
  | zero => cases hfuel
  | succ fuel ih =>
      rw [settleFrom]
      split
      case isTrue h => exact h
      case isFalse h =>
        have hlt := lowers_sweep.card_lt ht h
        exact ih lowers_sweep.full (hlt.trans_le (Nat.le_of_lt_succ hfuel))

/-- A table that has settled is left as it is. -/
theorem sweep_settle (ht : Full k t) : sweep k next (settle k next t) = settle k next t :=
  sweep_settleFrom ht (Nat.lt_succ_of_le card_pairs_le)

end EqualTable

/-! ### Directions of classes -/

/-- The period of a class. -/
def Classes.periodOf {κ : Type} (cs : Classes κ) (m : Nat) : Nat :=
  ((cs[m]?).map (·.period)).getD 0

/-- The directions of a class are numbered one after the other from `first` on, in a cycle. -/
def Cycles {κ : Type} (cs : Classes κ) (out : Array Address) (m first : Nat) : Prop :=
  ∀ j < cs.periodOf m,
    out[first + j]? = some ⟨m, j, if j + 1 = cs.periodOf m then first else first + j + 1⟩

section

variable {κ : Type} {cs : Classes κ} {out : Array Address} {i m first : Nat} {a : Address}

/-- A number stands for a direction of a class whose directions are numbered in a cycle. -/
def Numbered (cs : Classes κ) (out : Array Address) : Prop :=
  ∀ i a, out[i]? = some a →
    ∃ first, Cycles cs out a.master first ∧ a.spin < cs.periodOf a.master ∧ i = first + a.spin

theorem Cycles.append (h : Cycles cs out m first) (more : Array Address) :
    Cycles cs (out ++ more) m first := by
  intro j hj
  have hentry := h j hj
  rw [Array.getElem?_append_left (Array.getElem?_eq_some_iff.mp hentry).1, hentry]

/-- The addresses of a class follow each other in a cycle. -/
theorem cycles_addressesOf (cs : Classes κ) (out : Array Address) (m : Nat) :
    Cycles cs (out ++ (addressesOf m (cs.periodOf m) out.size).toArray) m out.size := by
  intro j hj
  rw [Array.getElem?_append_right (Nat.le_add_right _ _), Nat.add_sub_cancel_left]
  simp [addressesOf, hj]

theorem Numbered.addressesOf (h : Numbered cs out) (m : Nat) :
    Numbered cs (out ++ (addressesOf m (cs.periodOf m) out.size).toArray) := by
  intro i a ha
  by_cases hi : i < out.size
  · rw [Array.getElem?_append_left hi] at ha
    obtain ⟨first, hcycle, hspin⟩ := h i a ha
    exact ⟨first, hcycle.append _, hspin⟩
  · have hle := Nat.le_of_not_lt hi
    rw [Array.getElem?_append_right hle] at ha
    rw [List.getElem?_toArray, Mosaic.addressesOf, List.getElem?_map] at ha
    obtain ⟨j, hj, rfl⟩ := Option.map_eq_some_iff.mp ha
    obtain ⟨hlt, rfl⟩ := List.getElem?_eq_some_iff.mp hj
    rw [List.getElem_range] at hj ⊢
    rw [List.length_range] at hlt
    exact ⟨out.size, cycles_addressesOf cs out m, hlt, (Nat.add_sub_of_le hle).symm⟩

/-- Each address has its place in the list. -/
theorem numbered_addresses (cs : Classes κ) : Numbered cs (addresses cs) := by
  have hfold (ms : List Nat) (out : Array Address) (h : Numbered cs out) :
      Numbered cs (ms.foldl
        (fun out m => out ++ (addressesOf m (cs.periodOf m) out.size).toArray) out) := by
    induction ms generalizing out with
    | nil => exact h
    | cons m ms ih => exact ih _ (h.addressesOf m)
  refine hfold cs.masters #[] fun i a ha => ?_
  simp at ha

/-- The directions of a class that is its own target have numbers. -/
theorem exists_cycles (hm : m ∈ cs.masters) : ∃ first, Cycles cs (addresses cs) m first := by
  have hfold (ms : List Nat) (out : Array Address)
      (h : m ∈ ms ∨ ∃ first, Cycles cs out m first) :
      ∃ first, Cycles cs (ms.foldl
        (fun out m => out ++ (addressesOf m (cs.periodOf m) out.size).toArray) out) m first := by
    induction ms generalizing out with
    | nil => simpa using h
    | cons l ms ih =>
        refine ih _ ?_
        rcases h with h | ⟨first, h⟩
        · rcases List.mem_cons.mp h with rfl | h
          · exact .inr ⟨_, cycles_addressesOf cs out m⟩
          · exact .inl h
        · exact .inr ⟨first, h.append _⟩
  exact hfold cs.masters #[] (.inl hm)

end

namespace Surveying

variable {α σ κ : Type} {s : Survey σ κ} {i m first : Nat} {a : Address}

/-- The numbers of a class follow each other around the class. -/
theorem iterate_following (h : Cycles s.classes (addresses s.classes) m first) {j : Nat}
    (hj : j < s.classes.periodOf m) (n : Nat) :
    (following s)^[n] (first + j) = first + (j + n) % s.classes.periodOf m := by
  induction n with
  | zero => rw [Function.iterate_zero_apply, Nat.add_zero, Nat.mod_eq_of_lt hj]
  | succ n ih =>
      have hlt := Nat.mod_lt (j + n) (Nat.zero_lt_of_lt hj)
      have hturn : (j + (n + 1)) % s.classes.periodOf m =
          ((j + n) % s.classes.periodOf m + 1) % s.classes.periodOf m := by
        rw [Nat.mod_add_mod, Nat.add_assoc]
      rw [Function.iterate_succ_apply', ih, following, h _ hlt, Option.map_some, Option.getD_some,
        hturn]
      split
      case isTrue hlast => rw [hlast, Nat.mod_self, Nat.add_zero]
      case isFalse hlast =>
        rw [Nat.mod_eq_of_lt (Nat.lt_of_le_of_ne hlt hlast), Nat.add_assoc]

/-- The direction that comes `n` later is of the same class, turned by `n`. -/
theorem exists_iterate_following (ha : (addresses s.classes)[i]? = some a) (n : Nat) :
    ∃ b, (addresses s.classes)[(following s)^[n] i]? = some b ∧ b.master = a.master ∧
      b.spin = (a.spin + n) % s.classes.periodOf a.master := by
  obtain ⟨first, hcycle, hspin, rfl⟩ := numbered_addresses s.classes i a ha
  rw [iterate_following hcycle hspin]
  exact ⟨_, hcycle _ (Nat.mod_lt _ (Nat.zero_lt_of_lt hspin)), rfl, rfl⟩

theorem following_lt (hi : i < (addresses s.classes).size) :
    following s i < (addresses s.classes).size := by
  obtain ⟨b, hb, -⟩ := exists_iterate_following (Array.getElem?_eq_getElem hi) 1
  exact (Array.getElem?_eq_some_iff.mp hb).1

variable [Scalar α]

/-- The directions with these numbers have profiles that agree. -/
def resemble (ps : Array (Option (Profile α))) (i j : Nat) : Bool :=
  match (ps[i]?).join, (ps[j]?).join with
  | some p, some q => p.agrees q
  | _, _ => false

/-- Profiles that resemble each other have one degree. -/
theorem degree_of_resemble {ps : Array (Option (Profile α))} {i j : Nat}
    (h : resemble ps i j = true) : ∃ p q : Profile α, (ps[i]?).join = some p ∧
      (ps[j]?).join = some q ∧ p.degree = q.degree := by
  rw [resemble] at h
  split at h
  · rename_i p q hp hq
    rw [Profile.agrees, Bool.and_eq_true, beq_iff_eq] at h
    exact ⟨p, q, hp, hq, h.1⟩
  · cases h

/-- **Refinement reaches the greatest fixpoint.**  Let the directions of any classes be compared by
any profiles.  The sweeps end because they change nothing any more, and so do passes in place over
the pairs in any order, another one each time; they end with the same table.  It relates two
directions if and only if those that follow them, however far round their classes, have profiles
that agree; so it relates none of different degree.  Minimisation identifies what such passes relate
of the profiles that it computes. -/
theorem refinement_greatest (cx : CellComplex α σ κ) (s : Survey σ κ)
    (ps : Array (Option (Profile α))) (orders : Nat → List (Nat × Nat))
    (horders : ∀ n, EqualTable.Visits (addresses s.classes).size (orders n)) :
    let k := (addresses s.classes).size
    let start := EqualTable.ofRelation k (resemble ps)
    let equal := EqualTable.settle k (following s) start
    let passes (t : EqualTable) := EqualTable.scanned k (following s) orders t
    EqualTable.sweep k (following s) equal = equal ∧
    (∃ n ≤ k * k, passes start (n + 1) = passes start n) ∧
    (∀ n, passes start (n + 1) = passes start n → passes start n = equal) ∧
    (∀ i < k, ∀ j < k, EqualTable.holds k equal i j = true ↔
      ∀ t, resemble ps ((following s)^[t] i) ((following s)^[t] j) = true) ∧
    (∀ i < k, ∀ j < k, EqualTable.holds k equal i j = true → ∃ p q : Profile α,
      (ps[i]?).join = some p ∧ (ps[j]?).join = some q ∧ p.degree = q.degree) ∧
    (∀ m ∈ s.classes.masters, ∀ j < s.classes.periodOf m,
      ∃ (i : Nat) (a : Address), (addresses s.classes)[i]? = some a ∧ a.master = m ∧ a.spin = j) ∧
    (∀ (i : Nat) (a : Address), (addresses s.classes)[i]? = some a → ∀ t, ∃ b,
      (addresses s.classes)[(following s)^[t] i]? = some b ∧ b.master = a.master ∧
        b.spin = (a.spin + t) % s.classes.periodOf a.master) ∧
    (∀ n, let looks := EqualTable.ofRelation k (looksAlike cx s)
      passes looks (n + 1) = passes looks n →
        minimise cx s =
          identifyRelated cx (addresses s.classes) (EqualTable.holds k (passes looks n)) s) := by
  intro k start equal passes
  have hnext : ∀ i < k, following s i < k := fun i hi => following_lt hi
  have hsettle (r : Nat → Nat → Bool) : EqualTable.Lowers k (following s)
      (EqualTable.ofRelation k r) (EqualTable.settle k (following s) (EqualTable.ofRelation k r)) :=
    EqualTable.lowers_settleFrom EqualTable.full_ofRelation
  have hsteady (r : Nat → Nat → Bool) : EqualTable.Steady k (following s)
      (EqualTable.settle k (following s) (EqualTable.ofRelation k r)) :=
    EqualTable.steady_of_sweep hnext (EqualTable.sweep_settle EqualTable.full_ofRelation)
  have hpasses (r : Nat → Nat → Bool) (n : Nat)
      (hend : passes (EqualTable.ofRelation k r) (n + 1) = passes (EqualTable.ofRelation k r) n) :
      passes (EqualTable.ofRelation k r) n =
        EqualTable.settle k (following s) (EqualTable.ofRelation k r) := by
    have hlowers : EqualTable.Lowers k (following s) (EqualTable.ofRelation k r)
        (passes (EqualTable.ofRelation k r) n) :=
      EqualTable.lowers_scanned EqualTable.full_ofRelation horders
    exact hlowers.unique hnext (EqualTable.steady_of_scan hnext hlowers.full (horders n) hend)
      (hsettle r) (hsteady r)
  have hholds : ∀ i < k, ∀ j < k, EqualTable.holds k equal i j = true ↔
      ∀ t, resemble ps ((following s)^[t] i) ((following s)^[t] j) = true := by
    intro i hi j hj
    have hmem := (hsettle (resemble ps)).mem_pairs_iff (p := (i, j)) hnext (hsteady _)
    rw [EqualTable.mem_pairs] at hmem
    simpa [hi, hj] using hmem
  refine ⟨EqualTable.sweep_settle EqualTable.full_ofRelation,
    EqualTable.exists_scanned_ends EqualTable.full_ofRelation horders, hpasses _, hholds, ?_, ?_,
    fun i a ha => exists_iterate_following ha, ?_⟩
  · intro i hi j hj h
    exact degree_of_resemble ((hholds i hi j hj).mp h 0)
  · intro m hm j hj
    obtain ⟨first, hcycle⟩ := exists_cycles hm
    exact ⟨_, _, hcycle j hj, rfl, rfl⟩
  · intro n looks hend
    rw [hpasses _ n hend, minimise_eq]
    rfl

/-- A class of two directions and one of three. -/
def twoAndThree : Survey Unit Nat :=
  ⟨(), ((∅ : Classes Nat).insert 0 ⟨0, 0, 2, 0⟩).insert 1 ⟨1, 0, 3, 1⟩, 0⟩

/-- Profiles of five directions, of which the last has another degree. -/
def unevenProfiles : Array (Option (Profile Whole)) :=
  #[some ⟨4, []⟩, some ⟨4, []⟩, some ⟨4, []⟩, some ⟨4, []⟩, some ⟨5, []⟩]

/-- Each direction of the first class is followed by one that comes together with the last of the
second class, some only in the second round: passes row by row and passes column by column leave no
pair of different classes. -/
theorem refinement_greatest_twoAndThree :
    let start := EqualTable.ofRelation 5 (resemble unevenProfiles)
    let orders (n : Nat) := if n % 2 = 0 then EqualTable.rowByRow 5
      else (EqualTable.rowByRow 5).map Prod.swap
    (∀ n, EqualTable.Visits 5 (orders n)) ∧ EqualTable.holds 5 start 1 2 = true ∧
    ∃ n ≤ 25, EqualTable.scanned 5 (following twoAndThree) orders start (n + 1) =
        EqualTable.scanned 5 (following twoAndThree) orders start n ∧
      EqualTable.holds 5 (EqualTable.scanned 5 (following twoAndThree) orders start n) 1 2 =
        false := by
  intro start orders
  have hvisits : ∀ n, EqualTable.Visits 5 (orders n) := by
    intro n p
    by_cases hn : n % 2 = 0
    · rw [show orders n = EqualTable.rowByRow 5 from if_pos hn]
      exact EqualTable.visits_rowByRow p
    · rw [show orders n = (EqualTable.rowByRow 5).map Prod.swap from if_neg hn, List.mem_map]
      constructor
      · rintro ⟨q, hq, rfl⟩
        exact ((EqualTable.visits_rowByRow q).mp hq).symm
      · exact fun hp => ⟨p.swap, (EqualTable.visits_rowByRow _).mpr hp.symm, Prod.swap_swap p⟩
  have hsize : (addresses twoAndThree.classes).size = 5 := by decide +kernel
  have h := refinement_greatest (⟨.euclidean, 0, #[]⟩ : CellTable Whole).complex twoAndThree
    unevenProfiles orders (hsize ▸ hvisits)
  simp only [hsize] at h
  obtain ⟨-, ⟨n, hn, hend⟩, hequal, hholds, -⟩ := h
  refine ⟨hvisits, by decide +kernel, n, hn, hend, ?_⟩
  have hlater : resemble unevenProfiles ((following twoAndThree)^[2] 1)
      ((following twoAndThree)^[2] 2) = false := by decide +kernel
  rw [hequal n hend, Bool.eq_false_iff]
  intro hpair
  exact Bool.false_ne_true (hlater.symm.trans ((hholds 1 (by decide) 2 (by decide)).mp hpair 2))

end Surveying

end Mosaic
