import Mathlib.Data.List.Nodup
import Mosaic.Atlas.Expand
import Mosaic.Proofs.Atlas.Link

/-!
# Atlas — link distance and balls

The link distance of a tile is the least number of links on a way to it from the origin
(`Within`, `IsDistance`).  An expansion grows a ball ring by ring, and steps of it may change the
atlas.  Here the atlas stands still and the ball grows by the links that there are
(`Ball.spread`, `Ball.spreads`): after `k` rings it lists exactly the tiles at distance at most `k`,
the nearer ones first, and its outermost ring those at distance `k` (`spreads_isExact`).
-/

namespace Mosaic.Atlas

variable {α : Type} {m m' : Atlas α}

/-! ### Link distance -/

/-- Tile `a` is reached from the origin across at most `k` links. -/
inductive Within (m : Atlas α) : (k a : Nat) → Prop where
  | origin (k : Nat) : Within m k 0
  | link {k a e : Nat} {l : Link} (ha : Within m k a) (hl : m.neighbour? a e = some l) :
      Within m (k + 1) l.node

theorem Within.mono {j k a : Nat} (h : m.Within j a) (hjk : j ≤ k) : m.Within k a := by
  induction h generalizing k with
  | origin => exact .origin k
  | link _ hl ih =>
      obtain ⟨k, rfl⟩ : ∃ k', k = k' + 1 := ⟨k - 1, by omega⟩
      exact .link (ih (Nat.le_of_succ_le_succ hjk)) hl

/-- Ways are not lost when an atlas grows. -/
theorem Within.grows {k a : Nat} (h : m.Within k a) (hg : Grows m m') : m'.Within k a := by
  induction h with
  | origin k => exact .origin k
  | link _ hl ih => exact .link ih (hg.links _ _ _ hl)

theorem within_zero {a : Nat} : m.Within 0 a ↔ a = 0 := by
  constructor
  · rintro ⟨⟩
    rfl
  · rintro rfl
    exact .origin 0

/-- `d` is the least number of links on a way from the origin to tile `a`. -/
structure IsDistance (m : Atlas α) (d a : Nat) : Prop where
  within : m.Within d a
  least : ∀ k, m.Within k a → d ≤ k

theorem within_iff {r a : Nat} : m.Within r a ↔ ∃ d ≤ r, m.IsDistance d a := by
  constructor
  · intro h
    induction r with
    | zero => exact ⟨0, Nat.le_refl 0, h, fun _ _ => Nat.zero_le _⟩
    | succ r ih =>
        by_cases hr : m.Within r a
        · obtain ⟨d, hd, hda⟩ := ih hr
          exact ⟨d, Nat.le_succ_of_le hd, hda⟩
        · refine ⟨r + 1, Nat.le_refl _, h, fun k hk => Nat.lt_of_not_le fun hkr => ?_⟩
          exact hr (hk.mono hkr)
  · rintro ⟨d, hd, hda⟩
    exact hda.within.mono hd

/-- A tile is one link farther away than `k` if a tile at distance `k` has a link to it and it is
not nearer. -/
theorem isDistance_succ {k a : Nat} : m.IsDistance (k + 1) a ↔
    (∃ b e l, m.IsDistance k b ∧ m.neighbour? b e = some l ∧ l.node = a) ∧ ¬ m.Within k a := by
  constructor
  · rintro ⟨hin, hleast⟩
    have hnot : ¬ m.Within k a := fun h => Nat.not_succ_le_self k (hleast k h)
    refine ⟨?_, hnot⟩
    cases hin with
    | origin => exact absurd (.origin k) hnot
    | @link _ b e l hb hl =>
        refine ⟨b, e, l, ⟨hb, fun j hj => ?_⟩, hl, rfl⟩
        exact Nat.le_of_succ_le_succ (hleast (j + 1) (.link hj hl))
  · rintro ⟨⟨b, e, l, hb, hl, rfl⟩, hnot⟩
    refine ⟨.link hb.within hl, fun j hj => Nat.lt_of_not_le fun hjk => ?_⟩
    exact hnot (hj.mono hjk)

/-! ### Neighbours -/

/-- The tiles that the links of tile `a` lead to, in the order of its edges. -/
def neighbours (m : Atlas α) (a : Nat) : List Nat :=
  (List.range (((m.nodes[a]?).map (·.degree)).getD 0)).filterMap fun e =>
    (m.neighbour? a e).map (·.node)

theorem mem_neighbours {a b : Nat} :
    b ∈ m.neighbours a ↔ ∃ e l, m.neighbour? a e = some l ∧ l.node = b := by
  simp only [neighbours, List.mem_filterMap, List.mem_range, Option.map_eq_some_iff]
  constructor
  · rintro ⟨e, -, l, hl, rfl⟩
    exact ⟨e, l, hl, rfl⟩
  · rintro ⟨e, l, hl, rfl⟩
    obtain ⟨n, hn, hnl⟩ := neighbour?_eq_some_iff.mp hl
    refine ⟨e, ?_, l, hl, rfl⟩
    simpa [hn] using Node.lt_degree_of_link? hnl

/-- All edges of tile `a` are resolved. -/
def Resolved (m : Atlas α) (a : Nat) : Prop :=
  ∃ n, m.nodes[a]? = some n ∧ ∀ e, e < n.degree → ∃ l, m.neighbour? a e = some l

theorem Resolved.grows {a : Nat} (h : m.Resolved a) (hg : Grows m m') : m'.Resolved a := by
  obtain ⟨n, hn, he⟩ := h
  obtain ⟨n', hn', -, -, -, hd⟩ := hg.nodes a n hn
  refine ⟨n', hn', fun e hlt => ?_⟩
  obtain ⟨l, hl⟩ := he e (hd ▸ hlt)
  exact ⟨l, hg.links a e l hl⟩

/-- The neighbours of a tile are final once all its edges are resolved. -/
theorem Resolved.neighbours_eq {a : Nat} (h : m.Resolved a) (hg : Grows m m') :
    m'.neighbours a = m.neighbours a := by
  obtain ⟨n, hn, he⟩ := h
  obtain ⟨n', hn', -, -, -, hd⟩ := hg.nodes a n hn
  simp only [neighbours, hn, hn', Option.map_some, Option.getD_some, hd]
  refine List.filterMap_congr fun e hlt => ?_
  obtain ⟨l, hl⟩ := he e (List.mem_range.mp hlt)
  rw [hl, hg.links a e l hl]

/-! ### Balls -/

namespace Ball

/-- The ball of radius 0 around the origin. -/
def start : Ball := ⟨#[0], #[0], Std.HashSet.emptyWithCapacity.insert 0⟩

/-- The ball with one more ring, by the links that there are. -/
def spread (m : Atlas α) (b : Ball) : Ball :=
  (b.ring.toList.flatMap m.neighbours).foldl Ball.add { b with ring := #[] }

/-- The ball with `k` more rings. -/
def spreads (m : Atlas α) : (k : Nat) → Ball → Ball
  | 0, b => b
  | k + 1, b => spreads m k (b.spread m)

theorem spreads_succ (k : Nat) (b : Ball) :
    b.spreads m (k + 1) = (b.spreads m k).spread m := by
  induction k generalizing b with
  | zero => rfl
  | succ k ih => exact ih (b.spread m)

theorem add_of_mem {b : Ball} {a : Nat} (h : a ∈ b.seen) : b.add a = b := if_pos h

theorem add_of_not_mem {b : Ball} {a : Nat} (h : a ∉ b.seen) :
    b.add a = ⟨b.order.push a, b.ring.push a, b.seen.insert a⟩ := if_neg h

/-- Adding tiles appends those that have not been seen, each once. -/
theorem foldl_add (as : List Nat) (b : Ball) : ∃ new : List Nat, new.Nodup ∧
    (∀ a, a ∈ new ↔ a ∈ as ∧ a ∉ b.seen) ∧
    (as.foldl add b).order.toList = b.order.toList ++ new ∧
    (as.foldl add b).ring.toList = b.ring.toList ++ new ∧
    ∀ a, a ∈ (as.foldl add b).seen ↔ a ∈ b.seen ∨ a ∈ new := by
  induction as generalizing b with
  | nil => exact ⟨[], by simp⟩
  | cons x as ih =>
      rw [List.foldl_cons]
      by_cases hx : x ∈ b.seen
      · rw [add_of_mem hx]
        obtain ⟨new, hnodup, hmem, hrest⟩ := ih b
        refine ⟨new, hnodup, fun a => ?_, hrest⟩
        rw [hmem, List.mem_cons]
        grind
      · rw [add_of_not_mem hx]
        obtain ⟨new, hnodup, hmem, horder, hring, hseen⟩ :=
          ih ⟨b.order.push x, b.ring.push x, b.seen.insert x⟩
        simp only [Std.HashSet.mem_insert, beq_iff_eq] at hmem hseen
        refine ⟨x :: new, ?_, fun a => ?_, ?_, ?_, fun a => ?_⟩
        · exact List.nodup_cons.mpr ⟨fun h => ((hmem x).mp h).2 (.inl rfl), hnodup⟩
        · rw [List.mem_cons, hmem, List.mem_cons]
          grind
        · rw [horder]
          simp
        · rw [hring]
          simp
        · rw [hseen, List.mem_cons]
          grind

/-- A ring whose tiles are resolved spreads in the same way ever after. -/
theorem spread_grows (hg : Grows m m') {b : Ball}
    (hr : ∀ a ∈ b.ring, m.Resolved a) : b.spread m' = b.spread m := by
  have : b.ring.toList.flatMap m'.neighbours = b.ring.toList.flatMap m.neighbours :=
    List.flatMap_congr fun a ha => (hr a (Array.mem_toList_iff.mp ha)).neighbours_eq hg
  rw [spread, spread, this]

/-- A ball without an outermost ring does not grow. -/
theorem spreads_of_isEmpty {b : Ball} (h : b.ring.isEmpty) (k : Nat) :
    b.spreads m k = b := by
  induction k with
  | zero => rfl
  | succ k ih =>
      have hring : b.ring = #[] := Array.isEmpty_iff.mp h
      have : b.spread m = b := by
        rw [spread, hring]
        cases b
        cases hring
        rfl
      rw [spreads, this, ih]

/-- A ball lists the tiles at distance at most `k` once each, the origin first and the nearer ones
before the farther ones, and its ring has those at distance `k`. -/
structure IsExact (m : Atlas α) (k : Nat) (b : Ball) : Prop where
  head : b.order.toList.head? = some 0
  nodup : b.order.toList.Nodup
  mem_order : ∀ a, a ∈ b.order ↔ m.Within k a
  mem_ring : ∀ a, a ∈ b.ring ↔ m.IsDistance k a
  mem_seen : ∀ a, a ∈ b.seen ↔ m.Within k a
  sorted : b.order.toList.Pairwise fun x y =>
    ∀ i j, m.IsDistance i x → m.IsDistance j y → i ≤ j

theorem start_isExact (m : Atlas α) : start.IsExact m 0 where
  head := rfl
  nodup := List.nodup_singleton 0
  mem_order a := by simp [start, within_zero]
  mem_ring a := by
    have : m.IsDistance 0 a ↔ a = 0 :=
      ⟨fun h => within_zero.mp h.within, fun h => ⟨within_zero.mpr h, fun _ _ => Nat.zero_le _⟩⟩
    simp [start, this]
  mem_seen a := by
    rw [within_zero, start, Std.HashSet.mem_insert, beq_iff_eq, eq_comm]
    simp only [Std.HashSet.not_mem_emptyWithCapacity, or_false]
  sorted := List.pairwise_singleton _ _

/-- The tiles that a ball gains with a ring are those one link farther away. -/
theorem spread_eq {b : Ball} {k : Nat} (hb : b.IsExact m k) : ∃ new : List Nat, new.Nodup ∧
    (∀ a, a ∈ new ↔ m.IsDistance (k + 1) a) ∧
    (b.spread m).order.toList = b.order.toList ++ new ∧
    (b.spread m).ring.toList = new ∧
    ∀ a, a ∈ (b.spread m).seen ↔ a ∈ b.seen ∨ a ∈ new := by
  obtain ⟨new, hnodup, hmem, horder, hring, hseen⟩ :=
    foldl_add (b.ring.toList.flatMap m.neighbours) { b with ring := #[] }
  refine ⟨new, hnodup, fun a => ?_, horder, hring, hseen⟩
  rw [hmem, hb.mem_seen, isDistance_succ, List.mem_flatMap]
  simp only [Array.mem_toList_iff, hb.mem_ring, mem_neighbours]
  grind

theorem IsExact.spread {b : Ball} {k : Nat} (hb : b.IsExact m k) :
    (b.spread m).IsExact m (k + 1) := by
  obtain ⟨new, hnodup, hmem, horder, hring, hseen⟩ := spread_eq hb
  -- A tile is within `k + 1` links when it is within `k` links or at distance `k + 1`.
  have hsucc : ∀ a, m.Within (k + 1) a ↔ m.Within k a ∨ a ∈ new := by
    intro a
    rw [hmem]
    constructor
    · intro h
      obtain ⟨d, hd, hda⟩ := within_iff.mp h
      rcases Nat.lt_or_eq_of_le hd with hlt | rfl
      · exact .inl (hda.within.mono (Nat.le_of_lt_succ hlt))
      · exact .inr hda
    · rintro (h | h)
      · exact h.mono (Nat.le_succ k)
      · exact h.within
  have hold : ∀ a, a ∈ b.order.toList ↔ m.Within k a := fun a => by
    rw [Array.mem_toList_iff, hb.mem_order]
  constructor
  case head =>
    rw [horder, List.head?_append, hb.head]
    rfl
  case nodup =>
    rw [horder]
    refine List.Nodup.append hb.nodup hnodup fun a ha hnew => ?_
    exact Nat.not_succ_le_self k (((hmem a).mp hnew).least k ((hold a).mp ha))
  case mem_order =>
    intro a
    rw [← Array.mem_toList_iff, horder, List.mem_append, hold, hsucc]
  case mem_ring =>
    intro a
    rw [← Array.mem_toList_iff, hring, hmem]
  case mem_seen =>
    intro a
    rw [hseen, hb.mem_seen, hsucc]
  case sorted =>
    rw [horder, List.pairwise_append]
    refine ⟨hb.sorted, ?_, fun x hx y hy i j hi hj => ?_⟩
    · refine List.Pairwise.imp_of_mem (R := fun _ _ => True) (fun {x y} hx hy _ i j hi hj => ?_)
        (List.pairwise_of_forall fun _ _ => trivial)
      have hx' := (hmem x).mp hx
      have hy' := (hmem y).mp hy
      exact Nat.le_trans (hi.least _ hx'.within) (hy'.least _ hj.within)
    · have hik : i ≤ k := hi.least k ((hold x).mp hx)
      have hkj : k + 1 ≤ j := ((hmem y).mp hy).least j hj.within
      omega

/-- After `k` rings a ball has exactly the tiles at distance at most `k`. -/
theorem spreads_isExact (m : Atlas α) (k : Nat) : (start.spreads m k).IsExact m k := by
  induction k with
  | zero => exact start_isExact m
  | succ k ih =>
      rw [spreads_succ]
      exact ih.spread

/-- More rings extend the list of tiles at its end. -/
theorem order_prefix (m : Atlas α) {j k : Nat} (h : j ≤ k) :
    (start.spreads m j).order.toList <+: (start.spreads m k).order.toList := by
  induction h with
  | refl => exact List.prefix_refl _
  | @step k _ ih =>
      obtain ⟨new, -, -, horder, -⟩ := spread_eq (spreads_isExact m k)
      rw [spreads_succ, horder]
      exact ih.trans (List.prefix_append _ _)

end Ball

end Mosaic.Atlas
