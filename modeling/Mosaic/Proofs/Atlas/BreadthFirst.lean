import Mathlib.Data.List.Dedup
import Mathlib.Data.List.Perm.Subperm
import Mosaic.Proofs.Atlas.Ancestry

/-!
# Atlas — breadth-first orders

A breadth-first search from tile `s` lists all tiles, each once, in the order in which the tiles
listed before them lead to them, and so the nearer ones before the farther ones (`BreadthFirst`).
A search that has come to its tile number `i` has listed the neighbours of the tiles before that
(`Partway`); it goes on with the neighbours of that tile that are not listed yet
(`Partway.extend`), as long as there are tiles left, and then it has listed all of them, because an
atlas is connected (`Partway.breadthFirst`).  So whatever a search has listed when it is broken off
begins a breadth-first order (`Partway.exists_breadthFirst`).
-/

namespace Mosaic.Atlas

variable {α : Type} {m : Atlas α} {s : Nat}

/-! ### Link distance between tiles -/

/-- Tile `a` is reached from tile `s` across at most `k` links. -/
inductive Joined (m : Atlas α) (s : Nat) : (k a : Nat) → Prop where
  | start (k : Nat) : Joined m s k s
  | link {k a e : Nat} {l : Link} (ha : Joined m s k a) (hl : m.neighbour? a e = some l) :
      Joined m s (k + 1) l.node

/-- `d` is the least number of links on a way from tile `s` to tile `a`. -/
structure Apart (m : Atlas α) (s d a : Nat) : Prop where
  joined : m.Joined s d a
  least : ∀ k, m.Joined s k a → d ≤ k

/-- Tiles that belong to a set closed under links are all of them: an atlas is connected. -/
theorem Grown.mem_of_closed (h : Grown m) (hm : Linked m) {S : Nat → Prop}
    (hS : ∀ a e l, m.neighbour? a e = some l → S a → S l.node) (hs : S s) (hlt : s < m.size)
    {a : Nat} (ha : a < m.size) : S a := by
  -- Along a way from the origin all tiles belong to the set, or none does.
  have hway : ∀ {k b : Nat}, m.Within k b → (S 0 ↔ S b) := by
    intro k b hb
    induction hb with
    | origin => exact Iff.rfl
    | @link _ b e l _ hl ih =>
        exact ih.trans ⟨hS b e l hl, fun hb => hS l.node l.edge _ (hm.back b e l hl) hb⟩
  have hof : ∀ {b : Nat}, b < m.size → (S 0 ↔ S b) := fun hb =>
    hway (h.within hm (Array.getElem?_eq_getElem (show _ < m.nodes.size from hb)))
  exact (hof ha).mp ((hof hlt).mpr hs)

/-! ### Orders -/

/-- The tiles of the atlas in the order of a breadth-first search from tile `s`. -/
structure BreadthFirst (m : Atlas α) (s : Nat) (ids : List Nat) : Prop where
  head : ids[0]? = some s
  nodup : ids.Nodup
  mem : ∀ a, a ∈ ids ↔ a < m.size
  /-- Nearer tiles stand before farther ones. -/
  sorted : ids.Pairwise fun a b => ∀ i j, m.Apart s i a → m.Apart s j b → i ≤ j
  /-- If the tile number `l` leads to the tile number `k`, then no later tile is the first to lead
  to a tile that stands before number `k`. -/
  queued : ∀ {j k l a b c : Nat}, 0 < j → j < k → ids[j]? = some a → ids[k]? = some b →
    ids[l]? = some c → b ∈ m.neighbours c →
    ∃ l' d, l' ≤ l ∧ ids[l']? = some d ∧ a ∈ m.neighbours d

/-- A tile stands before any that neither the first tile to lead to it nor an earlier one leads
to. -/
theorem BreadthFirst.lt_of_neighbours {ids : List Nat} (h : m.BreadthFirst s ids)
    {j k l a b c : Nat} (hk : 0 < k) (ha : ids[j]? = some a) (hb : ids[k]? = some b)
    (hc : ids[l]? = some c) (hac : a ∈ m.neighbours c)
    (hlater : ∀ n d, n ≤ l → ids[n]? = some d → b ∉ m.neighbours d) : j < k := by
  refine Nat.lt_of_not_le fun hle => ?_
  rcases Nat.lt_or_eq_of_le hle with hlt | rfl
  · obtain ⟨n, d, hn, hd, hbd⟩ := h.queued hk hlt hb ha hc hac
    exact hlater n d hn hd hbd
  · obtain rfl : a = b := Option.some.inj (ha.symm.trans hb)
    exact hlater l c (Nat.le_refl l) hc hac

/-- What a search from tile `s` has listed when it has gone through its first `i` tiles. -/
structure Partway (m : Atlas α) (s i : Nat) (ids : List Nat) : Prop where
  head : ids[0]? = some s
  nodup : ids.Nodup
  placed : ∀ a ∈ ids, a < m.size
  le : i ≤ ids.length
  closed : ∀ {j a b : Nat}, j < i → ids[j]? = some a → b ∈ m.neighbours a → b ∈ ids
  met : ∀ {k b : Nat}, 0 < k → ids[k]? = some b →
    ∃ j a, j < i ∧ j < k ∧ ids[j]? = some a ∧ b ∈ m.neighbours a
  queued : ∀ {j k l a b c : Nat}, 0 < j → j < k → ids[j]? = some a → ids[k]? = some b →
    ids[l]? = some c → b ∈ m.neighbours c →
    ∃ l' d, l' ≤ l ∧ ids[l']? = some d ∧ a ∈ m.neighbours d

theorem partway_start (hs : s < m.size) : m.Partway s 0 [s] where
  head := rfl
  nodup := List.nodup_singleton s
  placed a ha := List.mem_singleton.mp ha ▸ hs
  le := Nat.zero_le _
  closed h := absurd h (Nat.not_lt_zero _)
  met {k b} hk hb := by
    rw [List.getElem?_eq_none (Nat.succ_le_of_lt hk)] at hb
    cases hb
  queued {j k l a b c} hj hk ha := by
    rw [List.getElem?_eq_none (Nat.succ_le_of_lt hj)] at ha
    cases ha

/-- A list of distinct tiles is no longer than the atlas is large. -/
theorem Partway.length_le {i : Nat} {ids : List Nat} (h : m.Partway s i ids) :
    ids.length ≤ m.size := by
  have hsub : ids ⊆ List.range m.size := fun a ha => List.mem_range.mpr (h.placed a ha)
  simpa using (h.nodup.subperm hsub).length_le

/-- The item of a list with an end put on. -/
theorem getElem?_append_cases {β : Type} {ids new : List β} {k : Nat} {b : β}
    (h : (ids ++ new)[k]? = some b) :
    (k < ids.length ∧ ids[k]? = some b) ∨ (ids.length ≤ k ∧ b ∈ new) := by
  rw [List.getElem?_append] at h
  split at h
  · exact .inl ⟨‹_›, h⟩
  · exact .inr ⟨Nat.le_of_not_lt ‹_›, List.mem_of_getElem? h⟩

/-- A search goes on with the neighbours of its next tile that it has not listed yet. -/
theorem Partway.extend (hm : Linked m) {i c : Nat} {ids new : List Nat} (h : m.Partway s i ids)
    (hc : ids[i]? = some c) (hnodup : new.Nodup)
    (hnew : ∀ b, b ∈ new ↔ b ∈ m.neighbours c ∧ b ∉ ids) :
    m.Partway s (i + 1) (ids ++ new) := by
  have hi : i < ids.length := (List.getElem?_eq_some_iff.mp hc).1
  have hold : ∀ {j a : Nat}, ids[j]? = some a → (ids ++ new)[j]? = some a := fun h => by
    rw [List.getElem?_append_left (List.getElem?_eq_some_iff.mp h).1, h]
  constructor
  case head => exact hold h.head
  case nodup => exact h.nodup.append hnodup fun a ha hb => ((hnew a).mp hb).2 ha
  case placed =>
    intro a ha
    rcases List.mem_append.mp ha with ha | ha
    · exact h.placed a ha
    · exact hm.neighbours_lt ((hnew a).mp ha).1
  case le => rw [List.length_append]; omega
  case closed =>
    intro j a b hj ha hb
    obtain ⟨-, ha⟩ | ⟨hle, -⟩ := getElem?_append_cases ha
    · rcases Nat.lt_succ_iff_lt_or_eq.mp hj with hj | rfl
      · exact List.mem_append_left new (h.closed hj ha hb)
      · obtain rfl : c = a := Option.some.inj (hc.symm.trans ha)
        by_cases hmem : b ∈ ids
        · exact List.mem_append_left new hmem
        · exact List.mem_append_right ids ((hnew b).mpr ⟨hb, hmem⟩)
    · omega
  case met =>
    intro k b hk hb
    obtain ⟨-, hb⟩ | ⟨hle, hb⟩ := getElem?_append_cases hb
    · obtain ⟨j, a, hj, hjk, ha, hab⟩ := h.met hk hb
      exact ⟨j, a, Nat.lt_succ_of_lt hj, hjk, hold ha, hab⟩
    · exact ⟨i, c, Nat.lt_succ_self i, by omega, hold hc, ((hnew b).mp hb).1⟩
  case queued =>
    intro j k l a b d hj hjk ha hb hd hbd
    obtain ⟨hk, hb⟩ | ⟨hk, hb⟩ := getElem?_append_cases hb
    · obtain ⟨-, ha⟩ | ⟨hle, -⟩ := getElem?_append_cases ha
      · obtain ⟨-, hd⟩ | ⟨hl, -⟩ := getElem?_append_cases hd
        · obtain ⟨l', e, hl', he, hae⟩ := h.queued hj hjk ha hb hd hbd
          exact ⟨l', e, hl', hold he, hae⟩
        · obtain ⟨l', e, -, hl', he, hae⟩ := h.met hj ha
          exact ⟨l', e, by omega, hold he, hae⟩
      · omega
    -- A tile that is new is a neighbour of no tile before number `i`.
    · have hil : i ≤ l := by
        refine Nat.le_of_not_lt fun hl => ((hnew b).mp hb).2 ?_
        obtain ⟨-, hd⟩ | ⟨hle, -⟩ := getElem?_append_cases hd
        · exact h.closed hl hd hbd
        · omega
      obtain ⟨-, ha⟩ | ⟨-, ha⟩ := getElem?_append_cases ha
      · obtain ⟨l', e, hl', -, he, hae⟩ := h.met hj ha
        exact ⟨l', e, by omega, hold he, hae⟩
      · exact ⟨i, c, hil, hold hc, ((hnew a).mp ha).1⟩

/-- A search that is over has listed its tiles by their distance. -/
theorem Partway.joined_of_le {ids : List Nat} (h : m.Partway s ids.length ids)
    (hall : ∀ a, a < m.size → a ∈ ids) {n p q a b : Nat} (hb : m.Joined s n b) (hpq : p ≤ q)
    (ha : ids[p]? = some a) (hq : ids[q]? = some b) : m.Joined s n a := by
  rcases Nat.eq_zero_or_pos p with rfl | hp
  · obtain rfl : s = a := Option.some.inj (h.head.symm.trans ha)
    exact .start n
  induction hb generalizing p q a with
  | start n =>
      obtain ⟨h₀, he₀⟩ := List.getElem?_eq_some_iff.mp h.head
      obtain ⟨hq', heq⟩ := List.getElem?_eq_some_iff.mp hq
      have : q = 0 := (h.nodup.getElem_inj_iff).mp (heq.trans he₀.symm)
      omega
  | @link n c e l hc hl ih =>
      have hlt : c < m.size := by
        obtain ⟨node, hnode, -⟩ := neighbour?_eq_some_iff.mp hl
        exact lt_size_of_node hnode
      obtain ⟨r, hr⟩ := List.mem_iff_getElem?.mp (hall c hlt)
      rcases Nat.lt_or_eq_of_le hpq with hlt | rfl
      · obtain ⟨r', d, hr', hd, had⟩ :=
          h.queued hp hlt ha hq hr (mem_neighbours.mpr ⟨e, l, hl, rfl⟩)
        obtain ⟨e', l', hl', rfl⟩ := mem_neighbours.mp had
        refine .link ?_ hl'
        rcases Nat.eq_zero_or_pos r' with rfl | hr₀
        · obtain rfl : s = d := Option.some.inj (h.head.symm.trans hd)
          exact .start n
        · exact ih hr' hd hr hr₀
      · obtain rfl : a = l.node := Option.some.inj (ha.symm.trans hq)
        exact .link hc hl

/-- A search that is over has listed the whole atlas. -/
theorem Partway.breadthFirst (hgrown : Grown m) (hm : Linked m) {ids : List Nat}
    (h : m.Partway s ids.length ids) : m.BreadthFirst s ids := by
  have hs := List.mem_of_getElem? h.head
  have hall : ∀ a, a < m.size → a ∈ ids := by
    refine fun a => hgrown.mem_of_closed hm (S := (· ∈ ids)) (fun a e l hl ha => ?_) hs
      (h.placed s hs)
    obtain ⟨j, hj⟩ := List.mem_iff_getElem?.mp ha
    exact h.closed (List.getElem?_eq_some_iff.mp hj).1 hj (mem_neighbours.mpr ⟨e, l, hl, rfl⟩)
  refine ⟨h.head, h.nodup, fun a => ⟨h.placed a, hall a⟩, ?_, h.queued⟩
  rw [List.pairwise_iff_getElem]
  intro p q hp hq hpq i j hi hj
  exact hi.least j (h.joined_of_le hall hj.joined (Nat.le_of_lt hpq)
    (List.getElem?_eq_getElem hp) (List.getElem?_eq_getElem hq))

/-- What a search has listed begins a breadth-first order of the whole atlas. -/
theorem Partway.exists_breadthFirst (hgrown : Grown m) (hm : Linked m) {i : Nat} {ids : List Nat}
    (h : m.Partway s i ids) : ∃ all, m.BreadthFirst s all ∧ ids <+: all := by
  rcases Nat.lt_or_eq_of_le h.le with hi | rfl
  · have hnew : ∀ b, b ∈ ((m.neighbours ids[i]).filter (· ∉ ids)).dedup ↔
        b ∈ m.neighbours ids[i] ∧ b ∉ ids := by simp
    have hnext := h.extend hm (List.getElem?_eq_getElem hi) (List.nodup_dedup _) hnew
    have := h.length_le
    obtain ⟨all, hall, hle⟩ := Partway.exists_breadthFirst hgrown hm hnext
    exact ⟨all, hall, (List.prefix_append _ _).trans hle⟩
  · exact ⟨ids, h.breadthFirst hgrown hm, List.prefix_rfl⟩
termination_by m.size - i

end Mosaic.Atlas
