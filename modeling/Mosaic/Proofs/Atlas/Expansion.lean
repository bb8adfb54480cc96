import Mosaic.Proofs.Atlas.Footprint
import Mosaic.Proofs.Atlas.Reach
import Mosaic.Proofs.Descent

/-!
# Atlas — expansion is breadth-first search

An expansion searches a graph that it makes: its steps place tiles, link tiles that are there and
resolve edges of tiles that have not been visited.  Links are permanent, though, and the neighbours
of a tile do not change any more once all its edges are resolved.  An expansion that succeeds is
therefore the growth of a ball in the atlas that it leaves (`addRings_ok`), and there it runs again
without a change (`addRings_of_resolved`).  In an atlas of one tile it numbers the tiles in the
order in which it lists them, and stores their link distances (`Fresh`).
-/

namespace Mosaic

namespace Atlas

variable {α : Type}

/-! ### Steps that succeed -/

theorem Joins.size_eq {m m' : Atlas α} {a e b f : Nat} {mirror : Bool}
    (h : Joins m m' a e b f mirror) : m'.size = m.size := by
  simpa [size] using congrArg Array.size h.traits

theorem Appends.size_eq {m m' : Atlas α} {id edge : Nat} {n : Node} {c : Connection}
    {place : Placement α} (h : Appends m m' id edge n c place) : m'.size = m.size + 1 := by
  simpa [size] using congrArg Array.size h.traits

/-- The tile that is placed. -/
theorem Appends.exists_node {m m' : Atlas α} {id edge : Nat} {n : Node} {c : Connection}
    {place : Placement α} (h : Appends m m' id edge n c place) :
    ∃ n', m'.nodes[m.size]? = some n' ∧ n'.traits =
      (c.shape, n.distance + 1, (n.parity != c.mirror), (m.tiling.shape c.shape).size) := by
  have ht := congrArg (·[m.size]?) h.traits
  have hs : m.size = (m.nodes.map Node.traits).size := by simp [size]
  simp only [Array.getElem?_map] at ht
  rw [hs, Array.getElem?_push_size, ← hs] at ht
  exact Option.map_eq_some_iff.mp ht

/-- A step across edge `edge` of tile `id` that answers `p`: the edge leads to `p`, which was there
or is the only new tile, one step farther away than `id`. -/
structure Stepped (m m' : Atlas α) (id edge p : Nat) : Prop where
  linked : Linked m'
  grows : Grows m m'
  link : ∃ l, m'.neighbour? id edge = some l ∧ l.node = p
  tile : (p < m.size ∧ m'.size = m.size) ∨
    (p = m.size ∧ m'.size = m.size + 1 ∧ ∃ n n', m.nodes[id]? = some n ∧
      m'.nodes[p]? = some n' ∧ n'.distance = n.distance + 1)

theorem lt_size_of_node {m : Atlas α} {a : Nat} {n : Node} (h : m.nodes[a]? = some n) :
    a < m.size :=
  (Array.getElem?_eq_some_iff.mp h).1

theorem Grows.lt_size {m m' : Atlas α} (hg : Grows m m') {a : Nat} (ha : a < m.size) :
    a < m'.size := by
  obtain ⟨n', hn', -⟩ := hg.nodes a _ (Array.getElem?_eq_getElem ha)
  exact lt_size_of_node hn'

/-- Tiles keep the distance that they store. -/
theorem Grows.distance_eq {m m' : Atlas α} (hg : Grows m m') {a : Nat} (ha : a < m.size) {n' : Node}
    (hn' : m'.nodes[a]? = some n') : ∃ n, m.nodes[a]? = some n ∧ n'.distance = n.distance := by
  have hn := Array.getElem?_eq_getElem (show a < m.nodes.size from ha)
  obtain ⟨n'', hn'', -, hd, -⟩ := hg.nodes a _ hn
  obtain rfl : n'' = n' := Option.some.inj (hn''.symm.trans hn')
  exact ⟨_, hn, hd⟩

/-- Links lead to tiles. -/
theorem Linked.target_lt {m : Atlas α} (hm : Linked m) {a e : Nat} {l : Link}
    (h : m.neighbour? a e = some l) : l.node < m.size := by
  obtain ⟨n, hn, -⟩ := neighbour?_eq_some_iff.mp (hm.back a e l h)
  exact lt_size_of_node hn

theorem Linked.neighbours_lt {m : Atlas α} (hm : Linked m) {a b : Nat} (h : b ∈ m.neighbours a) :
    b < m.size := by
  obtain ⟨e, l, hl, rfl⟩ := mem_neighbours.mp h
  exact hm.target_lt hl

section Steps

variable [Scalar α] {m m' : Atlas α}

theorem step_ok (ht : m.tiling.WellFormed) (hm : Linked m) {id edge p : Nat}
    (h : step id edge m = .ok p m') : Stepped m m' id edge p := by
  obtain ⟨hm', hg⟩ := step_linked ht hm id edge
  rw [finalState, h] at hm' hg
  have hfoot := hm.footprint ht id edge
  simp only [h] at hfoot
  split at hfoot
  · rename_i l hl
    obtain ⟨rfl, rfl⟩ := hfoot
    exact ⟨hm', hg, ⟨l, hl, rfl⟩, .inl ⟨hm.target_lt hl, rfl⟩⟩
  · obtain ⟨n, c, hn, -, ⟨q, f, hq, -, -, hj⟩ | ⟨rfl, place, happ⟩⟩ := hfoot
    · refine ⟨hm', hg, ?_, .inl ⟨lt_size_of_node hq, hj.size_eq⟩⟩
      have hlink := hj.links id edge
      by_cases hself : id = p ∧ edge = f
      · rw [if_pos hself] at hlink
        exact ⟨_, hlink, hself.1⟩
      · rw [if_neg hself, if_pos ⟨rfl, rfl⟩] at hlink
        exact ⟨_, hlink, rfl⟩
    · obtain ⟨n', hn', hd⟩ := happ.exists_node
      refine ⟨hm', hg, ?_, .inr ⟨rfl, happ.size_eq, n, n', hn, hn', congrArg (·.2.1) hd⟩⟩
      have hlink := happ.links id edge
      have hself : ¬ (id = m.size ∧ edge = c.edge) := fun h =>
        Nat.ne_of_lt (lt_size_of_node hn) h.1
      rw [if_neg hself, if_pos ⟨rfl, rfl⟩] at hlink
      exact ⟨_, hlink, rfl⟩

end Steps

/-! ### Atlases that have been expanded only -/

/-- The ball lists all tiles, in the order of their numbers.  No tile stores a distance greater than
`d`, and none stores one less than its link distance. -/
structure Fresh (m : Atlas α) (d : Nat) (b : Ball) : Prop where
  order : b.order.toList = List.range m.size
  seen : ∀ a, a ∈ b.seen ↔ a < m.size
  near : ∀ (a : Nat) (n : Node), m.nodes[a]? = some n → n.distance ≤ d
  rooted : ∀ (a : Nat) (n : Node), m.nodes[a]? = some n → m.Within n.distance a

theorem Fresh.mono {m : Atlas α} {d d' : Nat} {b : Ball} (h : Fresh m d b) (hd : d ≤ d') :
    Fresh m d' b :=
  { h with near := fun a n hn => Nat.le_trans (h.near a n hn) hd }

/-- A step from a tile that stores a distance of at most `d`. -/
theorem Fresh.step {m m' : Atlas α} {d id edge p : Nat} {b : Ball} (h : Fresh m (d + 1) b)
    (hid : ∀ n, m.nodes[id]? = some n → n.distance ≤ d) (hs : Stepped m m' id edge p) :
    Fresh m' (d + 1) (b.add p) := by
  -- The tiles of `m` are as they were.
  have hold : ∀ (a : Nat) (n' : Node), a < m.size → m'.nodes[a]? = some n' →
      n'.distance ≤ d + 1 ∧ m'.Within n'.distance a := by
    intro a n' ha hn'
    obtain ⟨n, hn, hd⟩ := hs.grows.distance_eq ha hn'
    rw [hd]
    exact ⟨h.near a n hn, (h.rooted a n hn).grows hs.grows⟩
  rcases hs.tile with ⟨hp, hsize⟩ | ⟨rfl, hsize, n, np, hn, hnp, hdist⟩
  · have hlt : ∀ {a : Nat} {n' : Node}, m'.nodes[a]? = some n' → a < m.size := fun hn' =>
      hsize ▸ lt_size_of_node hn'
    rw [Ball.add_of_mem ((h.seen p).mpr hp)]
    exact ⟨hsize ▸ h.order, fun a => hsize ▸ h.seen a, fun a n' hn' => (hold a n' (hlt hn') hn').1,
      fun a n' hn' => (hold a n' (hlt hn') hn').2⟩
  · rw [Ball.add_of_not_mem fun hp => Nat.lt_irrefl _ ((h.seen m.size).mp hp)]
    have hnew : np.distance ≤ d + 1 ∧ m'.Within np.distance m.size := by
      obtain ⟨l, hl, hlp⟩ := hs.link
      rw [hdist]
      exact ⟨Nat.succ_le_succ (hid n hn), hlp ▸ ((h.rooted id n hn).grows hs.grows).link hl⟩
    have hall : ∀ (a : Nat) (n' : Node), m'.nodes[a]? = some n' →
        n'.distance ≤ d + 1 ∧ m'.Within n'.distance a := by
      intro a n' hn'
      by_cases ha : a = m.size
      · subst ha
        obtain rfl : np = n' := Option.some.inj (hnp.symm.trans hn')
        exact hnew
      · have := lt_size_of_node hn'
        exact hold a n' (by omega) hn'
    refine ⟨?_, fun a => ?_, fun a n' hn' => (hall a n' hn').1, fun a n' hn' => (hall a n' hn').2⟩
    · rw [hsize, List.range_succ, ← h.order]
      simp
    · simp only [Std.HashSet.mem_insert, beq_iff_eq, h.seen, hsize]
      omega

/-- The tiles of the outermost ring are in the atlas. -/
def Ball.Placed (m : Atlas α) (b : Ball) : Prop := ∀ a ∈ b.ring, a < m.size

theorem Linked.spread_placed {m : Atlas α} (hm : Linked m) (b : Ball) : (b.spread m).Placed m := by
  intro a ha
  obtain ⟨new, -, hmem, -, hring, -⟩ :=
    Ball.foldl_add (b.ring.toList.flatMap m.neighbours) { b with ring := #[] }
  have hnew : a ∈ new := by
    have : a ∈ (b.spread m).ring.toList := Array.mem_toList_iff.mpr ha
    rw [Ball.spread, hring] at this
    simpa using this
  obtain ⟨c, -, hc⟩ := List.mem_flatMap.mp ((hmem a).mp hnew).1
  exact hm.neighbours_lt hc

/-! ### Expansions that succeed -/

section Expansion

variable [Scalar α]

/-- The edges of a tile are resolved one after another. -/
theorem edges_ok {id : Nat} (es : List Nat) {b b' : Ball} {m m' : Atlas α}
    (ht : m.tiling.WellFormed) (hm : Linked m) (hid : id < m.size)
    (h : (es.foldlM (fun b e => return b.add (← step id e)) b : Walk α Ball) m = .ok b' m') :
    Linked m' ∧ Grows m m' ∧ (∀ e ∈ es, ∃ l, m'.neighbour? id e = some l) ∧
    b' = (es.filterMap fun e => (m'.neighbour? id e).map (·.node)).foldl Ball.add b ∧
    ∀ d, Fresh m (d + 1) b → (∀ n, m.nodes[id]? = some n → n.distance ≤ d) →
      Fresh m' (d + 1) b' := by
  induction es generalizing b m with
  | nil =>
      cases h
      exact ⟨hm, .refl _, by simp, rfl, fun d hf _ => hf⟩
  | cons e es ih =>
      rw [List.foldlM_cons] at h
      obtain ⟨b₁, m₁, h₁, h⟩ := bind_ok.mp h
      obtain ⟨p, _, hstep, h₁⟩ := bind_ok.mp h₁
      cases h₁
      have hs := step_ok ht hm hstep
      obtain ⟨hm', hg, hes, hb', hfresh⟩ :=
        ih (hs.grows.tiling ▸ ht) hs.linked (hs.grows.lt_size hid) h
      obtain ⟨l, hl, rfl⟩ := hs.link
      have hl' := hg.links id e l hl
      refine ⟨hm', hs.grows.trans hg, ?_, ?_, fun d hf hd => ?_⟩
      · exact List.forall_mem_cons.mpr ⟨⟨l, hl'⟩, hes⟩
      · rw [hb', List.filterMap_cons, hl', Option.map_some, List.foldl_cons]
      · refine hfresh d (hf.step hd hs) fun n' hn' => ?_
        obtain ⟨n, hn, heq⟩ := hs.grows.distance_eq hid hn'
        exact heq ▸ hd n hn

theorem visit_eq (b : Ball) (id : Nat) (m : Atlas α) : (visit b id : Walk α Ball) m =
    ((List.range (((m.nodes[id]?).map (·.degree)).getD 0)).foldlM
      (fun b e => return b.add (← step id e)) b : Walk α Ball) m := rfl

/-- A visit resolves all edges of a tile and adds its neighbours. -/
theorem visit_ok {id : Nat} {b b' : Ball} {m m' : Atlas α} (ht : m.tiling.WellFormed)
    (hm : Linked m) (hid : id < m.size) (h : (visit b id : Walk α Ball) m = .ok b' m') :
    Linked m' ∧ Grows m m' ∧ m'.Resolved id ∧ b' = (m'.neighbours id).foldl Ball.add b ∧
    ∀ d, Fresh m (d + 1) b → (∀ n, m.nodes[id]? = some n → n.distance ≤ d) →
      Fresh m' (d + 1) b' := by
  have hn := Array.getElem?_eq_getElem (show id < m.nodes.size from hid)
  rw [visit_eq, hn, Option.map_some, Option.getD_some] at h
  obtain ⟨hm', hg, hes, hb', hfresh⟩ := edges_ok _ ht hm hid h
  obtain ⟨n', hn', -, -, -, hd⟩ := hg.nodes id _ hn
  refine ⟨hm', hg, ⟨n', hn', fun e he => hes e (List.mem_range.mpr (hd ▸ he))⟩, ?_, hfresh⟩
  rw [hb', neighbours, hn', Option.map_some, Option.getD_some, hd]

/-- The tiles of a ring are visited one after another. -/
theorem ring_ok (ids : List Nat) {b b' : Ball} {m m' : Atlas α} (ht : m.tiling.WellFormed)
    (hm : Linked m) (hids : ∀ id ∈ ids, id < m.size)
    (h : (ids.foldlM visit b : Walk α Ball) m = .ok b' m') :
    Linked m' ∧ Grows m m' ∧ (∀ id ∈ ids, m'.Resolved id) ∧
    b' = (ids.flatMap m'.neighbours).foldl Ball.add b ∧
    ∀ d, Fresh m (d + 1) b → (∀ id ∈ ids, ∀ n, m.nodes[id]? = some n → n.distance ≤ d) →
      Fresh m' (d + 1) b' := by
  induction ids generalizing b m with
  | nil =>
      cases h
      exact ⟨hm, .refl _, by simp, rfl, fun d hf _ => hf⟩
  | cons id ids ih =>
      obtain ⟨hid, hids⟩ := List.forall_mem_cons.mp hids
      rw [List.foldlM_cons] at h
      obtain ⟨b₁, m₁, h₁, h⟩ := bind_ok.mp h
      obtain ⟨hm₁, hg₁, hr₁, hb₁, hfresh₁⟩ := visit_ok ht hm hid h₁
      obtain ⟨hm', hg, hr, hb', hfresh⟩ :=
        ih (hg₁.tiling ▸ ht) hm₁ (fun a ha => hg₁.lt_size (hids a ha)) h
      refine ⟨hm', hg₁.trans hg, ?_, ?_, fun d hf hd => ?_⟩
      · exact List.forall_mem_cons.mpr ⟨hr₁.grows hg, hr⟩
      · rw [hb', hb₁, List.flatMap_cons, List.foldl_append, hr₁.neighbours_eq hg]
      · refine hfresh d (hfresh₁ d hf (hd id List.mem_cons_self)) fun a ha n' hn' => ?_
        obtain ⟨n, hn, heq⟩ := hg₁.distance_eq (hids a ha) hn'
        exact heq ▸ hd a (List.mem_cons_of_mem id ha) n hn

/-- **Rings are those of the final atlas.**  An expansion that succeeds resolves all edges of the
tiles of every ring but the last, and it lists the tiles as the ball grows in the atlas that it
leaves. -/
theorem addRings_ok (k : Nat) {b b' : Ball} {m m' : Atlas α} (ht : m.tiling.WellFormed)
    (hm : Linked m) (hb : b.Placed m) (h : (addRings k b : Walk α Ball) m = .ok b' m') :
    Linked m' ∧ Grows m m' ∧ b' = b.spreads m' k ∧
    (∀ j, j < k → ∀ a ∈ (b.spreads m' j).ring, m'.Resolved a) ∧
    ∀ d, Fresh m d b → Fresh m' (d + k) b' ∧ ∀ j, j ≤ k → ∀ a ∈ (b.spreads m' j).order,
      ∀ n, m'.nodes[a]? = some n → n.distance ≤ d + j := by
  induction k generalizing b m with
  | zero =>
      cases h
      refine ⟨hm, .refl _, rfl, fun j hj => absurd hj (Nat.not_lt_zero j), fun d hf => ⟨hf, ?_⟩⟩
      intro j hj a _ n hn
      exact Nat.le_trans (hf.near a n hn) (Nat.le_add_right d j)
  | succ k ih =>
      unfold addRings at h
      split at h
      · rename_i hempty
        cases h
        refine ⟨hm, .refl _, (Ball.spreads_of_isEmpty hempty _).symm, fun j _ a ha => ?_,
          fun d hf => ⟨hf.mono (Nat.le_add_right _ _), fun j _ a _ n hn => ?_⟩⟩
        · rw [Ball.spreads_of_isEmpty hempty, Array.isEmpty_iff.mp hempty] at ha
          exact absurd ha (Array.not_mem_empty a)
        · exact Nat.le_trans (hf.near a n hn) (Nat.le_add_right d j)
      · obtain ⟨b₁, m₁, h₁, h⟩ := bind_ok.mp h
        rw [← Array.foldlM_toList] at h₁
        obtain ⟨hm₁, hg₁, hr₁, hb₁, hfresh₁⟩ :=
          ring_ok _ ht hm (fun a ha => hb a (Array.mem_toList_iff.mp ha)) h₁
        have hr₁ : ∀ a ∈ b.ring, m₁.Resolved a := fun a ha => hr₁ a (Array.mem_toList_iff.mpr ha)
        change b₁ = b.spread m₁ at hb₁
        subst hb₁
        obtain ⟨hm', hg, hb', hr, hfresh⟩ :=
          ih (hg₁.tiling ▸ ht) hm₁ (hm₁.spread_placed b) h
        have hspread : b.spread m' = b.spread m₁ := Ball.spread_grows hg hr₁
        refine ⟨hm', hg₁.trans hg, ?_, fun j hj a ha => ?_, fun d hf => ?_⟩
        · rw [Ball.spreads, hspread, hb']
        · cases j with
          | zero => exact (hr₁ a ha).grows hg
          | succ j =>
              rw [Ball.spreads, hspread] at ha
              exact hr j (Nat.lt_of_succ_lt_succ hj) a ha
        · have hf₁ : Fresh m₁ (d + 1) (b.spread m₁) := by
            refine hfresh₁ d ?_ fun a _ n hn => hf.near a n hn
            exact { hf.mono (Nat.le_succ d) with }
          obtain ⟨hf', hd⟩ := hfresh (d + 1) hf₁
          refine ⟨by rwa [Nat.add_right_comm] at hf', fun j hj a ha n hn => ?_⟩
          cases j with
          | zero =>
              have ha' : a < m.size := by
                have : a ∈ b.order.toList := Array.mem_toList_iff.mpr ha
                rw [hf.order] at this
                exact List.mem_range.mp this
              obtain ⟨n₀, hn₀, heq⟩ := (hg₁.trans hg).distance_eq ha' hn
              exact heq ▸ hf.near a n₀ hn₀
          | succ j =>
              rw [Ball.spreads, hspread] at ha
              have := hd j (Nat.le_of_succ_le_succ hj) a ha n hn
              omega

/-! ### Expansions of what has been resolved -/

theorem visit_of_resolved {m : Atlas α} {a : Nat} (h : m.Resolved a) (b : Ball) :
    (visit b a : Walk α Ball) m = .ok ((m.neighbours a).foldl Ball.add b) m := by
  obtain ⟨n, hn, he⟩ := h
  have hedges : ∀ (es : List Nat) (b : Ball), (∀ e ∈ es, ∃ l, m.neighbour? a e = some l) →
      (es.foldlM (fun b e => return b.add (← step a e)) b : Walk α Ball) m =
        .ok ((es.filterMap fun e => (m.neighbour? a e).map (·.node)).foldl Ball.add b) m := by
    intro es
    induction es with
    | nil => exact fun b _ => rfl
    | cons e es ih =>
        intro b hes
        obtain ⟨⟨l, hl⟩, hes⟩ := List.forall_mem_cons.mp hes
        rw [List.foldlM_cons, List.filterMap_cons, hl]
        simp only [Bind.bind, EStateM.bind, step_of_resolved hl]
        exact ih (b.add l.node) hes
  rw [visit_eq, neighbours, hn, Option.map_some, Option.getD_some]
  exact hedges (List.range n.degree) b fun e hlt => he e (List.mem_range.mp hlt)

theorem ring_of_resolved {m : Atlas α} (ids : List Nat) (b : Ball)
    (h : ∀ a ∈ ids, m.Resolved a) : (ids.foldlM visit b : Walk α Ball) m =
      .ok ((ids.flatMap m.neighbours).foldl Ball.add b) m := by
  induction ids generalizing b with
  | nil => rfl
  | cons a ids ih =>
      obtain ⟨ha, hids⟩ := List.forall_mem_cons.mp h
      rw [List.foldlM_cons, List.flatMap_cons, List.foldl_append]
      simp only [Bind.bind, EStateM.bind, visit_of_resolved ha]
      exact ih _ hids

/-- An expansion changes nothing if all edges it crosses are resolved. -/
theorem addRings_of_resolved {m : Atlas α} (k : Nat) (b : Ball)
    (h : ∀ j, j < k → ∀ a ∈ (b.spreads m j).ring, m.Resolved a) :
    (addRings k b : Walk α Ball) m = .ok (b.spreads m k) m := by
  induction k generalizing b with
  | zero => rfl
  | succ k ih =>
      unfold addRings
      split
      · rename_i hempty
        rw [Ball.spreads_of_isEmpty hempty]
        rfl
      · have hring := ring_of_resolved b.ring.toList { b with ring := #[] } fun a ha =>
          h 0 (Nat.succ_pos k) a (Array.mem_toList_iff.mp ha)
        rw [← Array.foldlM_toList]
        simp only [Bind.bind, EStateM.bind, hring]
        exact ih (b.spread m) fun j hj => h (j + 1) (Nat.succ_lt_succ hj)

/-- An expansion is the growth of the ball around the origin. -/
theorem expand_ok {r : Nat} {m m' : Atlas α} {l : Array Nat} (ht : m.tiling.WellFormed)
    (hm : Linked m) (h₀ : 0 < m.size) (h : (expand r : Walk α (Array Nat)) m = .ok l m') :
    Linked m' ∧ Grows m m' ∧ l = (Ball.start.spreads m' r).order ∧
    (∀ j, j < r → ∀ a ∈ (Ball.start.spreads m' j).ring, m'.Resolved a) ∧
    (Fresh m 0 .start → Fresh m' r (Ball.start.spreads m' r) ∧
      ∀ j, j ≤ r → ∀ a ∈ (Ball.start.spreads m' j).order, ∀ n, m'.nodes[a]? = some n →
        n.distance ≤ j) := by
  obtain ⟨b, _, hb, h⟩ := bind_ok.mp h
  cases h
  have hplaced : Ball.start.Placed m := by
    intro a ha
    rw [Ball.start, Array.mem_singleton] at ha
    exact ha ▸ h₀
  obtain ⟨hm', hg, rfl, hr, hfresh⟩ := addRings_ok r ht hm hplaced hb
  refine ⟨hm', hg, rfl, hr, fun hf => ?_⟩
  simpa using hfresh 0 hf

theorem expand_of_resolved {r : Nat} {m : Atlas α}
    (h : ∀ j, j < r → ∀ a ∈ (Ball.start.spreads m j).ring, m.Resolved a) :
    (expand r : Walk α (Array Nat)) m = .ok (Ball.start.spreads m r).order m := by
  have hrings := addRings_of_resolved r Ball.start h
  unfold expand
  simp only [Bind.bind, EStateM.bind]
  rw [← Ball.start, hrings]
  rfl

/-- The atlas of a tiling has one tile, the origin. -/
theorem ofTiling_nodes {t : Tiling α} {m : Atlas α} (h : ofTiling t = .ok m) :
    ∃ degree, m.nodes = #[Node.fresh 0 degree 0 false] := by
  obtain ⟨first, -, rfl⟩ := ofTiling_ok h
  exact ⟨_, rfl⟩

theorem ofTiling_isFresh {t : Tiling α} {m : Atlas α} (h : ofTiling t = .ok m) :
    Fresh m 0 .start := by
  obtain ⟨degree, hnodes⟩ := ofTiling_nodes h
  have hsize : m.size = 1 := congrArg Array.size hnodes
  have hnode : ∀ (a : Nat) (n : Node), m.nodes[a]? = some n → a = 0 ∧ n.distance = 0 := by
    intro a n hn
    obtain rfl : a = 0 := Nat.lt_one_iff.mp (hsize ▸ lt_size_of_node hn)
    rw [hnodes] at hn
    cases hn
    exact ⟨rfl, rfl⟩
  refine ⟨by rw [hsize]; rfl, fun a => ?_, fun a n hn => Nat.le_of_eq (hnode a n hn).2,
    fun a n hn => ?_⟩
  · rw [(Ball.start_isExact m).mem_seen, within_zero, hsize, Nat.lt_one_iff]
  · obtain ⟨rfl, hd⟩ := hnode a n hn
    rw [hd]
    exact .origin 0

/-- **Expansion is breadth-first search.**  If an expansion after any calls succeeds, then in the
atlas that it leaves the tiles listed are those at link distance at most `r`, each once, the origin
first and the nearer ones before the farther ones.  The tiles nearer than `r` are resolved, and to
expand again, to the same or to a smaller radius, changes nothing and lists the same tiles or the
first of them.  In a new atlas the tiles are listed in the order of their numbers, there are no
others, and every tile stores its link distance. -/
theorem expand_isBreadthFirst {t : Tiling α} {m₀ m' : Atlas α} (ht : t.WellFormed)
    (h₀ : ofTiling t = .ok m₀) (calls : List Call) {r : Nat} {l : Array Nat}
    (h : expand r (m₀.after calls) = .ok l m') :
    (l.toList.head? = some 0 ∧ l.toList.Nodup ∧
      (∀ a, a ∈ l ↔ ∃ d ≤ r, m'.IsDistance d a) ∧
      l.toList.Pairwise fun a b => ∀ i j, m'.IsDistance i a → m'.IsDistance j b → i ≤ j) ∧
    (∀ d < r, ∀ a, m'.IsDistance d a → ∃ n, m'.nodes[a]? = some n ∧
      ∀ e < n.degree, ∃ link, m'.neighbour? a e = some link) ∧
    expand r m' = .ok l m' ∧
    (∀ r' ≤ r, ∃ l', expand r' m' = .ok l' m' ∧ l'.toList <+: l.toList) ∧
    (calls = [] → l = Array.range m'.size ∧
      ∀ a n, m'.nodes[a]? = some n → m'.IsDistance n.distance a) := by
  obtain ⟨htiling, hlinked⟩ := ofTiling_linked h₀
  obtain ⟨hm, hg₀⟩ := after_linked (htiling ▸ ht) hlinked calls
  have hfresh₀ := ofTiling_isFresh h₀
  have hsize : 0 < (m₀.after calls).size :=
    hg₀.lt_size ((hfresh₀.seen 0).mp (((Ball.start_isExact m₀).mem_seen 0).mpr (.origin 0)))
  have ht' : (m₀.after calls).tiling.WellFormed := by rwa [hg₀.tiling, htiling]
  obtain ⟨hm', hg, rfl, hr, hfresh⟩ := expand_ok ht' hm hsize h
  have hball := fun k => Ball.spreads_isExact m' k
  refine ⟨⟨(hball r).head, (hball r).nodup, fun a => ?_, (hball r).sorted⟩, fun d hd a ha => ?_,
    expand_of_resolved hr, fun r' hr' => ?_, ?_⟩
  · rw [(hball r).mem_order, within_iff]
  · exact hr d hd a (((hball d).mem_ring a).mpr ha)
  · exact ⟨_, expand_of_resolved fun j hj => hr j (Nat.lt_of_lt_of_le hj hr'),
      Ball.order_prefix m' hr'⟩
  · rintro rfl
    obtain ⟨hf, hnear⟩ := hfresh hfresh₀
    have hlist : (Ball.start.spreads m' r).order = Array.range m'.size :=
      Array.toList_inj.mp (by rw [hf.order, Array.toList_range])
    refine ⟨hlist, fun a n hn => ?_⟩
    have hin : a ∈ (Ball.start.spreads m' r).order := by
      rw [hlist, Array.mem_range]
      exact lt_size_of_node hn
    obtain ⟨d, hd, hda⟩ := within_iff.mp (((hball r).mem_order a).mp hin)
    have hle : n.distance ≤ d := hnear d hd a (((hball d).mem_order a).mpr hda.within) n hn
    have hge : d ≤ n.distance := hda.least _ (hf.rooted a n hn)
    exact Nat.le_antisymm hle hge ▸ hda

end Expansion

/-- Two disks of the affine plane with one edge each, glued along it. -/
def pillow : Tiling Float :=
  let disk (c : Connection) : Shape Float :=
    { (Shape.empty : Shape Float) with
      vertices := #[Point.origin]
      edges := #[.finite 1]
      connections := #[c] }
  { (Tiling.empty : Tiling Float) with
    geometry := .affine
    isCombinatorial := true
    shapes := #[disk ⟨1, 0, false⟩, disk ⟨0, 0, false⟩] }

/-- An expansion of `pillow` places the second disk and finds the first one behind it. -/
theorem expand_pillow {m₀ : Atlas Float} (h₀ : ofTiling pillow = .ok m₀) :
    ∃ m', expand 2 m₀ = .ok #[0, 1] m' := by
  obtain ⟨htiling, hlinked⟩ := ofTiling_linked h₀
  have hnodes : m₀.nodes = #[Node.fresh 0 1 0 false] := by cases h₀; rfl
  have hfirst : m₀.nodes[0]? = some (Node.fresh 0 1 0 false) := by rw [hnodes]; rfl
  obtain ⟨motion, hmotion⟩ := hlinked.adjacencyOf_of_isCombinatorial (htiling ▸ by decide)
    (htiling ▸ rfl) hfirst (show 0 < 1 by decide) rfl
  obtain ⟨m₁, hstep, hnodes₁⟩ : ∃ m₁, step 0 0 m₀ = .ok 1 m₁ ∧ m₁.nodes =
      #[⟨0, 0, false, #[some ⟨1, 0, false⟩]⟩, ⟨1, 1, false, #[some ⟨0, 0, false⟩]⟩] := by
    unfold step
    simp only [hmotion]
    cases h₀
    exact ⟨_, rfl, rfl⟩
  have hback : step 1 0 m₁ = .ok 0 m₁ := by
    have : m₁.neighbour? 1 0 = some ⟨0, 0, false⟩ := by rw [neighbour?, hnodes₁]; rfl
    exact step_of_resolved this
  refine ⟨m₁, ?_⟩
  simp [expand, addRings, visit_eq, hnodes, hnodes₁, hstep, hback, Bind.bind, EStateM.bind,
    Pure.pure, EStateM.pure, Node.degree, Node.fresh, List.range, List.range.loop, Ball.add]

theorem expand_isBreadthFirst_pillow : pillow.WellFormed ∧ ∃ m₀ m', ofTiling pillow = .ok m₀ ∧
    expand 2 m₀ = .ok #[0, 1] m' ∧ expand 2 m' = .ok #[0, 1] m' ∧
    ∀ (a : Nat) (n : Node), m'.nodes[a]? = some n → m'.IsDistance n.distance a := by
  have ht : pillow.WellFormed := by decide
  obtain ⟨m₀, h₀⟩ : ∃ m₀, ofTiling pillow = .ok m₀ := ⟨_, rfl⟩
  obtain ⟨m', h⟩ := expand_pillow h₀
  obtain ⟨-, -, hagain, -, hfresh⟩ := expand_isBreadthFirst ht h₀ [] h
  exact ⟨ht, m₀, m', h₀, h, hagain, (hfresh rfl).2⟩

end Atlas

end Mosaic
