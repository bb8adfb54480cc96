import Mosaic.Proofs.Atlas.BreadthFirst
import Mosaic.Proofs.Atlas.Scan

/-!
# Atlas — the search for a tile of an affine tiling

In an affine tiling places cannot be compared by cells, so the tile behind an unresolved edge is
searched for among the tiles that are there, breadth-first from the tile that the edge belongs to.
A search has a list of tiles, each with the motion along the way on which it was found (`Traced`),
of which it has gone through the first ones (`Searching`).  To go through one more is to list the
tiles that its links lead to and that are not listed (`Widened`).  The search stops at the first
tile that fits, or when it has gone through as many tiles as it may (`searchAffine_ok`).
-/

namespace Mosaic.Atlas

variable {α : Type} [Scalar α] {m : Atlas α} {s id edge : Nat} {c : Connection} {goal : Motion α}

/-- The tile `x.1` has the shape that the gluing `c` names, the edge that it names is unresolved,
and the motion `x.2` by which the tile is seen is close to `goal`. -/
def Fits (m : Atlas α) (c : Connection) (goal : Motion α) (x : Nat × Motion α) : Prop :=
  ∃ node, m.nodes[x.1]? = some node ∧ node.shape = c.shape ∧ node.link? c.edge = none ∧
    x.2.approxEq goal = true

/-- Every tile of the list but the first, which is `s`, has been found across the first link that
leads to it from the first tile of the list that has one, and its motion is that of this tile and
then across the link. -/
structure Traced (m : Atlas α) (s : Nat) (found : List (Nat × Motion α)) : Prop where
  first : ∀ x, found[0]? = some x → x = (s, Motion.identity)
  path : ∀ {k : Nat} {x : Nat × Motion α}, 0 < k → found[k]? = some x → ∃ i y e l adjacency,
    i < k ∧ found[i]? = some y ∧ m.neighbour? y.1 e = some l ∧ l.node = x.1 ∧
    m.adjacencyOf y.1 e = .ok adjacency ∧ x.2 = y.2 * adjacency ∧
    (∀ j z, j < i → found[j]? = some z → x.1 ∉ m.neighbours z.1) ∧
    ∀ e' l', e' < e → m.neighbour? y.1 e' = some l' → l'.node ≠ x.1

/-- What is listed first is traced by itself. -/
theorem Traced.take {found : List (Nat × Motion α)} (h : m.Traced s found) (n : Nat) :
    m.Traced s (found.take n) := by
  have hof : ∀ {k : Nat} {x : Nat × Motion α}, (found.take n)[k]? = some x →
      k < n ∧ found[k]? = some x := by
    intro k x hx
    rw [List.getElem?_take] at hx
    split at hx
    · exact ⟨‹_›, hx⟩
    · cases hx
  refine ⟨fun x hx => h.first x (hof hx).2, fun hk hx => ?_⟩
  obtain ⟨hkn, hx⟩ := hof hx
  obtain ⟨i, y, e, l, adjacency, hi, hy, hl, hlx, ha, hm, hbefore, hedge⟩ := h.path hk hx
  refine ⟨i, y, e, l, adjacency, hi, ?_, hl, hlx, ha, hm, fun j z hj hz => ?_, hedge⟩
  · rw [List.getElem?_take_of_lt (Nat.lt_trans hi hkn), hy]
  · exact hbefore j z hj (hof hz).2

/-! ### Going through a tile -/

/-- The search `S` with the tiles added that the first `d` edges of tile `h` lead to, where `h` is
seen by the motion `t`. -/
structure Widened (m : Atlas α) (h : Nat) (t : Motion α) (d : Nat) (S S' : Search α)
    (added : List (Nat × Motion α)) : Prop where
  queue : S'.queue.toList = S.queue.toList ++ added
  seen : ∀ a, a ∈ S'.seen ↔ a ∈ S.seen ∨ a ∈ added.map Prod.fst
  nodup : (added.map Prod.fst).Nodup
  fresh : ∀ a ∈ added.map Prod.fst, a ∉ S.seen
  links : ∀ e l, e < d → m.neighbour? h e = some l → l.node ∈ S'.seen
  found : ∀ x ∈ added, ∃ e l adjacency, m.neighbour? h e = some l ∧ l.node = x.1 ∧
    m.adjacencyOf h e = .ok adjacency ∧ x.2 = t * adjacency ∧
    ∀ e' l', e' < e → m.neighbour? h e' = some l' → l'.node ≠ x.1

theorem widened_zero (h : Nat) (t : Motion α) (S : Search α) : m.Widened h t 0 S S [] where
  queue := (List.append_nil _).symm
  seen a := by simp
  nodup := List.nodup_nil
  fresh a ha := by cases ha
  links e l he := absurd he (Nat.not_lt_zero e)
  found x hx := by cases hx

/-- The next edge leads nowhere, or to a tile that is listed. -/
theorem Widened.skip {h d : Nat} {t : Motion α} {S S' : Search α} {added : List (Nat × Motion α)}
    (hw : m.Widened h t d S S' added) (hd : ∀ l, m.neighbour? h d = some l → l.node ∈ S'.seen) :
    m.Widened h t (d + 1) S S' added :=
  { hw with
    links := fun e l he hl => by
      rcases Nat.lt_succ_iff_lt_or_eq.mp he with he | rfl
      · exact hw.links e l he hl
      · exact hd l hl }

/-- The next edge leads to a tile that is not listed. -/
theorem Widened.push {h d : Nat} {t : Motion α} {S S' : Search α} {added : List (Nat × Motion α)}
    (hw : m.Widened h t d S S' added) {l : Link} {adjacency : Motion α}
    (hl : m.neighbour? h d = some l) (hnew : l.node ∉ S'.seen)
    (ha : m.adjacencyOf h d = .ok adjacency) :
    m.Widened h t (d + 1) S
      ⟨S'.queue.push (l.node, t * adjacency), S'.seen.insert l.node⟩
      (added ++ [(l.node, t * adjacency)]) := by
  have hseen : ∀ a, a ∈ S'.seen.insert l.node ↔ a = l.node ∨ a ∈ S'.seen := by
    intro a
    rw [Std.HashSet.mem_insert, beq_iff_eq, eq_comm]
  have hold : l.node ∉ S.seen ∧ l.node ∉ added.map Prod.fst :=
    not_or.mp (mt (hw.seen l.node).mpr hnew)
  constructor
  case queue => rw [Array.toList_push, hw.queue, List.append_assoc]
  case seen =>
    intro a
    rw [hseen, hw.seen, List.map_append, List.mem_append, List.map_singleton, List.mem_singleton]
    tauto
  case nodup =>
    rw [List.map_append, List.map_singleton, List.nodup_append]
    refine ⟨hw.nodup, List.nodup_singleton _, fun a ha b hb hab => ?_⟩
    rw [List.mem_singleton] at hb
    rw [hab, hb] at ha
    exact hold.2 ha
  case fresh =>
    intro a ha
    rw [List.map_append, List.mem_append, List.map_singleton, List.mem_singleton] at ha
    rcases ha with ha | rfl
    · exact hw.fresh a ha
    · exact hold.1
  case links =>
    intro e l' he hl'
    rw [hseen]
    rcases Nat.lt_succ_iff_lt_or_eq.mp he with he | rfl
    · exact .inr (hw.links e l' he hl')
    · exact .inl (congrArg Link.node (Option.some.inj (hl'.symm.trans hl)))
  case found =>
    intro x hx
    rcases List.mem_append.mp hx with hx | hx
    · exact hw.found x hx
    · obtain rfl := List.mem_singleton.mp hx
      -- The tiles that earlier edges lead to are listed.
      refine ⟨d, l, adjacency, hl, rfl, ha, rfl, fun e' l' he' hl' heq => hnew ?_⟩
      have : l'.node = l.node := heq
      exact this ▸ hw.links e' l' he' hl'

/-- To go through a tile is to add what its edges lead to. -/
theorem extendSearch_ok {h : Nat} {node : Node} {t : Motion α} {S S' : Search α}
    (hnode : m.nodes[h]? = some node) (hS : m.extendSearch h t node S = .ok S') :
    ∃ added, m.Widened h t node.degree S S' added := by
  unfold extendSearch at hS
  generalize node.degree = d at hS
  induction d generalizing S' with
  | zero =>
      cases hS
      exact ⟨[], widened_zero h t S⟩
  | succ d ih =>
      rw [List.range_succ, List.foldlM_append] at hS
      obtain ⟨S₁, hS₁, hS⟩ := except_bind_ok hS
      obtain ⟨added, hw⟩ := ih hS₁
      rw [List.foldlM_cons] at hS
      obtain ⟨S₂, hstep, hS⟩ := except_bind_ok hS
      cases hS
      rw [← neighbour?_eq hnode] at hstep
      split at hstep
      · rename_i hl
        cases hstep
        exact ⟨added, hw.skip fun l' hl' => by rw [hl] at hl'; cases hl'⟩
      · rename_i l hl
        split at hstep
        · rename_i hmem
          cases hstep
          refine ⟨added, hw.skip fun l' hl' => ?_⟩
          obtain rfl : l = l' := Option.some.inj (hl.symm.trans hl')
          exact hmem
        · rename_i hnew
          obtain ⟨adjacency, ha, hstep⟩ := except_bind_ok hstep
          cases hstep
          exact ⟨_, hw.push hl hnew ha⟩

/-! ### Going on -/

/-- A search from tile `s` that has gone through its first `i` tiles. -/
structure Searching (m : Atlas α) (s i : Nat) (S : Search α) : Prop where
  partway : m.Partway s i (S.queue.toList.map Prod.fst)
  seen : ∀ a, a ∈ S.seen ↔ a ∈ S.queue.toList.map Prod.fst
  traced : m.Traced s S.queue.toList

theorem searching_start (hs : s < m.size) : m.Searching s 0
    ⟨#[(s, Motion.identity)], Std.HashSet.emptyWithCapacity.insert s⟩ where
  partway := partway_start hs
  seen a := by
    rw [Std.HashSet.mem_insert, beq_iff_eq, eq_comm]
    simp
  traced := by
    refine ⟨fun x hx => (Option.some.inj hx).symm, fun {k x} hk hx => ?_⟩
    rw [List.getElem?_eq_none (Nat.succ_le_of_lt hk)] at hx
    cases hx

/-- What a tile adds is what it is linked to and has not been listed before. -/
theorem Searching.mem_added {i h : Nat} {t : Motion α} {node : Node} {S S' : Search α}
    {added : List (Nat × Motion α)} (hS : m.Searching s i S) (hnode : m.nodes[h]? = some node)
    (hw : m.Widened h t node.degree S S' added) (b : Nat) : b ∈ added.map Prod.fst ↔
      b ∈ m.neighbours h ∧ b ∉ S.queue.toList.map Prod.fst := by
  rw [← hS.seen]
  constructor
  · intro hb
    obtain ⟨x, hx, rfl⟩ := List.mem_map.mp hb
    obtain ⟨e, l, -, hl, hlx, -⟩ := hw.found x hx
    exact ⟨mem_neighbours.mpr ⟨e, l, hl, hlx⟩, hw.fresh x.1 hb⟩
  · rintro ⟨hb, hnot⟩
    obtain ⟨e, l, hl, rfl⟩ := mem_neighbours.mp hb
    have he : e < node.degree := Node.lt_degree_of_link? ((neighbour?_eq hnode e).symm.trans hl)
    exact ((hw.seen l.node).mp (hw.links e l he hl)).resolve_left hnot

/-- A search goes through its next tile. -/
theorem Searching.extend (hm : Linked m) {i h : Nat} {t : Motion α} {node : Node} {S S' : Search α}
    {added : List (Nat × Motion α)} (hS : m.Searching s i S)
    (hi : S.queue.toList[i]? = some (h, t)) (hnode : m.nodes[h]? = some node)
    (hw : m.Widened h t node.degree S S' added) : m.Searching s (i + 1) S' := by
  have hlt : i < S.queue.toList.length := (List.getElem?_eq_some_iff.mp hi).1
  have hc : (S.queue.toList.map Prod.fst)[i]? = some h := by rw [List.getElem?_map, hi]; rfl
  have hold : ∀ {j : Nat} {x : Nat × Motion α}, S.queue.toList[j]? = some x →
      S'.queue.toList[j]? = some x := fun h => by
    rw [hw.queue, List.getElem?_append_left (List.getElem?_eq_some_iff.mp h).1, h]
  -- What stands at a place of the old list stands there still.
  have hkept : ∀ {j : Nat} {x : Nat × Motion α}, j < S.queue.toList.length →
      S'.queue.toList[j]? = some x → S.queue.toList[j]? = some x := fun hj h => by
    rwa [hw.queue, List.getElem?_append_left hj] at h
  have hnew := hS.mem_added hnode hw
  constructor
  case partway =>
    rw [hw.queue, List.map_append]
    exact hS.partway.extend hm hc hw.nodup hnew
  case seen =>
    intro a
    rw [hw.seen, hS.seen, hw.queue, List.map_append, List.mem_append]
  case traced =>
    refine ⟨fun x hx => hS.traced.first x (hkept (by omega) hx), fun {k x} hk hx => ?_⟩
    rw [hw.queue] at hx
    obtain ⟨hlen, hx⟩ | ⟨hlen, hx⟩ := getElem?_append_cases hx
    · obtain ⟨j, y, e, l, adjacency, hj, hy, hl, hlx, ha, hmotion, hbefore, hedge⟩ :=
        hS.traced.path hk hx
      refine ⟨j, y, e, l, adjacency, hj, hold hy, hl, hlx, ha, hmotion, fun j' z hj' hz => ?_,
        hedge⟩
      exact hbefore j' z hj' (hkept (by omega) hz)
    · obtain ⟨e, l, adjacency, hl, hlx, ha, hmotion, hedge⟩ := hw.found x hx
      refine ⟨i, (h, t), e, l, adjacency, by omega, hold hi, hl, hlx, ha, hmotion,
        fun j z hj hz hxz => ?_, hedge⟩
      -- An earlier tile that led here would have put it on the list.
      have hz' : (S.queue.toList.map Prod.fst)[j]? = some z.1 := by
        rw [List.getElem?_map, hkept (by omega) hz]
        rfl
      exact ((hnew x.1).mp (List.mem_map_of_mem hx)).2 (hS.partway.closed hj hz' hxz)

/-- The test of the search for an edge that is unresolved. -/
theorem fits_iff (hm : Linked m) (hfree : m.neighbour? id edge = none) {h : Nat} {t : Motion α}
    {node : Node} (hnode : m.nodes[h]? = some node) : m.Fits c goal (h, t) ↔
      (node.shape == c.shape && t.approxEq goal && node.canLink c.edge id edge) = true := by
  rw [Bool.and_eq_true, Bool.and_eq_true, beq_iff_eq]
  constructor
  · rintro ⟨node', hnode', hshape, hlink, ht⟩
    obtain rfl : node = node' := Option.some.inj (hnode.symm.trans hnode')
    exact ⟨⟨hshape, ht⟩, by rw [Node.canLink, hlink]; rfl⟩
  · rintro ⟨⟨hshape, ht⟩, hcan⟩
    have := hm.unresolved_of_meets hfree (c := c) ⟨node, hnode, hshape, hcan⟩
    exact ⟨node, hnode, hshape, (neighbour?_eq hnode c.edge).symm.trans this, ht⟩

/-- A search that has come to its tile number `i`, because none before it fits, comes to its tile
number `n`.  There it stops because that tile fits, or because it may go no farther, or because it
has listed no more tiles. -/
theorem searchAffine_ok (hm : Linked m) (hfree : m.neighbour? id edge = none) {fuel i : Nat}
    {S : Search α} {r : Option Nat} (hS : m.Searching s i S)
    (hmissed : ∀ (j : Nat) (x : Nat × Motion α), j < i → S.queue.toList[j]? = some x →
      ¬ m.Fits c goal x)
    (h : m.searchAffine id edge c goal fuel i S = .ok r) :
    ∃ n S', n ≤ i + fuel ∧ m.Searching s n S' ∧
      (∀ (j : Nat) (x : Nat × Motion α), j < n → S'.queue.toList[j]? = some x →
        ¬ m.Fits c goal x) ∧
      (∀ a, r = some a → n < i + fuel ∧ ∃ t, S'.queue.toList[n]? = some (a, t) ∧
        m.Fits c goal (a, t)) ∧
      (r = none → n = i + fuel ∨ n = S'.queue.toList.length) := by
  induction fuel generalizing i S with
  | zero =>
      cases h
      exact ⟨i, S, Nat.le_refl i, hS, hmissed, fun a ha => (nomatch ha), fun _ => .inl rfl⟩
  | succ fuel ih =>
      unfold searchAffine at h
      split at h
      · rename_i hnone
        cases h
        have hlen : S.queue.toList.length ≤ i := by
          simpa using hnone
        have hle : i ≤ S.queue.toList.length := by simpa using hS.partway.le
        exact ⟨i, S, Nat.le_add_right _ _, hS, hmissed, fun a ha => (nomatch ha),
          fun _ => .inr (Nat.le_antisymm hle hlen)⟩
      · rename_i a t hi
        rw [← Array.getElem?_toList] at hi
        have hlt : a < m.size :=
          hS.partway.placed a (List.mem_map_of_mem (List.mem_of_getElem? hi))
        have hnode : m.nodes[a]? = some m.nodes[a] := Array.getElem?_eq_getElem hlt
        simp only [hnode] at h
        split at h
        · rename_i hfits
          cases h
          refine ⟨i, S, Nat.le_add_right _ _, hS, hmissed, fun b hb => ?_,
            fun h => nomatch h⟩
          obtain rfl := Option.some.inj hb
          exact ⟨by omega, t, hi, (fits_iff hm hfree hnode).mpr hfits⟩
        · rename_i hfits
          obtain ⟨S₁, hS₁, h⟩ := except_bind_ok h
          obtain ⟨added, hw⟩ := extendSearch_ok hnode hS₁
          have hmissed₁ : ∀ (j : Nat) (x : Nat × Motion α), j < i + 1 →
              S₁.queue.toList[j]? = some x → ¬ m.Fits c goal x := by
            intro j x hj hx
            have hjlt : j < S.queue.toList.length :=
              Nat.lt_of_lt_of_le hj (List.getElem?_eq_some_iff.mp hi).1
            rw [hw.queue, List.getElem?_append_left hjlt] at hx
            rcases Nat.lt_succ_iff_lt_or_eq.mp hj with hj | rfl
            · exact hmissed j x hj hx
            · obtain rfl : (a, t) = x := Option.some.inj (hi.symm.trans hx)
              exact mt (fits_iff hm hfree hnode).mp hfits
          obtain ⟨n, S', hn, hS', hmissed', hr⟩ := ih (hS.extend hm hi hnode hw) hmissed₁ h
          rw [Nat.add_assoc, Nat.add_comm 1] at hn hr
          exact ⟨n, S', hn, hS', hmissed', hr⟩

/-- The tiles `found`, each with its motion, are those that a search from tile `s` examines: they
begin a breadth-first order, and the motions are those along the ways on which they are found. -/
structure Examines (m : Atlas α) (s : Nat) (found : List (Nat × Motion α)) : Prop where
  order : ∃ ids, m.BreadthFirst s ids ∧ found.map Prod.fst <+: ids
  traced : m.Traced s found

omit [Scalar α] in
theorem BreadthFirst.length_eq {ids : List Nat} (h : m.BreadthFirst s ids) :
    ids.length = m.size := by
  have hperm : ids.Perm (List.range m.size) :=
    (List.perm_ext_iff_of_nodup h.nodup List.nodup_range).mpr fun a => by
      rw [h.mem, List.mem_range]
  rw [hperm.length_eq, List.length_range]

theorem Examines.length_le {found : List (Nat × Motion α)} (h : m.Examines s found) :
    found.length ≤ m.size := by
  obtain ⟨ids, hids, hle⟩ := h.order
  rw [← hids.length_eq, ← List.length_map Prod.fst]
  exact hle.length_le

/-- A search that examines as many tiles as there are examines all of them. -/
theorem Examines.mem_of_length {found : List (Nat × Motion α)} (h : m.Examines s found)
    (hlen : found.length = m.size) {a : Nat} (ha : a < m.size) : a ∈ found.map Prod.fst := by
  obtain ⟨ids, hids, hle⟩ := h.order
  have : found.map Prod.fst = ids :=
    hle.eq_of_length (by rw [List.length_map, hlen, hids.length_eq])
  exact this ▸ (hids.mem a).mpr ha

/-- What a search has listed first is what it may have examined. -/
theorem Searching.examines (hgrown : Grown m) (hm : Linked m) {i : Nat} {S : Search α}
    (hS : m.Searching s i S) (n : Nat) : m.Examines s (S.queue.toList.take n) := by
  obtain ⟨ids, hids, hle⟩ := hS.partway.exists_breadthFirst hgrown hm
  refine ⟨⟨ids, hids, ?_⟩, hS.traced.take n⟩
  rw [List.map_take]
  exact (List.take_prefix _ _).trans hle

/-- A search from tile `id` answers the first tile of the breadth-first order that fits, if there is
one among those that it may examine. -/
theorem searchAffine_examines (hgrown : Grown m) (hm : Linked m) (hid : id < m.size)
    (hfree : m.neighbour? id edge = none) {limit : Nat} {r : Option Nat}
    (h : m.searchAffine id edge c goal limit 0
      ⟨#[(id, Motion.identity)], Std.HashSet.emptyWithCapacity.insert id⟩ = .ok r) :
    ∃ found, m.Examines id found ∧ found.length ≤ min limit m.size ∧
      (∀ a, r = some a → ∃ before x, found = before ++ [x] ∧ x.1 = a ∧ m.Fits c goal x ∧
        ∀ y ∈ before, ¬ m.Fits c goal y) ∧
      (r = none → found.length = min limit m.size ∧ ∀ x ∈ found, ¬ m.Fits c goal x) := by
  obtain ⟨n, S, hn, hS, hmissed, hsome, hnone⟩ := searchAffine_ok hm hfree
    (searching_start hid) (fun j x hj => absurd hj (Nat.not_lt_zero j)) h
  rw [Nat.zero_add] at hn hsome hnone
  have hmissed : ∀ y ∈ S.queue.toList.take n, ¬ m.Fits c goal y := by
    intro y hy
    obtain ⟨j, hj⟩ := List.mem_iff_getElem?.mp hy
    rw [List.getElem?_take] at hj
    split at hj
    · exact hmissed j y ‹_› hj
    · cases hj
  cases r with
  | some a =>
      obtain ⟨hlt, t, hx, hfits⟩ := hsome a rfl
      have hfound : S.queue.toList.take (n + 1) = S.queue.toList.take n ++ [(a, t)] := by
        rw [List.take_add_one, hx]
        rfl
      have hexamines := hS.examines hgrown hm (n + 1)
      refine ⟨_, hexamines, Nat.le_min.mpr ⟨?_, hexamines.length_le⟩, fun b hb => ?_,
        fun h => nomatch h⟩
      · exact Nat.le_trans (List.length_take_le _ _) hlt
      · exact ⟨_, (a, t), hfound, Option.some.inj hb, hfits, hmissed⟩
  | none =>
      have hexamines := hS.examines hgrown hm n
      have hle := hexamines.length_le
      have hlen : (S.queue.toList.take n).length = n := by
        have := hS.partway.le
        rw [List.length_map] at this
        exact List.length_take_of_le this
      refine ⟨_, hexamines, by omega, fun b hb => (nomatch hb), fun _ => ⟨?_, hmissed⟩⟩
      rcases hnone rfl with rfl | hall
      · omega
      -- The list is used up, so all tiles have been examined.
      · have hpart := hS.partway
        rw [hall, ← List.length_map Prod.fst] at hpart
        have := (hpart.breadthFirst hgrown hm).length_eq
        rw [List.length_map] at this
        omega

/-! ### Failures -/

theorem adjacencyVia_error {t : Tiling α} {a e : Nat} {entry : Option Nat} {affine : Bool}
    {err : MapError α} (h : t.adjacencyVia a e entry affine = .error err) :
    (∃ s f, err = .invalidEdge s f) ∨ ∃ mismatch, err = .adjacencyMismatch a e mismatch := by
  unfold Tiling.adjacencyVia at h
  split at h
  · rw [ite_eq_iff] at h
    rcases h with ⟨-, h⟩ | ⟨-, h⟩
    · cases h
      exact .inl ⟨_, _, rfl⟩
    · rw [ite_eq_iff] at h
      rcases h with ⟨-, h⟩ | ⟨-, h⟩
      · exact .inr ⟨_, (Except.error.inj h).symm⟩
      · exact nomatch h
  · cases h
    exact .inl ⟨_, _, rfl⟩

theorem adjacencyOf_ne_tooManyNodes {a e limit : Nat} :
    m.adjacencyOf a e ≠ .error (.tooManyNodes limit) := by
  intro h
  unfold adjacencyOf at h
  split at h
  · cases h
  · rcases adjacencyVia_error h with ⟨_, _, h⟩ | ⟨_, h⟩ <;> cases h

theorem extendSearch_error {h : Nat} {t : Motion α} {node : Node} {S : Search α} {err : MapError α}
    (hS : m.extendSearch h t node S = .error err) : ∃ k, m.adjacencyOf h k = .error err := by
  unfold extendSearch at hS
  generalize List.range node.degree = edges at hS
  induction edges generalizing S with
  | nil => cases hS
  | cons k edges ih =>
      rw [List.foldlM_cons] at hS
      rcases except_bind_error hS with hstep | ⟨S₁, -, hS⟩
      · split at hstep
        · cases hstep
        · split at hstep
          · cases hstep
          · rcases except_bind_error hstep with ha | ⟨adjacency, -, hstep⟩
            · exact ⟨k, ha⟩
            · cases hstep
      · exact ih hS

/-- A search fails only because the motion across a link cannot be computed. -/
theorem searchAffine_error {fuel i : Nat} {S : Search α} {err : MapError α}
    (h : m.searchAffine id edge c goal fuel i S = .error err) :
    ∃ a k, m.adjacencyOf a k = .error err := by
  induction fuel generalizing i S with
  | zero => cases h
  | succ fuel ih =>
      unfold searchAffine at h
      split at h
      · cases h
      · split at h
        · cases h
        · split at h
          · cases h
          · rcases except_bind_error h with hS | ⟨S₁, -, h⟩
            · exact ⟨_, extendSearch_error hS⟩
            · exact ih h

/-! ### Steps -/

/-- A step across an unresolved edge looks for a neighbour that lies where the gluing says. -/
theorem step_of_adjacency {n : Node} (hn : m.nodes[id]? = some n) (he : edge < n.degree)
    (hfree : n.link? edge = none) (hgoal : m.adjacencyOf id edge = .ok goal) :
    step id edge m = resolve id edge ((m.tiling.shape n.shape).connection edge) goal m := by
  simp only [step, hn, hfree, Nat.not_le_of_lt he, if_false, hgoal]

theorem step_of_adjacency_error {n : Node} {err : MapError α} (hn : m.nodes[id]? = some n)
    (he : edge < n.degree) (hfree : n.link? edge = none)
    (hgoal : m.adjacencyOf id edge = .error err) : step id edge m = .error err m := by
  simp only [step, hn, hfree, Nat.not_le_of_lt he, if_false, hgoal]

omit [Scalar α] in
/-- The neighbour is placed if there are not too many tiles. -/
theorem create_eq {n : Node} (hn : m.nodes[id]? = some n) (place : Placement α) :
    create id edge c place m =
      if m.size < maxNodes then
        .ok m.size ((m.insert (Node.fresh c.shape (m.tiling.shape c.shape).size (n.distance + 1)
          (n.parity != c.mirror)) place).link id edge m.size c.edge c.mirror)
      else .error (.tooManyNodes maxNodes) m := by
  unfold create
  by_cases hlt : m.size < maxNodes
  · rw [if_pos hlt, if_neg (show ¬ maxNodes ≤ m.nodes.size from Nat.not_le_of_lt hlt)]
    simp only [hn]
    rfl
  · rw [if_neg hlt, if_pos (show maxNodes ≤ m.nodes.size from Nat.le_of_not_lt hlt)]

/-- **The search is exhaustive within its budget.**  A step across an unresolved edge in an affine
atlas that is not stopped by a misplaced gluing examines tiles in the order of a breadth-first
search from the tile that the edge belongs to, each by the motion along the way on which it is
found.  If one of the first `affineLimit` tiles fits, then the step stops at the first one that does
and links the edge to it; otherwise it examines as many tiles as it may, or all there are, and
places a new one, unless there are too many. -/
theorem step_searches_breadthFirst {t : Tiling α} {m₀ : Atlas α} (ht : t.WellFormed)
    (h₀ : ofTiling t = .ok m₀) (haffine : t.geometry.isAffine = true) (calls : List Call) {n : Node}
    (hn : (m₀.after calls).nodes[id]? = some n) (he : edge < n.degree)
    (hfree : n.link? edge = none)
    (hok : ∀ e m', step id edge (m₀.after calls) = .error e m' → e = .tooManyNodes maxNodes) :
    let m := m₀.after calls
    ∃ c goal, t.connection? n.shape edge = some c ∧ m.adjacencyOf id edge = .ok goal ∧
      ∃ found, m.Examines id found ∧
        ((found.length ≤ min t.affineLimit m.size ∧
          ∃ before x m', found = before ++ [x] ∧ m.Fits c goal x ∧
            (∀ y ∈ before, ¬ m.Fits c goal y) ∧
            step id edge m = .ok x.1 m' ∧ Joins m m' id edge x.1 c.edge c.mirror) ∨
        (found.length = min t.affineLimit m.size ∧ (∀ x ∈ found, ¬ m.Fits c goal x) ∧
          (m.size ≤ t.affineLimit → ∀ a, a < m.size → a ∈ found.map Prod.fst) ∧
          (m.size < maxNodes → ∃ m', step id edge m = .ok m.size m' ∧
            Appends m m' id edge n c ⟨.globe, (m.place id).offset * goal⟩) ∧
          (maxNodes ≤ m.size → step id edge m = .error (.tooManyNodes maxNodes) m))) := by
  intro m
  obtain ⟨htiling, hlinked⟩ := ofTiling_linked h₀
  obtain ⟨hm, hg⟩ := after_linked (htiling ▸ ht) hlinked calls
  have hgrown : Grown m := after_grown (htiling ▸ ht) hlinked (ofTiling_grown h₀) calls
  obtain rfl : m.tiling = t := hg.tiling.trans htiling
  change m.nodes[id]? = some n at hn
  change Linked m at hm
  have hae : m.neighbour? id edge = none := (neighbour?_eq hn edge).trans hfree
  have hfail : ∀ a k err, m.adjacencyOf a k = .error err → step id edge m ≠ .error err m :=
    fun a k err ha h => adjacencyOf_ne_tooManyNodes (hok err m h ▸ ha)
  cases hgoal : m.adjacencyOf id edge with
  | error err =>
      exact absurd (step_of_adjacency_error hn he hfree hgoal) (hfail id edge err hgoal)
  | ok goal =>
    have hstep := step_of_adjacency hn he hfree hgoal
    generalize hc : (m.tiling.shape n.shape).connection edge = c at hstep
    obtain ⟨hglued, -, hcs⟩ := hm.connection_eq ht hn he hc
    refine ⟨c, goal, hglued, rfl, ?_⟩
    unfold resolve at hstep
    simp only [show m.isAffine = true from haffine, if_true] at hstep
    cases hsearch : m.searchAffine id edge c goal m.tiling.affineLimit 0
        ⟨#[(id, Motion.identity)], Std.HashSet.emptyWithCapacity.insert id⟩ with
    | error err =>
        obtain ⟨a, k, ha⟩ := searchAffine_error hsearch
        exact absurd (by rw [hstep, hsearch]) (hfail a k err ha)
    | ok r =>
      obtain ⟨found, hfound, hlen, hsome, hnone⟩ :=
        searchAffine_examines hgrown hm (lt_size_of_node hn) hae hsearch
      rw [hsearch] at hstep
      refine ⟨found, hfound, ?_⟩
      cases r with
      | some a =>
          obtain ⟨before, x, heq, rfl, hfits, hbefore⟩ := hsome a rfl
          refine .inl ⟨hlen, before, x, _, heq, hfits, hbefore, hstep, ?_⟩
          obtain ⟨node, hnode, hshape, hlink, -⟩ := hfits
          refine joins_link hn he hnode ?_ hae ((neighbour?_eq hnode c.edge).trans hlink) c.mirror
          rw [hm.degree_eq x.1 node hnode, hshape]
          exact hcs
      | none =>
          obtain ⟨hlen, hmissed⟩ := hnone rfl
          replace hstep : step id edge m = create id edge c _ m := hstep
          rw [create_eq hn] at hstep
          refine .inr ⟨hlen, hmissed, fun hle a ha => ?_, fun hlt => ?_, fun hge => ?_⟩
          · exact hfound.mem_of_length (by omega) ha
          · rw [if_pos hlt] at hstep
            exact ⟨_, hstep, appends_insert_link hn he hfree hcs _⟩
          · rwa [if_neg (Nat.not_lt_of_le hge)] at hstep

/-- Unit squares glued edge to edge. -/
def squares : Tiling Fraction where
  __ := Tiling.empty
  geometry := .affine
  shapes := #[rectangle 1 0 0]

/-- The atlas of `squares` with one tile. -/
def squaresStart : Atlas Fraction := ((ofTiling squares).toOption).getD (empty squares)

/-- Six squares around tile 2, which is linked to all others but the first.  Tile 5 lies beside the
first one, across a link that is missing. -/
def squaresPlaced : Atlas Fraction :=
  squaresStart.scanAfter [(0, 0), (1, 1), (2, 0), (2, 1), (2, 2)]

theorem neighbours_squaresPlaced : squaresPlaced.size = 6 ∧ ∀ d < 6,
    squaresPlaced.neighbours d = [[1], [2, 0], [3, 4, 5, 1], [2], [2], [2]].getD d [] := by
  decide +kernel

/-- From tile 5 the first tile is found behind those that tile 2 leads to. -/
theorem BreadthFirst.squaresPlaced_lt {ids : List Nat} (h : squaresPlaced.BreadthFirst 5 ids)
    {a k : Nat} (ha : a ∈ squaresPlaced.neighbours 2) (hk : ids[k]? = some 0) :
    ∃ j < k, ids[j]? = some a := by
  obtain ⟨hsize, hneighbours⟩ := neighbours_squaresPlaced
  have hmem : ∀ b < 6, ∃ j, ids[j]? = some b := fun b hb =>
    List.mem_iff_getElem?.mp ((h.mem b).mpr (hsize ▸ hb))
  have hpos : ∀ {j b : Nat}, ids[j]? = some b → b ≠ 5 → 0 < j := fun hj hb =>
    Nat.pos_of_ne_zero fun hzero => hb (Option.some.inj (hj.symm.trans (hzero ▸ h.head)))
  have hlt : a < 6 := by
    rw [hneighbours 2 (by decide)] at ha
    exact (by decide : ∀ a ∈ [3, 4, 5, 1], a < 6) a ha
  obtain ⟨j, hj⟩ := hmem a hlt
  obtain ⟨i₁, h₁⟩ := hmem 1 (by decide)
  obtain ⟨i₂, h₂⟩ := hmem 2 (by decide)
  -- Tile 2 stands before tile 1, which alone leads to the first tile.
  have h₂₁ : i₂ < i₁ := by
    have h₅ := hneighbours 5 (by decide)
    refine h.lt_of_neighbours (hpos h₁ (by decide)) h₂ h₁ h.head (h₅ ▸ by decide) ?_
    intro n d hn hd
    obtain rfl := Nat.le_zero.mp hn
    obtain rfl := Option.some.inj (h.head.symm.trans hd)
    rw [h₅]
    decide
  refine ⟨j, h.lt_of_neighbours (hpos hk (by decide)) hj hk h₂ ha fun n d hn hd hmem => ?_, hj⟩
  have hd₆ : d < 6 := hsize ▸ (h.mem d).mp (List.mem_of_getElem? hd)
  rw [hneighbours d hd₆] at hmem
  obtain rfl : d = 1 := (by decide : ∀ d < 6,
    0 ∈ [[1], [2, 0], [3, 4, 5, 1], [2], [2], [2]].getD d [] → d = 1) d hd₆ hmem
  have hn₁ : n = i₁ :=
    (List.getElem?_inj (List.getElem?_eq_some_iff.mp hd).1 h.nodup).mp (hd.trans h₁.symm)
  omega

/-- The step that closes the ring around a vertex finds the first square again, after it has examined
two squares that do not belong to the ring. -/
theorem step_searches_breadthFirst_squares : squares.WellFormed ∧
    ofTiling squares = .ok squaresStart ∧
    let m := squaresStart.after [.step 0 0, .step 1 1, .step 2 0, .step 2 1, .step 2 2]
    ∃ goal before x m', m.adjacencyOf 5 3 = .ok goal ∧ m.Examines 5 (before ++ [x]) ∧ x.1 = 0 ∧
      3 ∈ before.map Prod.fst ∧ 4 ∈ before.map Prod.fst ∧ m.Fits ⟨0, 1, false⟩ goal x ∧
      (∀ y ∈ before, ¬ m.Fits ⟨0, 1, false⟩ goal y) ∧ step 5 3 m = .ok 0 m' ∧
      Joins m m' 5 3 0 1 false := by
  have ht : squares.WellFormed := by decide +kernel
  have h₀ : ofTiling squares = .ok squaresStart := rfl
  have hrun : squaresStart.after [.step 0 0, .step 1 1, .step 2 0, .step 2 1, .step 2 2] =
      squaresPlaced :=
    after_steps (ofTiling_filed h₀) [(0, 0), (1, 1), (2, 0), (2, 1), (2, 2)]
  have hnode : (squaresPlaced.nodes[5]?).any
      (fun n => decide (n.shape = 0 ∧ 3 < n.degree ∧ n.link? 3 = none)) = true := by
    decide +kernel
  obtain ⟨n, hn, hnode⟩ := (Option.any_eq_true _ _).mp hnode
  obtain ⟨hshape, hdegree, hfree⟩ := of_decide_eq_true hnode
  have hfiled : Filed squaresPlaced := hrun ▸ after_filed (ofTiling_filed h₀) _
  have hanswer : answer (step 5 3 squaresPlaced) = some 0 := by
    rw [step_eq_scanStep hfiled]
    decide +kernel
  have hstep := eq_ok_of_answer hanswer
  obtain ⟨hsize, hneighbours⟩ := neighbours_squaresPlaced
  have hsearch := @step_searches_breadthFirst _ _ 5 3 squares squaresStart ht h₀ rfl
    [.step 0 0, .step 1 1, .step 2 0, .step 2 1, .step 2 2] n
  rw [hrun] at hsearch ⊢
  obtain ⟨c, goal, hc, hgoal, found, hfound, h⟩ := hsearch hn hdegree hfree
    fun e m' he => nomatch hstep.symm.trans he
  obtain rfl : (⟨0, 1, false⟩ : Connection) = c := by
    rw [hshape] at hc
    exact Option.some.inj hc
  obtain ⟨-, before, x, m', rfl, hfits, hbefore, hx, hjoins⟩ | ⟨-, -, -, happends, -⟩ := h
  · have hzero : x.1 = 0 := (EStateM.Result.ok.inj (hx.symm.trans hstep)).1
    rw [hzero] at hx hjoins
    have hlisted : ∀ a ∈ squaresPlaced.neighbours 2, a ∈ before.map Prod.fst := by
      intro a ha
      obtain ⟨ids, hids, rest, rfl⟩ := hfound.order
      rw [List.map_append, List.append_assoc] at hids
      have hlast : (before.map Prod.fst ++ ([x].map Prod.fst ++ rest))[(before.map Prod.fst).length]?
          = some 0 := by
        rw [List.getElem?_append_right (Nat.le_refl _), Nat.sub_self]
        exact congrArg some hzero
      obtain ⟨j, hj, haj⟩ := hids.squaresPlaced_lt ha hlast
      rw [List.getElem?_append_left hj] at haj
      exact List.mem_of_getElem? haj
    rw [hneighbours 2 (by decide)] at hlisted
    exact ⟨ht, h₀, goal, before, x, m', hgoal, hfound, hzero, hlisted 3 (by decide),
      hlisted 4 (by decide), hfits, hbefore, hx, hjoins⟩
  · obtain ⟨m', hm', -⟩ := happends (by rw [hsize]; decide)
    have hsix : squaresPlaced.size = 0 := (EStateM.Result.ok.inj (hm'.symm.trans hstep)).1
    rw [hsize] at hsix
    cases hsix

end Mosaic.Atlas
