import Mosaic.Proofs.Atlas.Involution

/-!
# Atlas — the footprint of a step

A step that fails leaves the atlas as it was, and so does a step across a resolved edge.  A step
across an unresolved edge changes one of two things: it resolves the edge and one edge of a tile
that is there (`Joins`), or it appends one tile and links that (`Appends`).  Everything else, the
other links, what tiles are besides their links, the places and the cells, is left alone
(`step_footprint`).
-/

namespace Mosaic

/-- What a tile is besides its links. -/
def Node.traits (n : Node) : Nat × Nat × Bool × Nat := (n.shape, n.distance, n.parity, n.degree)

@[simp] theorem Node.traits_setLink (n : Node) (e : Nat) (l : Link) :
    (n.setLink e l).traits = n.traits := by
  simp [traits]

namespace Atlas

variable {α : Type}

/-- The atlas `m'` is `m` with edge `e` of tile `a` and edge `f` of tile `b` linked to each other.
Both edges were unresolved; they are the same if the edge is glued to itself. -/
structure Joins (m m' : Atlas α) (a e b f : Nat) (mirror : Bool) : Prop where
  free : m.neighbour? a e = none
  free_target : m.neighbour? b f = none
  tiling : m'.tiling = m.tiling
  lattice : m'.lattice = m.lattice
  traits : m'.nodes.map Node.traits = m.nodes.map Node.traits
  links : ∀ x k, m'.neighbour? x k =
    if x = b ∧ k = f then some ⟨a, e, mirror⟩
    else if x = a ∧ k = e then some ⟨b, f, mirror⟩
    else m.neighbour? x k
  places : m'.places = m.places
  buckets : m'.buckets = m.buckets

/-- The atlas `m'` is `m` with one more tile at `place`, the neighbour of the tile `n` numbered `id`
along the gluing `c` of its edge `edge`.  The new tile has the next number and a single link. -/
structure Appends (m m' : Atlas α) (id edge : Nat) (n : Node) (c : Connection)
    (place : Placement α) : Prop where
  free : m.neighbour? id edge = none
  tiling : m'.tiling = m.tiling
  lattice : m'.lattice = m.lattice
  traits : m'.nodes.map Node.traits = (m.nodes.map Node.traits).push
    (c.shape, n.distance + 1, (n.parity != c.mirror), (m.tiling.shape c.shape).size)
  links : ∀ x k, m'.neighbour? x k =
    if x = m.size ∧ k = c.edge then some ⟨id, edge, c.mirror⟩
    else if x = id ∧ k = edge then some ⟨m.size, c.edge, c.mirror⟩
    else m.neighbour? x k
  only_link : ∀ k, k ≠ c.edge → m'.neighbour? m.size k = none
  places : m'.places = m.places.push place
  buckets : if m.isAffine then m'.buckets = m.buckets else
    ∀ key, m'.buckets[key]? =
      if key = place.key then some (((m.buckets[key]?).getD #[]).push m.size)
      else m.buckets[key]?

theorem traits_link (m : Atlas α) (a e b f : Nat) (mirror : Bool) :
    (m.link a e b f mirror).nodes.map Node.traits = m.nodes.map Node.traits := by
  refine Array.ext_getElem? fun x => ?_
  rw [Array.getElem?_map, Array.getElem?_map, getElem?_link, Option.map_map]
  congr 1
  funext n
  simp only [Function.comp]
  split <;> split <;> simp

/-- Linking two unresolved edges. -/
theorem joins_link {m : Atlas α} {a e b f : Nat} {na nb : Node} (ha : m.nodes[a]? = some na)
    (he : e < na.degree) (hb : m.nodes[b]? = some nb) (hf : f < nb.degree)
    (hae : m.neighbour? a e = none) (hbf : m.neighbour? b f = none) (mirror : Bool) :
    Joins m (m.link a e b f mirror) a e b f mirror where
  free := hae
  free_target := hbf
  tiling := rfl
  lattice := rfl
  traits := traits_link m a e b f mirror
  links := neighbour?_link ha he hb hf mirror
  places := rfl
  buckets := rfl

/-- The cells after a tile has been placed. -/
theorem buckets_insert (m : Atlas α) (n : Node) (place : Placement α) :
    if m.isAffine then (m.insert n place).buckets = m.buckets else
      ∀ key, (m.insert n place).buckets[key]? =
        if key = place.key then some (((m.buckets[key]?).getD #[]).push m.size)
        else m.buckets[key]? := by
  by_cases h : m.isAffine
  · rw [if_pos h]
    exact if_pos h
  · rw [if_neg h]
    intro key
    have hb : (m.insert n place).buckets = m.buckets.alter place.key
        fun ids => some ((ids.getD #[]).push m.size) := if_neg h
    rw [hb, Std.HashMap.getElem?_alter]
    by_cases hk : place.key = key
    · subst hk
      simp
    · simp [hk, Ne.symm hk]

/-- Placing the neighbour of a tile and linking it. -/
theorem appends_insert_link {m : Atlas α} {id edge : Nat} {n : Node} {c : Connection}
    (hn : m.nodes[id]? = some n) (he : edge < n.degree) (hfree : n.link? edge = none)
    (hc : c.edge < (m.tiling.shape c.shape).size) (place : Placement α) :
    Appends m ((m.insert (Node.fresh c.shape (m.tiling.shape c.shape).size (n.distance + 1)
      (n.parity != c.mirror)) place).link id edge m.nodes.size c.edge c.mirror)
      id edge n c place := by
  generalize hnew : Node.fresh c.shape _ _ _ = new
  have hempty : ∀ k, new.link? k = none := by subst hnew; simp
  have hdegree : new.degree = (m.tiling.shape c.shape).size := by subst hnew; simp
  have hid : id ≠ m.nodes.size := Nat.ne_of_lt (Array.getElem?_eq_some_iff.mp hn).1
  have hn' : (m.insert new place).nodes[id]? = some n := by rw [getElem?_insert, if_neg hid, hn]
  have hp' : (m.insert new place).nodes[m.nodes.size]? = some new := by
    rw [getElem?_insert, if_pos rfl]
  have hlinks := neighbour?_link hn' he hp' (hdegree ▸ hc) c.mirror
  have hnone : m.nodes[m.nodes.size]? = none := Array.getElem?_eq_none (Nat.le_refl _)
  constructor
  case free => rw [neighbour?_eq hn, hfree]
  case tiling => rfl
  case lattice => rfl
  case traits =>
    rw [traits_link]
    change (m.nodes.push new).map Node.traits = _
    subst hnew
    simp [Node.traits, Node.fresh, Node.degree]
  case links =>
    intro x k
    rw [hlinks, neighbour?_insert hempty]
    rfl
  case only_link =>
    intro k hk
    rw [hlinks, neighbour?_insert hempty, size, neighbour?_eq_none hnone]
    simp [hk, Ne.symm hid]
  case places => rfl
  case buckets => exact buckets_insert m new place

variable [Scalar α]

/-- Tiles and places are equally many. -/
def Housed (m : Atlas α) : Prop := m.places.size = m.nodes.size

theorem after_housed {t : Tiling α} {m₀ : Atlas α} (h₀ : ofTiling t = .ok m₀)
    (calls : List Call) : Housed (m₀.after calls) := by
  obtain ⟨first, -, rfl⟩ := ofTiling_ok h₀
  have hfirst : Housed ((empty t).insert (Node.fresh 0 first.size 0 false) (originPlace t)) := rfl
  refine after_rule (fun m a e b f mirror h => ?_) (fun m id n place _ _ h => ?_) hfirst calls
  · simpa [Housed, link] using h
  · simpa [Housed, insert] using h

/-- What a step does to an atlas whose links lead back. -/
theorem Linked.footprint {m : Atlas α} (ht : m.tiling.WellFormed) (hm : Linked m)
    (id edge : Nat) :
    match step id edge m with
    | .error _ m' => m' = m
    | .ok p m' =>
      match m.neighbour? id edge with
      | some l => p = l.node ∧ m' = m
      | none => ∃ n c, m.nodes[id]? = some n ∧ m.tiling.connection? n.shape edge = some c ∧
          ((∃ q f, m.nodes[p]? = some q ∧ q.shape = c.shape ∧ f < q.degree ∧
              Joins m m' id edge p f c.mirror) ∨
            (p = m.size ∧ ∃ place, Appends m m' id edge n c place)) := by
  have hout := step_outcome m id edge
  generalize step id edge m = r at hout
  cases hout with
  | failed e => rfl
  | resolved h => simp only [h, and_self]
  | @reused n c p f hn he hfree hc hf hp =>
      have hae : m.neighbour? id edge = none := (neighbour?_eq hn edge).trans hfree
      have hbf := hm.unresolved_of_meets hae hp
      obtain ⟨hglued, -, hce⟩ := hm.connection_eq ht hn he hc
      obtain ⟨q, hq, hshape, hfq⟩ := hm.exists_of_meets hce hf hp
      simp only [hae]
      exact ⟨n, c, hn, hglued,
        .inl ⟨q, f, hq, hshape, hfq, joins_link hn he hq hfq hae hbf c.mirror⟩⟩
  | @created n c hn he hfree hc hmax place =>
      have hae : m.neighbour? id edge = none := (neighbour?_eq hn edge).trans hfree
      obtain ⟨hglued, -, hce⟩ := hm.connection_eq ht hn he hc
      simp only [hae]
      exact ⟨n, c, hn, hglued, .inr ⟨rfl, place, appends_insert_link hn he hfree hce place⟩⟩

/-- **A step is atomic and touches as little as possible.**  After any calls, a step that fails
changes nothing and a step across a resolved edge changes nothing.  A step across an unresolved
edge resolves it together with one edge of a tile of the declared shape, or it appends one tile of
that shape together with its place. -/
theorem step_footprint {t : Tiling α} {m₀ : Atlas α} (ht : t.WellFormed)
    (h₀ : ofTiling t = .ok m₀) (calls : List Call) (id edge : Nat) :
    let m := m₀.after calls
    m.places.size = m.size ∧
    match step id edge m with
    | .error _ m' => m' = m
    | .ok p m' =>
      match m.neighbour? id edge with
      | some l => p = l.node ∧ m' = m
      | none => ∃ n c, m.nodes[id]? = some n ∧ t.connection? n.shape edge = some c ∧
          ((∃ q f, m.nodes[p]? = some q ∧ q.shape = c.shape ∧ f < q.degree ∧
              Joins m m' id edge p f c.mirror) ∨
            (p = m.size ∧ ∃ place, Appends m m' id edge n c place)) := by
  intro m
  obtain ⟨htiling, hlinked⟩ := ofTiling_linked h₀
  obtain ⟨hm, hg⟩ := after_linked (htiling ▸ ht) hlinked calls
  obtain rfl : m.tiling = t := hg.tiling.trans htiling
  exact ⟨after_housed h₀ calls, hm.footprint ht id edge⟩

theorem step_kite_ok {m₀ : Atlas Float} (h₀ : ofTiling kite = .ok m₀) :
    ∃ m', step 0 0 m₀ = .ok 1 m' := by
  obtain ⟨place, hstep⟩ := step_kite h₀
  rw [hstep]
  cases h₀
  exact ⟨_, rfl⟩

theorem step_footprint_kite : kite.WellFormed ∧ ∃ m₀, ofTiling kite = .ok m₀ ∧
    ∃ m' n place, step 0 0 m₀ = .ok 1 m' ∧ Appends m₀ m' 0 0 n ⟨1, 3, true⟩ place := by
  have ht : kite.WellFormed := by decide
  obtain ⟨m₀, h₀⟩ : ∃ m₀, ofTiling kite = .ok m₀ := ⟨_, rfl⟩
  obtain ⟨m', hstep⟩ := step_kite_ok h₀
  have hnodes := kite_nodes h₀
  have hfree : m₀.neighbour? 0 0 = none := by rw [neighbour?, hnodes]; rfl
  obtain ⟨-, h⟩ := step_footprint ht h₀ [] 0 0
  simp only [after, List.foldl_nil, hstep, hfree] at h
  obtain ⟨n, c, hn, hc, ⟨q, -, hq, -⟩ | ⟨-, place, happ⟩⟩ := h
  · rw [hnodes] at hq
    cases hq
  · rw [hnodes] at hn
    cases hn
    cases hc
    exact ⟨ht, m₀, h₀, m', _, place, hstep, happ⟩

end Atlas

end Mosaic
