import Mosaic.Atlas.Basic

/-!
# Atlas — the two changes

A new atlas is the empty one with one tile placed (`ofTiling_ok`).  From then on it changes in two
ways: a tile is placed (`Atlas.insert`), and two edges are linked (`Atlas.link`).  Placing a tile
resolves no edge (`neighbour?_insert`), and linking resolves the two edges named and no other
(`neighbour?_link`); neither touches the shape, the distance, the parity or the degree of a tile that
is there (`Grows`).
-/

namespace Mosaic

namespace Node

@[simp] theorem setLink_shape (n : Node) (e : Nat) (l : Link) : (n.setLink e l).shape = n.shape :=
  rfl

@[simp] theorem setLink_distance (n : Node) (e : Nat) (l : Link) :
    (n.setLink e l).distance = n.distance := rfl

@[simp] theorem setLink_parity (n : Node) (e : Nat) (l : Link) :
    (n.setLink e l).parity = n.parity := rfl

@[simp] theorem setLink_degree (n : Node) (e : Nat) (l : Link) :
    (n.setLink e l).degree = n.degree := Array.size_setIfInBounds

@[simp] theorem fresh_degree (shape degree distance : Nat) (parity : Bool) :
    (fresh shape degree distance parity).degree = degree := Array.size_replicate

/-- The link that is set, and the others as they were. -/
theorem link?_setLink (n : Node) {e : Nat} (he : e < n.degree) (l : Link) (k : Nat) :
    (n.setLink e l).link? k = if k = e then some l else n.link? k := by
  simp only [link?, setLink, Array.getElem?_setIfInBounds]
  by_cases h : k = e
  · subst h
    have : k < n.links.size := he
    simp [this]
  · simp [h, Ne.symm h]

/-- A new tile is linked to nothing. -/
@[simp] theorem link?_fresh (shape degree distance : Nat) (parity : Bool) (k : Nat) :
    (fresh shape degree distance parity).link? k = none := by
  simp only [link?, fresh, Array.getElem?_replicate]
  split <;> rfl

/-- Only edges that there are can be resolved. -/
theorem lt_degree_of_link? {n : Node} {k : Nat} {l : Link} (h : n.link? k = some l) :
    k < n.degree := by
  refine Nat.lt_of_not_le fun hk => ?_
  rw [link?, Array.getElem?_eq_none hk] at h
  cases h

/-- An edge that can be linked to edge `back` of tile `id` is unresolved, or it leads there. -/
theorem canLink_iff {n : Node} {e id back : Nat} :
    n.canLink e id back ↔ ∀ l, n.link? e = some l → l.node = id ∧ l.edge = back := by
  unfold canLink
  cases n.link? e <;> simp

end Node

namespace Atlas

variable {α : Type} {m : Atlas α}

/-- A neighbour is what a tile is linked to. -/
theorem neighbour?_eq_some_iff {a e : Nat} {l : Link} :
    m.neighbour? a e = some l ↔ ∃ n, m.nodes[a]? = some n ∧ n.link? e = some l := by
  simp [neighbour?, Option.bind_eq_some_iff]

theorem neighbour?_eq {a : Nat} {n : Node} (h : m.nodes[a]? = some n) (e : Nat) :
    m.neighbour? a e = n.link? e := by
  simp [neighbour?, h]

theorem neighbour?_eq_none {a : Nat} (h : m.nodes[a]? = none) (e : Nat) :
    m.neighbour? a e = none := by
  simp [neighbour?, h]

/-! ### Growth -/

/-- Every tile of `m` is in `m'` with its shape, distance, parity and degree, and every edge
resolved in `m` has its link in `m'`. -/
structure Grows (m m' : Atlas α) : Prop where
  tiling : m'.tiling = m.tiling
  nodes : ∀ (a : Nat) (n : Node), m.nodes[a]? = some n → ∃ n', m'.nodes[a]? = some n' ∧
    n'.shape = n.shape ∧ n'.distance = n.distance ∧ n'.parity = n.parity ∧ n'.degree = n.degree
  links : ∀ a e l, m.neighbour? a e = some l → m'.neighbour? a e = some l

theorem Grows.refl (m : Atlas α) : Grows m m :=
  ⟨rfl, fun _ n h => ⟨n, h, rfl, rfl, rfl, rfl⟩, fun _ _ _ h => h⟩

theorem Grows.trans {m₁ m₂ m₃ : Atlas α} (h₁ : Grows m₁ m₂) (h₂ : Grows m₂ m₃) : Grows m₁ m₃ where
  tiling := h₂.tiling.trans h₁.tiling
  nodes a n hn := by
    obtain ⟨n', hn', hs, hd, hp, hg⟩ := h₁.nodes a n hn
    obtain ⟨n'', hn'', hs', hd', hp', hg'⟩ := h₂.nodes a n' hn'
    exact ⟨n'', hn'', hs'.trans hs, hd'.trans hd, hp'.trans hp, hg'.trans hg⟩
  links a e l h := h₂.links a e l (h₁.links a e l h)

/-! ### Placing a tile -/

@[simp] theorem insert_tiling (n : Node) (p : Placement α) : (m.insert n p).tiling = m.tiling := rfl

/-- The new tile is the last one. -/
theorem getElem?_insert (n : Node) (p : Placement α) (a : Nat) :
    (m.insert n p).nodes[a]? = if a = m.nodes.size then some n else m.nodes[a]? :=
  Array.getElem?_push

/-- Placing a tile without resolved edges resolves no edge. -/
theorem neighbour?_insert {n : Node} (hn : ∀ k, n.link? k = none) (p : Placement α) (a e : Nat) :
    (m.insert n p).neighbour? a e = m.neighbour? a e := by
  by_cases h : a = m.nodes.size
  · have h₀ : m.nodes[a]? = none := Array.getElem?_eq_none (Nat.le_of_eq h.symm)
    rw [neighbour?_eq_none h₀, neighbour?_eq (n := n) (by rw [getElem?_insert, if_pos h]), hn]
  · simp only [neighbour?, getElem?_insert, h, if_false]

/-- A new tile without links lets the atlas grow. -/
theorem grows_insert {n : Node} (hn : ∀ k, n.link? k = none) (p : Placement α) :
    Grows m (m.insert n p) where
  tiling := rfl
  nodes a n' h := by
    have ha : a ≠ m.nodes.size := Nat.ne_of_lt (Array.getElem?_eq_some_iff.mp h).1
    exact ⟨n', by rw [getElem?_insert, if_neg ha, h], rfl, rfl, rfl, rfl⟩
  links a e l h := by rwa [neighbour?_insert hn]

/-! ### Linking two edges -/

@[simp] theorem link_tiling (a e b f : Nat) (mirror : Bool) :
    (m.link a e b f mirror).tiling = m.tiling := rfl

/-- The two tiles that are linked, and the others as they were. -/
theorem getElem?_link (a e b f : Nat) (mirror : Bool) (x : Nat) :
    (m.link a e b f mirror).nodes[x]? = (m.nodes[x]?).map fun n =>
      let n := if a = x then n.setLink e ⟨b, f, mirror⟩ else n
      if b = x then n.setLink f ⟨a, e, mirror⟩ else n := by
  simp only [link, Array.getElem?_modify]
  cases m.nodes[x]? <;> split <;> split <;> rfl

/-- Linking keeps everything of a tile but its links. -/
theorem exists_of_getElem?_link {a e b f : Nat} {mirror : Bool} {x : Nat} {n' : Node}
    (h : (m.link a e b f mirror).nodes[x]? = some n') : ∃ n, m.nodes[x]? = some n ∧
      n'.shape = n.shape ∧ n'.distance = n.distance ∧ n'.parity = n.parity ∧
      n'.degree = n.degree := by
  rw [getElem?_link] at h
  obtain ⟨n, hn, rfl⟩ := Option.map_eq_some_iff.mp h
  refine ⟨n, hn, ?_⟩
  split <;> split <;> simp

/-- The link of an edge after two edges have been linked. -/
theorem neighbour?_link {a e b f : Nat} {na nb : Node} (ha : m.nodes[a]? = some na)
    (he : e < na.degree) (hb : m.nodes[b]? = some nb) (hf : f < nb.degree) (mirror : Bool)
    (x k : Nat) : (m.link a e b f mirror).neighbour? x k =
      if x = b ∧ k = f then some ⟨a, e, mirror⟩
      else if x = a ∧ k = e then some ⟨b, f, mirror⟩
      else m.neighbour? x k := by
  cases hx : m.nodes[x]? with
  | none =>
      have hxa : x ≠ a := by rintro rfl; rw [ha] at hx; cases hx
      have hxb : x ≠ b := by rintro rfl; rw [hb] at hx; cases hx
      simp [neighbour?, getElem?_link, hx, hxa, hxb]
  | some n =>
      have hl : (m.link a e b f mirror).neighbour? x k =
          (if b = x then (if a = x then n.setLink e ⟨b, f, mirror⟩ else n).setLink f ⟨a, e, mirror⟩
            else if a = x then n.setLink e ⟨b, f, mirror⟩ else n).link? k := by
        rw [neighbour?, getElem?_link, hx]
        rfl
      rw [hl, neighbour?_eq hx]
      by_cases hxa : a = x <;> by_cases hxb : b = x
      · subst hxa hxb
        obtain rfl : na = n := Option.some.inj (ha.symm.trans hx)
        obtain rfl : nb = na := Option.some.inj (hb.symm.trans hx)
        simp [Node.link?_setLink, he, hf]
      · subst hxa
        obtain rfl : na = n := Option.some.inj (ha.symm.trans hx)
        simp [Node.link?_setLink, he, hxb, Ne.symm hxb]
      · subst hxb
        obtain rfl : nb = n := Option.some.inj (hb.symm.trans hx)
        simp [Node.link?_setLink, hf, hxa, Ne.symm hxa]
      · simp [hxa, hxb, Ne.symm hxa, Ne.symm hxb]

/-- Linking two unresolved edges keeps all links. -/
theorem grows_link {a e b f : Nat} {na nb : Node} (ha : m.nodes[a]? = some na)
    (he : e < na.degree) (hb : m.nodes[b]? = some nb) (hf : f < nb.degree) (mirror : Bool)
    (hae : m.neighbour? a e = none) (hbf : m.neighbour? b f = none) :
    Grows m (m.link a e b f mirror) where
  tiling := rfl
  nodes x n h := by
    refine ⟨_, by rw [getElem?_link, h]; rfl, ?_⟩
    split <;> split <;> simp
  links x k l h := by
    have hxb : ¬ (x = b ∧ k = f) := by rintro ⟨rfl, rfl⟩; rw [hbf] at h; cases h
    have hxa : ¬ (x = a ∧ k = e) := by rintro ⟨rfl, rfl⟩; rw [hae] at h; cases h
    rw [neighbour?_link ha he hb hf, if_neg hxb, if_neg hxa, h]

/-! ### A new atlas -/

variable [Scalar α]

/-- The atlas of a tiling before its first tile is placed. -/
def empty (t : Tiling α) : Atlas α := ⟨t, Lattice.ofSpace t.space, #[], #[], ∅⟩

/-- The place of the first tile, which is settled from the cell around the origin where there are
cells. -/
def originPlace (t : Tiling α) : Placement α :=
  if t.geometry.isAffine then ⟨.globe, originMotion t.space⟩
  else (empty t).lattice.settle (empty t).lattice.originKey (originMotion t.space)

/-- A fresh atlas has one tile, of the first shape, at the origin. -/
theorem ofTiling_ok {t : Tiling α} (h : ofTiling t = .ok m) : ∃ first,
    t.shapes[0]? = some first ∧
      m = (empty t).insert (Node.fresh 0 first.size 0 false) (originPlace t) := by
  unfold ofTiling at h
  split at h
  · cases h
  · rename_i first hfirst
    cases h
    exact ⟨first, hfirst, rfl⟩

end Atlas

end Mosaic
