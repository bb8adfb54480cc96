import Mosaic.Proofs.Atlas.Expansion

/-!
# Atlas — the tree of creation

Every tile but the origin has been placed as the neighbour of an earlier tile, one step farther
away, and the link across which it was placed is still there: links are permanent, and a tile keeps
the distance and the parity that it was given (`Descends.grows`).  So these links form a tree
(`Grown`).  Going down to the origin along it, a tile is reached across as many links as the
distance that it stores (`Grown.within`); there may be shorter ways, found later.  On a walk that
starts in a new atlas no tile is farther away than the walk is long (`wander_ok`).
-/

namespace Mosaic.Atlas

variable {α : Type} {m m' : Atlas α}

/-- An edge of tile `p`, which is `n`, leads to an earlier tile that is one step nearer, by a gluing
that is mirrored when the parities differ. -/
def Descends (m : Atlas α) (p : Nat) (n : Node) : Prop :=
  ∃ e l q, m.neighbour? p e = some l ∧ l.node < p ∧ m.nodes[l.node]? = some q ∧
    n.distance = q.distance + 1 ∧ n.parity = (q.parity != l.mirror)

/-- The links across which tiles have been placed form a tree with the origin as its root. -/
structure Grown (m : Atlas α) : Prop where
  origin : ∃ n, m.nodes[0]? = some n ∧ n.distance = 0 ∧ n.parity = false
  descends : ∀ (p : Nat) (n : Node), m.nodes[p]? = some n → p ≠ 0 → m.Descends p n

/-- What a tile descends from does not change. -/
theorem Descends.grows {p : Nat} {n n' : Node} (h : m.Descends p n) (hg : Grows m m')
    (hd : n'.distance = n.distance) (hp : n'.parity = n.parity) : m'.Descends p n' := by
  obtain ⟨e, l, q, hl, hlt, hq, hdq, hpq⟩ := h
  obtain ⟨q', hq', -, hdq', hpq', -⟩ := hg.nodes l.node q hq
  refine ⟨e, l, q', hg.links p e l hl, hlt, hq', ?_, ?_⟩
  · rw [hd, hdq, hdq']
  · rw [hp, hpq, hpq']

/-- Tiles that were there before keep their place in the tree. -/
theorem Grown.grows_of_lt (h : Grown m) (hg : Grows m m') {p : Nat} (hp : p < m.size) {n' : Node}
    (hn' : m'.nodes[p]? = some n') (h₀ : p ≠ 0) : m'.Descends p n' := by
  have hn := Array.getElem?_eq_getElem (show p < m.nodes.size from hp)
  obtain ⟨n'', hn'', -, hd, hpar, -⟩ := hg.nodes p _ hn
  obtain rfl : n'' = n' := Option.some.inj (hn''.symm.trans hn')
  exact (h.descends p _ hn h₀).grows hg hd hpar

/-- The tile that is placed descends from the one whose edge is crossed. -/
theorem Appends.descends {id edge : Nat} {n : Node} {c : Connection} {place : Placement α}
    (h : Appends m m' id edge n c place) (hn : m.nodes[id]? = some n) (hg : Grows m m')
    {n' : Node} (hn' : m'.nodes[m.size]? = some n') : m'.Descends m.size n' := by
  obtain ⟨n'', hn'', htraits⟩ := h.exists_node
  obtain rfl : n'' = n' := Option.some.inj (hn''.symm.trans hn')
  obtain ⟨q, hq, -, hdq, hpq, -⟩ := hg.nodes id n hn
  have hlink : m'.neighbour? m.size c.edge = some ⟨id, edge, c.mirror⟩ := by
    rw [h.links, if_pos ⟨rfl, rfl⟩]
  refine ⟨c.edge, ⟨id, edge, c.mirror⟩, q, hlink, lt_size_of_node hn, hq, ?_, ?_⟩
  · rw [hdq]
    exact congrArg (·.2.1) htraits
  · rw [hpq]
    exact congrArg (·.2.2.1) htraits

/-- A tile is reached from the origin across as many links as the distance that it stores. -/
theorem Grown.within (h : Grown m) (hm : Linked m) {p : Nat} {n : Node}
    (hn : m.nodes[p]? = some n) : m.Within n.distance p := by
  induction p using Nat.strongRecOn generalizing n with
  | ind p ih =>
      by_cases hp : p = 0
      · subst hp
        exact .origin _
      · obtain ⟨e, l, q, hl, hlt, hq, hd, -⟩ := h.descends p n hn hp
        rw [hd]
        exact (ih l.node hlt hq).link (hm.back p e l hl)

/-- A step makes the greatest distance that a tile stores greater by one at most. -/
theorem Stepped.near {id edge p d : Nat} (hs : Stepped m m' id edge p)
    (h : ∀ (a : Nat) (n : Node), m.nodes[a]? = some n → n.distance ≤ d) :
    ∀ (a : Nat) (n : Node), m'.nodes[a]? = some n → n.distance ≤ d + 1 := by
  intro a n' hn'
  by_cases ha : a < m.size
  · obtain ⟨n, hn, heq⟩ := hs.grows.distance_eq ha hn'
    exact heq ▸ Nat.le_succ_of_le (h a n hn)
  · have hlt := lt_size_of_node hn'
    obtain ⟨-, hsize⟩ | ⟨rfl, hsize, n, np, hn, hnp, hd⟩ := hs.tile
    · omega
    · obtain rfl : a = m.size := by omega
      obtain rfl : np = n' := Option.some.inj (hnp.symm.trans hn')
      rw [hd]
      exact Nat.succ_le_succ (h id n hn)

variable [Scalar α]

/-- What a step keeps. -/
theorem step_grown (ht : m.tiling.WellFormed) (hm : Linked m) (h : Grown m) (id edge : Nat) :
    Grown (finalState (step id edge) m) := by
  have hg := (step_linked ht hm id edge).2
  have hfoot := hm.footprint ht id edge
  unfold finalState at hg ⊢
  cases hstep : step id edge m with
  | error e m' =>
      simp only [hstep] at hfoot ⊢
      exact hfoot ▸ h
  | ok p m' =>
      simp only [hstep] at hfoot hg ⊢
      refine ⟨?_, fun x n' hn' hx => ?_⟩
      · obtain ⟨n, hn, hd, hp⟩ := h.origin
        obtain ⟨n', hn', -, hd', hp', -⟩ := hg.nodes 0 n hn
        exact ⟨n', hn', hd'.trans hd, hp'.trans hp⟩
      · by_cases hlt : x < m.size
        · exact h.grows_of_lt hg hlt hn' hx
        -- A tile that was not there before is the one that the step has placed.
        · have hxm' := lt_size_of_node hn'
          split at hfoot
          · exact absurd (hfoot.2 ▸ hxm') hlt
          · obtain ⟨n, c, hn, -, ⟨q, f, -, -, -, hj⟩ | ⟨-, place, happ⟩⟩ := hfoot
            · exact absurd (hj.size_eq ▸ hxm') hlt
            · obtain rfl : x = m.size := by
                rw [happ.size_eq] at hxm'
                omega
              exact happ.descends hn hg hn'

/-- What a run keeps. -/
theorem after_grown (ht : m.tiling.WellFormed) (hm : Linked m) (h : Grown m) (calls : List Call) :
    Grown (m.after calls) := by
  refine (after_keeps (R := fun m m' => m.tiling.WellFormed → Linked m → Grown m →
      (Linked m' ∧ Grows m m') ∧ Grown m') (fun m _ hm h => ⟨⟨hm, .refl m⟩, h⟩) ?_
    (fun id edge m ht hm h => ⟨step_linked ht hm id edge, step_grown ht hm h id edge⟩)
    m calls ht hm h).2
  intro m₁ m₂ m₃ h₁ h₂ ht hm h
  obtain ⟨⟨hm₂, hg₂⟩, hgrown₂⟩ := h₁ ht hm h
  obtain ⟨⟨hm₃, hg₃⟩, hgrown₃⟩ := h₂ (hg₂.tiling ▸ ht) hm₂ hgrown₂
  exact ⟨⟨hm₃, hg₂.trans hg₃⟩, hgrown₃⟩

omit [Scalar α] in
theorem Grown.of_single {n : Node} (h : m.nodes = #[n]) (hd : n.distance = 0)
    (hp : n.parity = false) : Grown m := by
  refine ⟨⟨n, by rw [h]; rfl, hd, hp⟩, fun p n' hn' hp₀ => ?_⟩
  have := lt_size_of_node hn'
  rw [size, h] at this
  exact absurd (Nat.lt_one_iff.mp this) hp₀

theorem ofTiling_grown {t : Tiling α} (h : ofTiling t = .ok m) : Grown m := by
  obtain ⟨degree, hnodes⟩ := ofTiling_nodes h
  exact .of_single hnodes rfl rfl

/-! ### Walks -/

/-- A walk from the origin across edges given one after another. -/
def wander (edges : List Nat) : Walk α Nat := edges.foldlM (fun id edge => step id edge) 0

/-- No tile is farther from the origin than a walk is long that started in a new atlas. -/
theorem wander_ok {t : Tiling α} {m₀ : Atlas α} (ht : t.WellFormed) (h₀ : ofTiling t = .ok m₀)
    {edges : List Nat} {id : Nat} (h : wander edges m₀ = .ok id m) :
    m.tiling.WellFormed ∧ Linked m ∧
      ∀ (a : Nat) (n : Node), m.nodes[a]? = some n → n.distance ≤ edges.length := by
  obtain ⟨rfl, hlinked⟩ := ofTiling_linked h₀
  refine foldlM_ok (P := fun edges _ m => m.tiling.WellFormed ∧ Linked m ∧
      ∀ (a : Nat) (n : Node), m.nodes[a]? = some n → n.distance ≤ edges.length)
    (fun edges edge id m id' m' hP hstep => ?_) ⟨ht, hlinked, (ofTiling_isFresh h₀).near⟩ h
  obtain ⟨ht, hm, hnear⟩ := hP
  have hs := step_ok ht hm hstep
  refine ⟨hs.grows.tiling ▸ ht, hs.linked, ?_⟩
  rw [List.length_append]
  exact hs.near hnear

/-- **Distances and parities follow a tree.**  After any calls the origin stores the distance 0 and
no parity, and every other tile has an edge that leads to an earlier tile, one step nearer, across
which its parity changes as the gluing says.  So every tile is joined to the origin, across no more
links than the distance that it stores.  A tile that is placed by the last move of a walk in a new
atlas is no farther away than the walk has moves. -/
theorem distances_follow_tree {t : Tiling α} {m₀ : Atlas α} (ht : t.WellFormed)
    (h₀ : ofTiling t = .ok m₀) (calls : List Call) :
    let m := m₀.after calls
    (∃ n, m.nodes[0]? = some n ∧ n.distance = 0 ∧ n.parity = false) ∧
    (∀ (p : Nat) (n : Node), m.nodes[p]? = some n → p ≠ 0 →
      ∃ e l q, m.neighbour? p e = some l ∧ l.node < p ∧ m.nodes[l.node]? = some q ∧
        n.distance = q.distance + 1 ∧ n.parity = (q.parity != l.mirror)) ∧
    (∀ (p : Nat) (n : Node), m.nodes[p]? = some n → ∃ d ≤ n.distance, m.IsDistance d p) ∧
    ∀ (edges : List Nat) (edge id p : Nat) (m₁ m₂ : Atlas α), wander edges m₀ = .ok id m₁ →
      step id edge m₁ = .ok p m₂ → m₁.size ≤ p →
      ∃ n, m₂.nodes[p]? = some n ∧ n.distance ≤ edges.length + 1 := by
  intro m
  obtain ⟨htiling, hlinked⟩ := ofTiling_linked h₀
  obtain ⟨hm, -⟩ := after_linked (htiling ▸ ht) hlinked calls
  have hgrown : Grown m := after_grown (htiling ▸ ht) hlinked (ofTiling_grown h₀) calls
  refine ⟨hgrown.origin, hgrown.descends, fun p n hn => within_iff.mp (hgrown.within hm hn), ?_⟩
  intro edges edge id p m₁ m₂ hwander hstep hp
  obtain ⟨ht₁, hm₁, hnear⟩ := wander_ok ht h₀ hwander
  have hs := step_ok ht₁ hm₁ hstep
  obtain ⟨hlt, -⟩ | ⟨-, -, n, n', -, hn', -⟩ := hs.tile
  · omega
  · exact ⟨n', hn', hs.near hnear p n' hn'⟩

/-- The square of `kite` is placed one step away from the triangle, across a link that says whether
its parity differs. -/
theorem distances_follow_tree_kite : kite.WellFormed ∧ ∃ m₀ m₁, ofTiling kite = .ok m₀ ∧
    step 0 0 m₀ = .ok 1 m₁ ∧ (∃ n, m₁.nodes[1]? = some n ∧ n.distance ≤ 1) ∧
    ∃ e l n, m₁.neighbour? 1 e = some l ∧ l.node = 0 ∧ m₁.nodes[1]? = some n ∧
      n.distance = 1 ∧ n.parity = l.mirror := by
  have ht : kite.WellFormed := by decide
  obtain ⟨m₀, h₀⟩ : ∃ m₀, ofTiling kite = .ok m₀ := ⟨_, rfl⟩
  obtain ⟨m₁, hstep⟩ := step_kite_ok h₀
  have hafter : m₀.after [.step 0 0] = m₁ := by
    change finalState (step 0 0) m₀ = m₁
    rw [finalState, hstep]
  have hsize : m₀.size = 1 := congrArg Array.size (kite_nodes h₀)
  obtain ⟨⟨o, ho, hdo, hpo⟩, htree, -, hwalk⟩ := distances_follow_tree ht h₀ [.step 0 0]
  rw [hafter] at ho htree
  obtain ⟨n, hn, hd⟩ := hwalk [] 0 0 1 m₀ m₁ rfl hstep (Nat.le_of_eq hsize)
  obtain ⟨e, l, q, hl, hlt, hq, hdn, hpn⟩ := htree 1 n hn Nat.one_ne_zero
  have hl₀ : l.node = 0 := Nat.lt_one_iff.mp hlt
  rw [hl₀] at hq
  obtain rfl : o = q := Option.some.inj (ho.symm.trans hq)
  refine ⟨ht, m₀, m₁, h₀, hstep, ⟨n, hn, hd⟩, e, l, n, hl, hl₀, hn, ?_, ?_⟩
  · rw [hdn, hdo]
  · rw [hpn, hpo]
    cases l.mirror <;> rfl

end Mosaic.Atlas
