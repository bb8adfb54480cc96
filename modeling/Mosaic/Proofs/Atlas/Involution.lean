import Mosaic.Proofs.Atlas.Run
import Mosaic.Proofs.Tiling.WellFormed
import Mosaic.Scalar.Double

/-!
# Atlas — links lead back

In an atlas of a well-formed tiling every resolved edge leads to an edge that is resolved and leads
back, by a gluing that one of the two shapes declares (`Linked`).  A step keeps this because it
links two edges that are both unresolved: an edge that can be linked to edge `e` of tile `a` is
either unresolved or leads there already, and in the second case edge `e` would be resolved too
(`Linked.unresolved_of_meets`).  It also follows that no link ever changes (`links_involutive`).
-/

namespace Mosaic.Atlas

variable {α : Type}

/-- The gluing that the shape of tile `a` declares for edge `e` names the shape of the tile that the
link `l` leads to, and is mirrored when `l` is. -/
def Declares (m : Atlas α) (a e : Nat) (l : Link) : Prop :=
  ∃ n p, m.nodes[a]? = some n ∧ m.nodes[l.node]? = some p ∧
    ((m.tiling.shape n.shape).connection e).shape = p.shape ∧
    ((m.tiling.shape n.shape).connection e).mirror = l.mirror

/-- Tiles are of shapes of the tiling and have all their edges, and every link is met by a link back
along a gluing that one of the two sides declares. -/
structure Linked (m : Atlas α) : Prop where
  shape_lt : ∀ (a : Nat) (n : Node), m.nodes[a]? = some n → n.shape < m.tiling.shapes.size
  degree_eq : ∀ (a : Nat) (n : Node), m.nodes[a]? = some n →
    n.degree = (m.tiling.shape n.shape).size
  back : ∀ a e l, m.neighbour? a e = some l → m.neighbour? l.node l.edge = some ⟨a, e, l.mirror⟩
  declared : ∀ a e l, m.neighbour? a e = some l →
    m.Declares a e l ∨ m.Declares l.node l.edge ⟨a, e, l.mirror⟩

theorem Declares.mono {m m' : Atlas α} (h : Grows m m') {a e : Nat} {l : Link}
    (hd : m.Declares a e l) : m'.Declares a e l := by
  obtain ⟨n, p, hn, hp, hs, hm⟩ := hd
  obtain ⟨n', hn', hns, -⟩ := h.nodes a n hn
  obtain ⟨p', hp', hps, -⟩ := h.nodes l.node p hp
  refine ⟨n', p', hn', hp', ?_⟩
  rw [h.tiling, hns, hps]
  exact ⟨hs, hm⟩

/-- A new tile without links keeps all links as they are. -/
theorem Linked.insert {m : Atlas α} (hm : Linked m) {n : Node} (hfree : ∀ k, n.link? k = none)
    (hs : n.shape < m.tiling.shapes.size) (hd : n.degree = (m.tiling.shape n.shape).size)
    (place : Placement α) : Linked (m.insert n place) where
  shape_lt a n' h := by
    rw [getElem?_insert] at h
    split at h
    · cases h; exact hs
    · exact hm.shape_lt a n' h
  degree_eq a n' h := by
    rw [getElem?_insert] at h
    split at h
    · cases h; exact hd
    · exact hm.degree_eq a n' h
  back a e l h := by
    rw [neighbour?_insert hfree] at h ⊢
    exact hm.back a e l h
  declared a e l h := by
    rw [neighbour?_insert hfree] at h
    have hg := grows_insert (m := m) hfree place
    exact (hm.declared a e l h).imp (.mono hg) (.mono hg)

/-- Linking two unresolved edges along a gluing that the first one declares. -/
theorem Linked.link {m : Atlas α} (hm : Linked m) {a e b f : Nat} {na nb : Node} {mirror : Bool}
    (ha : m.nodes[a]? = some na) (he : e < na.degree) (hb : m.nodes[b]? = some nb)
    (hf : f < nb.degree) (hae : m.neighbour? a e = none) (hbf : m.neighbour? b f = none)
    (hshape : ((m.tiling.shape na.shape).connection e).shape = nb.shape)
    (hmirror : ((m.tiling.shape na.shape).connection e).mirror = mirror) :
    Linked (m.link a e b f mirror) := by
  have hg : Grows m (m.link a e b f mirror) := grows_link ha he hb hf mirror hae hbf
  have hlink := neighbour?_link ha he hb hf mirror
  have hdecl : (m.link a e b f mirror).Declares a e ⟨b, f, mirror⟩ :=
    Declares.mono hg ⟨na, nb, ha, hb, hshape, hmirror⟩
  constructor
  case shape_lt =>
    intro x n' h
    obtain ⟨n, hn, hs, -⟩ := exists_of_getElem?_link h
    exact hs ▸ hm.shape_lt x n hn
  case degree_eq =>
    intro x n' h
    obtain ⟨n, hn, hs, -, -, hd⟩ := exists_of_getElem?_link h
    rw [hd, hs]
    exact hm.degree_eq x n hn
  case back =>
    intro x k l h
    rw [hlink] at h
    split at h
    · rename_i hxk
      obtain ⟨rfl, rfl⟩ := hxk
      cases h
      rw [hlink]
      grind
    · split at h
      · rename_i hxk
        obtain ⟨rfl, rfl⟩ := hxk
        cases h
        rw [hlink, if_pos ⟨rfl, rfl⟩]
      · exact hg.links _ _ _ (hm.back x k l h)
  case declared =>
    intro x k l h
    rw [hlink] at h
    split at h
    · rename_i hxk
      obtain ⟨rfl, rfl⟩ := hxk
      cases h
      exact Or.inr hdecl
    · split at h
      · rename_i hxk
        obtain ⟨rfl, rfl⟩ := hxk
        cases h
        exact Or.inl hdecl
      · exact (hm.declared x k l h).imp (.mono hg) (.mono hg)

/-- **Edges that are reused are unresolved.**  An edge that leads to an unresolved edge would have
been met by a link back. -/
theorem Linked.unresolved_of_meets {m : Atlas α} (hm : Linked m) {a e p f : Nat} {c : Connection}
    (hae : m.neighbour? a e = none) (hp : m.Meets a e c p f) : m.neighbour? p f = none := by
  obtain ⟨node, hnode, -, hcan⟩ := hp
  rw [neighbour?_eq hnode]
  cases hl : node.link? f with
  | none => rfl
  | some l =>
      obtain ⟨rfl, rfl⟩ := Node.canLink_iff.mp hcan l hl
      have := hm.back p f l ((neighbour?_eq hnode f).trans hl)
      rw [hae] at this
      cases this

/-- The gluing of an edge of a tile leads to an edge of a shape of the tiling. -/
theorem Linked.connection_eq {m : Atlas α} (hm : Linked m) (ht : m.tiling.WellFormed)
    {a e : Nat} {n : Node} {c : Connection} (hn : m.nodes[a]? = some n) (he : e < n.degree)
    (hc : (m.tiling.shape n.shape).connection e = c) :
    m.tiling.connection? n.shape e = some c ∧ c.shape < m.tiling.shapes.size ∧
      c.edge < (m.tiling.shape c.shape).size := by
  subst hc
  have hs := hm.shape_lt a n hn
  have hsize : e < (m.tiling.shape n.shape).size := hm.degree_eq a n hn ▸ he
  exact ⟨ht.connection_eq hs hsize, ht.target_shape_lt hs hsize, ht.target_edge_lt hs hsize⟩

/-- The tile that is reused has the edge that is linked. -/
theorem Linked.exists_of_meets {m : Atlas α} (hm : Linked m) {a e p f : Nat} {c : Connection}
    (hc : c.edge < (m.tiling.shape c.shape).size)
    (hf : f < (m.tiling.shape c.shape).size ∨ f = c.edge) (hp : m.Meets a e c p f) :
    ∃ q, m.nodes[p]? = some q ∧ q.shape = c.shape ∧ f < q.degree := by
  obtain ⟨q, hq, hshape, -⟩ := hp
  refine ⟨q, hq, hshape, ?_⟩
  rw [hm.degree_eq p q hq, hshape]
  rcases hf with hf | rfl
  · exact hf
  · exact hc

variable [Scalar α]

/-- What a step keeps. -/
theorem step_linked {m : Atlas α} (ht : m.tiling.WellFormed) (hm : Linked m) (id edge : Nat) :
    Linked (finalState (step id edge) m) ∧ Grows m (finalState (step id edge) m) := by
  have hout := step_outcome m id edge
  unfold finalState
  generalize step id edge m = r at hout
  cases hout with
  | failed e => exact ⟨hm, .refl m⟩
  | resolved h => exact ⟨hm, .refl m⟩
  | @reused n c p f hn he hfree hc hf hp =>
      have hae : m.neighbour? id edge = none := (neighbour?_eq hn edge).trans hfree
      have hbf := hm.unresolved_of_meets hae hp
      obtain ⟨-, -, hce⟩ := hm.connection_eq ht hn he hc
      obtain ⟨q, hq, hshape, hfq⟩ := hm.exists_of_meets hce hf hp
      exact ⟨hm.link hn he hq hfq hae hbf (hc ▸ hshape.symm) (hc ▸ rfl),
        grows_link hn he hq hfq _ hae hbf⟩
  | @created n c hn he hfree hc hmax place =>
      obtain ⟨-, hcs, hce⟩ := hm.connection_eq ht hn he hc
      -- First the tile is placed, and then it is linked.
      generalize hnew : Node.fresh c.shape _ _ _ = new
      have hempty : ∀ k, new.link? k = none := by subst hnew; simp
      have hnshape : new.shape = c.shape := by subst hnew; rfl
      have hdeg : new.degree = (m.tiling.shape new.shape).size := by subst hnew; simp; rfl
      have hid : id ≠ m.nodes.size := Nat.ne_of_lt (Array.getElem?_eq_some_iff.mp hn).1
      have hn' : (m.insert new place).nodes[id]? = some n := by
        rw [getElem?_insert, if_neg hid, hn]
      have hp' : (m.insert new place).nodes[m.nodes.size]? = some new := by
        rw [getElem?_insert, if_pos rfl]
      have hae : (m.insert new place).neighbour? id edge = none :=
        (neighbour?_eq hn' edge).trans hfree
      have hbf : (m.insert new place).neighbour? m.nodes.size c.edge = none :=
        (neighbour?_eq hp' _).trans (hempty _)
      have hf : c.edge < new.degree := by rwa [hdeg, hnshape]
      have hins : Linked (m.insert new place) := hm.insert hempty (hnshape ▸ hcs) hdeg place
      exact ⟨hins.link hn' he hp' hf hae hbf (hc ▸ hnshape.symm) (hc ▸ rfl),
        (grows_insert hempty place).trans (grows_link hn' he hp' hf _ hae hbf)⟩

/-- What a step keeps, as a relation that is passed on from step to step. -/
def KeepsLinks (m m' : Atlas α) : Prop :=
  m.tiling.WellFormed → Linked m → Linked m' ∧ Grows m m'

omit [Scalar α] in
theorem KeepsLinks.refl (m : Atlas α) : KeepsLinks m m := fun _ hm => ⟨hm, .refl m⟩

omit [Scalar α] in
theorem KeepsLinks.trans (m₁ m₂ m₃ : Atlas α) (h₁ : KeepsLinks m₁ m₂) (h₂ : KeepsLinks m₂ m₃) :
    KeepsLinks m₁ m₃ := by
  intro ht hm
  obtain ⟨hm₂, hg₂⟩ := h₁ ht hm
  obtain ⟨hm₃, hg₃⟩ := h₂ (hg₂.tiling ▸ ht) hm₂
  exact ⟨hm₃, hg₂.trans hg₃⟩

/-- What a run keeps. -/
theorem after_linked {m : Atlas α} (ht : m.tiling.WellFormed) (hm : Linked m) (calls : List Call) :
    Linked (m.after calls) ∧ Grows m (m.after calls) :=
  after_keeps KeepsLinks.refl KeepsLinks.trans
    (fun id edge _ ht hm => step_linked ht hm id edge) m calls ht hm

/-- The atlas of a tiling starts with one tile, of the first shape. -/
theorem ofTiling_linked {t : Tiling α} {m : Atlas α} (h : ofTiling t = .ok m) :
    m.tiling = t ∧ Linked m := by
  obtain ⟨first, hfirst, rfl⟩ := ofTiling_ok h
  have hempty : Linked (empty t) := by
    constructor <;> intro a <;> simp [empty, neighbour?]
  refine ⟨rfl, hempty.insert (Node.link?_fresh _ _ _ _) ?_ ?_ _⟩
  · exact (Array.getElem?_eq_some_iff.mp hfirst).1
  · exact (Node.fresh_degree ..).trans (congrArg Shape.size (Tiling.shape_eq hfirst).symm)

/-- A combinatorial tiling refuses no gluing, wherever its shapes lie. -/
theorem adjacencyVia_of_isCombinatorial {t : Tiling α} (h : t.isCombinatorial = true) {a e : Nat}
    {s : Shape α} {c : Connection} (hs : t.shapes[a]? = some s) (hc : t.connection? a e = some c)
    (hf : c.edge < (t.shape c.shape).size) (affine : Bool) :
    ∃ motion, t.adjacencyVia a e none affine = .ok motion := by
  unfold Tiling.adjacencyVia
  simp only [hs, hc, h, Option.getD_none, Nat.not_le_of_lt hf, Bool.not_true, Bool.and_false,
    if_false, Bool.false_eq_true]
  exact ⟨_, rfl⟩

theorem Linked.adjacencyOf_of_isCombinatorial {m : Atlas α} (hm : Linked m)
    (ht : m.tiling.WellFormed) (h : m.tiling.isCombinatorial = true) {a e : Nat} {n : Node}
    (hn : m.nodes[a]? = some n) (he : e < n.degree) (hfree : n.link? e = none) :
    ∃ motion, m.adjacencyOf a e = .ok motion := by
  obtain ⟨hc, -, hce⟩ := hm.connection_eq ht hn he rfl
  have hs := Tiling.getElem?_shape (hm.shape_lt a n hn)
  simp only [adjacencyOf, hn, hfree]
  exact adjacencyVia_of_isCombinatorial h hs hc hce _

/-- **Links are a permanent partial involution.**  After any calls, whether they fail or not, tiles
have the edges of their shapes, and a resolved edge leads to an edge that leads back, by a gluing
that one of the two sides declares.  No later call changes the link, and a step back across it
changes nothing. -/
theorem links_involutive {t : Tiling α} {m₀ : Atlas α} (ht : t.WellFormed)
    (h₀ : ofTiling t = .ok m₀) (calls : List Call) :
    let m := m₀.after calls
    m.tiling = t ∧
    (∀ (a : Nat) (n : Node), m.nodes[a]? = some n → n.degree = (t.shape n.shape).size) ∧
    ∀ a e l, m.neighbour? a e = some l →
      (∃ p, m.nodes[l.node]? = some p ∧ l.edge < p.degree) ∧
      m.neighbour? l.node l.edge = some ⟨a, e, l.mirror⟩ ∧
      (m.Declares a e l ∨ m.Declares l.node l.edge ⟨a, e, l.mirror⟩) ∧
      ∀ later, (m.after later).neighbour? a e = some l ∧
        step l.node l.edge (m.after later) = .ok a (m.after later) := by
  intro m
  obtain ⟨htiling, hlinked⟩ := ofTiling_linked h₀
  obtain ⟨hm, hg⟩ := after_linked (htiling ▸ ht) hlinked calls
  have hmt : m.tiling = t := hg.tiling.trans htiling
  refine ⟨hmt, fun a n hn => hmt ▸ hm.degree_eq a n hn, fun a e l hl => ?_⟩
  have hback := hm.back a e l hl
  refine ⟨?_, hback, hm.declared a e l hl, fun later => ?_⟩
  · obtain ⟨p, hp, hpl⟩ := neighbour?_eq_some_iff.mp hback
    exact ⟨p, hp, Node.lt_degree_of_link? hpl⟩
  · have hlater := (after_linked (hmt ▸ ht) hm later).2
    exact ⟨hlater.links a e l hl, step_of_resolved (hlater.links _ _ _ hback)⟩

/-- A triangle and a square of the affine plane, each glued to the other by a mirrored gluing of
which only the triangle's side is declared. -/
def kite : Tiling Float :=
  let shape (n : Nat) (connections : Array Connection) : Shape Float :=
    { (Shape.empty : Shape Float) with
      vertices := Array.replicate n Point.origin
      edges := Array.replicate n (.finite 1)
      connections }
  { (Tiling.empty : Tiling Float) with
    geometry := .affine
    isCombinatorial := true
    shapes := #[shape 3 #[⟨1, 3, true⟩, ⟨0, 1, false⟩, ⟨0, 2, false⟩],
      shape 4 #[⟨1, 0, false⟩, ⟨1, 1, false⟩, ⟨1, 2, false⟩, ⟨0, 2, true⟩]] }

theorem kite_nodes {m₀ : Atlas Float} (h₀ : ofTiling kite = .ok m₀) :
    m₀.nodes = #[Node.fresh 0 3 0 false] := by
  cases h₀
  rfl

/-- The search for the square that the triangle is glued to finds only the triangle. -/
theorem step_kite {m₀ : Atlas Float} (h₀ : ofTiling kite = .ok m₀) :
    ∃ place, step 0 0 m₀ = create 0 0 ⟨1, 3, true⟩ place m₀ := by
  obtain ⟨htiling, hlinked⟩ := ofTiling_linked h₀
  have hfirst : m₀.nodes[0]? = some (Node.fresh 0 3 0 false) := by rw [kite_nodes h₀]; rfl
  obtain ⟨motion, hmotion⟩ := hlinked.adjacencyOf_of_isCombinatorial (htiling ▸ by decide)
    (htiling ▸ rfl) hfirst (show 0 < 3 by decide) rfl
  unfold step
  simp only [hmotion]
  cases h₀
  exact ⟨_, rfl⟩

theorem links_involutive_kite : kite.WellFormed ∧ ∃ m₀, ofTiling kite = .ok m₀ ∧
    let m := m₀.after [.step 0 0]
    m.neighbour? 0 0 = some ⟨1, 3, true⟩ ∧ m.neighbour? 1 3 = some ⟨0, 0, true⟩ ∧
      ∀ later, step 1 3 (m.after later) = .ok 0 (m.after later) := by
  have ht : kite.WellFormed := by decide
  obtain ⟨m₀, h₀⟩ : ∃ m₀, ofTiling kite = .ok m₀ := ⟨_, rfl⟩
  refine ⟨ht, m₀, h₀, ?_⟩
  intro m
  have hlink : m.neighbour? 0 0 = some ⟨1, 3, true⟩ := by
    obtain ⟨place, hstep⟩ := step_kite h₀
    have hm : m = finalState (create 0 0 ⟨1, 3, true⟩ place) m₀ := by
      change finalState (step 0 0) m₀ = _
      rw [finalState, hstep, finalState]
    rw [hm]
    cases h₀
    rfl
  obtain ⟨-, -, h⟩ := links_involutive ht h₀ [.step 0 0]
  obtain ⟨-, hback, -, hlater⟩ := h 0 0 _ hlink
  exact ⟨hlink, hback, fun later => (hlater later).2⟩

end Mosaic.Atlas
