import Mathlib.Data.Option.Basic
import Mosaic.Atlas.Step
import Mosaic.Proofs.Atlas.Link

/-!
# Atlas — what a step does

A step across an edge has one of four outcomes (`StepOutcome`, `step_outcome`): it fails and leaves
the atlas alone, it finds the edge resolved, it links the edge to an edge of a tile that has been
placed before, or it places a tile and links the edge to that.  The tile that is reused has the
shape that the gluing names, and the edge of it that is linked can take the gluing (`Meets`); the
three ways of finding one, in the cells around the place and by the affine search, agree on that.
-/

namespace Mosaic.Atlas

variable {α : Type} [Scalar α]

/-- Tile `p` has the shape that the gluing `c` of edge `edge` of tile `id` names, and its edge `f`
is unresolved or leads there. -/
def Meets (m : Atlas α) (id edge : Nat) (c : Connection) (p f : Nat) : Prop :=
  ∃ node, m.nodes[p]? = some node ∧ node.shape = c.shape ∧ node.canLink f id edge

/-- The edge that is found fits, and is free. -/
theorem matchingEdge?_spec {m : Atlas α} {id edge : Nat} {c : Connection} {own target : Motion α}
    {node : Node} {f : Nat} (h : m.matchingEdge? id edge c own target node = some f) :
    f < (m.tiling.shape c.shape).size ∧ node.canLink f id edge := by
  have hf := List.find?_some h
  simp only [Bool.and_eq_true] at hf
  exact ⟨List.mem_range.mp (List.mem_of_find?_eq_some h), hf.1.2⟩

/-- The tile that is found in the cells around meets the edge. -/
theorem findPlaced?_spec {m : Atlas α} {id edge : Nat} {c : Connection} {place : Placement α}
    {p f : Nat} (h : m.findPlaced? id edge c place = some (p, f)) :
    f < (m.tiling.shape c.shape).size ∧ m.Meets id edge c p f := by
  obtain ⟨⟨key, toHere⟩, -, h⟩ := List.exists_of_findSome?_eq_some h
  obtain ⟨q, -, h⟩ := List.exists_of_findSome?_eq_some h
  simp [Option.bind_eq_some_iff, Option.guard_eq_some'] at h
  obtain ⟨node, hnode, hshape, -, hf, rfl⟩ := h
  obtain ⟨hlt, hcan⟩ := matchingEdge?_spec hf
  exact ⟨hlt, node, hnode, hshape, hcan⟩

/-- The tile that is found by searching meets the edge. -/
theorem searchAffine_spec {m : Atlas α} {id edge : Nat} {c : Connection} {goal : Motion α} {h : Nat} :
    ∀ {fuel i : Nat} {s : Search α}, m.searchAffine id edge c goal fuel i s = .ok (some h) →
      m.Meets id edge c h c.edge
  | fuel + 1, i, s, hs => by
      unfold searchAffine at hs
      split at hs
      · cases hs
      · split at hs
        · cases hs
        · split at hs
          · rename_i node hnode hif
            cases hs
            simp only [Bool.and_eq_true, beq_iff_eq] at hif
            exact ⟨node, hnode, hif.1.1, hif.2⟩
          · cases hx : m.extendSearch _ _ _ s with
            | error e => rw [hx] at hs; cases hs
            | ok s' => rw [hx] at hs; exact searchAffine_spec hs

/-- The outcomes of a step across edge `edge` of tile `id`. -/
inductive StepOutcome (m : Atlas α) (id edge : Nat) :
    EStateM.Result (MapError α) (Atlas α) Nat → Prop where
  | failed (e : MapError α) : StepOutcome m id edge (.error e m)
  | resolved {l : Link} (h : m.neighbour? id edge = some l) : StepOutcome m id edge (.ok l.node m)
  | reused {n : Node} {c : Connection} {p f : Nat} (hn : m.nodes[id]? = some n)
      (he : edge < n.degree) (hfree : n.link? edge = none)
      (hc : (m.tiling.shape n.shape).connection edge = c)
      (hf : f < (m.tiling.shape c.shape).size ∨ f = c.edge) (hp : m.Meets id edge c p f) :
      StepOutcome m id edge (.ok p (m.link id edge p f c.mirror))
  | created {n : Node} {c : Connection} (hn : m.nodes[id]? = some n) (he : edge < n.degree)
      (hfree : n.link? edge = none) (hc : (m.tiling.shape n.shape).connection edge = c)
      (hsize : m.nodes.size < maxNodes) (place : Placement α) :
      StepOutcome m id edge (.ok m.nodes.size
        ((m.insert (Node.fresh c.shape (m.tiling.shape c.shape).size (n.distance + 1)
          (n.parity != c.mirror)) place).link id edge m.nodes.size c.edge c.mirror))

omit [Scalar α] in
/-- A new tile is appended. -/
theorem create_outcome {m : Atlas α} {id edge : Nat} {n : Node} (hn : m.nodes[id]? = some n)
    (he : edge < n.degree) (hfree : n.link? edge = none) (place : Placement α) :
    StepOutcome m id edge
      (create id edge ((m.tiling.shape n.shape).connection edge) place m) := by
  unfold create
  split
  · exact .failed _
  · rename_i hsize
    simp only [hn]
    exact .created hn he hfree rfl (Nat.lt_of_not_le hsize) place

/-- An edge that leads nowhere is joined to a tile, or gets a new one. -/
theorem resolve_outcome {m : Atlas α} {id edge : Nat} {n : Node} (hn : m.nodes[id]? = some n)
    (he : edge < n.degree) (hfree : n.link? edge = none) (adjacency : Motion α) :
    StepOutcome m id edge
      (resolve id edge ((m.tiling.shape n.shape).connection edge) adjacency m) := by
  unfold resolve
  simp only
  split
  · split
    · exact .failed _
    · rename_i hs
      exact .reused hn he hfree rfl (Or.inr rfl) (searchAffine_spec hs)
    · exact create_outcome hn he hfree _
  · split
    · rename_i hs
      obtain ⟨hf, hp⟩ := findPlaced?_spec hs
      exact .reused hn he hfree rfl (Or.inl hf) hp
    · exact create_outcome hn he hfree _

/-- All that a step can do. -/
theorem step_outcome (m : Atlas α) (id edge : Nat) : StepOutcome m id edge (step id edge m) := by
  unfold step
  split
  · exact .failed _
  · rename_i n hn
    split
    · exact .failed _
    · rename_i he
      split
      · rename_i l hl
        exact .resolved (neighbour?_eq_some_iff.mpr ⟨n, hn, hl⟩)
      · rename_i hfree
        split
        · exact .failed _
        · exact resolve_outcome hn (Nat.lt_of_not_le he) hfree _

/-- A step across a resolved edge answers the neighbour and changes nothing. -/
theorem step_of_resolved {m : Atlas α} {id edge : Nat} {l : Link}
    (h : m.neighbour? id edge = some l) : step id edge m = .ok l.node m := by
  obtain ⟨n, hn, hl⟩ := neighbour?_eq_some_iff.mp h
  have he : ¬ n.degree ≤ edge := Nat.not_le_of_lt (Node.lt_degree_of_link? hl)
  simp only [step, hn, he, hl, if_false]

end Mosaic.Atlas
