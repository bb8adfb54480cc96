import Mosaic.Atlas.Basic
import Std.Data.HashSet

/-!
# Atlas — steps across an edge

A step across an edge that has not been resolved looks for a tile that already lies where the
neighbour has to be, and places a new one if there is none.

* `Walk`: computations on an atlas that keep it when they fail.
* `Atlas.findPlaced?`: a tile of the wanted shape and place, in the cells around that place.
* `Atlas.searchAffine`: in affine tilings, a breadth-first search of the resolved links for such a
  tile.
* `Atlas.step`: the neighbour across an edge. A step that fails leaves the atlas as it was.
-/

namespace Mosaic

/-- A computation on an atlas. -/
abbrev Walk (α : Type) := EStateM (MapError α) (Atlas α)

/-- The most tiles that an atlas may hold. -/
def maxNodes : Nat := 2000000

namespace Atlas

variable {α : Type} [Scalar α]

/-- The edge of tile `p` that edge `edge` of tile `id` can be linked to, where the tile would be
placed by `target` and has its own place seen from there by `own`: the same vertices follow each
other from that edge as from the edge the gluing names. -/
def matchingEdge? (m : Atlas α) (id edge : Nat) (c : Connection) (own target : Motion α)
    (node : Node) : Option Nat :=
  let space := m.tiling.space
  let s := m.tiling.shape c.shape
  let n := s.size
  let same (k j : Nat) : Bool :=
    space.samePoint (own.apply (s.vertex k)) (target.apply (s.vertex j))
  (List.range n).find? fun f =>
    same f c.edge && node.canLink f id edge
      && (List.range n).all fun k => same ((f + k) % n) ((c.edge + k) % n)

/-- A tile of shape `c.shape` at `place`, and its edge that can take the gluing `c` of edge `edge`
of tile `id`. All tiles in the cells around the place are compared with it in the frame of its
cell. -/
def findPlaced? (m : Atlas α) (id edge : Nat) (c : Connection) (place : Placement α) :
    Option (Nat × Nat) :=
  let space := m.tiling.space
  let center := place.offset.originImage
  (m.lattice.around place.key).findSome? fun (key, toHere) =>
    ((m.buckets[key]?).getD #[]).toList.findSome? fun p => do
      let node ← m.nodes[p]?
      guard (node.shape == c.shape)
      let own := toHere * (m.place p).offset
      guard (space.samePoint own.originImage center)
      return (p, ← m.matchingEdge? id edge c own place.offset node)

/-- Tiles to be examined with their motions, and the numbers of all tiles listed so far. -/
structure Search (α : Type) where
  queue : Array (Nat × Motion α)
  seen : Std.HashSet Nat

/-- The search with the tiles added that edges of tile `h`, which is seen by the motion `t`, lead
to. -/
def extendSearch (m : Atlas α) (h : Nat) (t : Motion α) (node : Node) (s : Search α) :
    Except (MapError α) (Search α) :=
  (List.range node.degree).foldlM (fun s k =>
    match node.link? k with
    | none => pure s
    | some l =>
      if s.seen.contains l.node then pure s
      else do
        let adjacency ← m.adjacencyOf h k
        return ⟨s.queue.push (l.node, t * adjacency), s.seen.insert l.node⟩) s

/-- Examines the tiles of the search from number `i` on, `fuel` at most, for one of shape `c.shape`
at `goal` whose edge `c.edge` can be linked to edge `edge` of tile `id`. -/
def searchAffine (m : Atlas α) (id edge : Nat) (c : Connection) (goal : Motion α) :
    (fuel : Nat) → (i : Nat) → Search α → Except (MapError α) (Option Nat)
  | 0, _, _ => .ok none
  | fuel + 1, i, s =>
    match s.queue[i]? with
    | none => .ok none
    | some (h, t) =>
      match m.nodes[h]? with
      | none => .ok none
      | some node =>
        if node.shape == c.shape && t.approxEq goal && node.canLink c.edge id edge then
          .ok (some h)
        else do
          searchAffine m id edge c goal fuel (i + 1) (← m.extendSearch h t node s)

/-- Places the neighbour of tile `id` across `edge` and links it. -/
def create (id edge : Nat) (c : Connection) (place : Placement α) : Walk α Nat := fun m =>
  if maxNodes ≤ m.nodes.size then .error (.tooManyNodes maxNodes) m
  else
    match m.nodes[id]? with
    | none => .error (.invalidNode id) m
    | some parent =>
      let p := m.nodes.size
      let node := Node.fresh c.shape (m.tiling.shape c.shape).size (parent.distance + 1)
        (parent.parity != c.mirror)
      .ok p ((m.insert node place).link id edge p c.edge c.mirror)

/-- Resolves an edge whose neighbour is seen by the motion `adjacency`. -/
def resolve (id edge : Nat) (c : Connection) (adjacency : Motion α) : Walk α Nat := fun m =>
  let here := m.place id
  if m.isAffine then
    match m.searchAffine id edge c adjacency m.tiling.affineLimit 0
        ⟨#[(id, Motion.identity)], Std.HashSet.emptyWithCapacity.insert id⟩ with
    | .error e => .error e m
    | .ok (some h) => .ok h (m.link id edge h c.edge c.mirror)
    | .ok none => create id edge c ⟨.globe, here.offset * adjacency⟩ m
  else
    let place := m.lattice.settle here.key (here.offset * adjacency)
    match m.findPlaced? id edge c place with
    | some (p, f) => .ok p (m.link id edge p f c.mirror)
    | none => create id edge c place m

/-- The neighbour of a tile across an edge, placed if need be. -/
def step (id edge : Nat) : Walk α Nat := fun m =>
  match m.nodes[id]? with
  | none => .error (.invalidNode id) m
  | some node =>
    if node.degree ≤ edge then .error (.invalidEdge node.shape edge) m
    else
      match node.link? edge with
      | some l => .ok l.node m
      | none =>
        match m.adjacencyOf id edge with
        | .error e => .error e m
        | .ok adjacency =>
          resolve id edge ((m.tiling.shape node.shape).connection edge) adjacency m

end Atlas

end Mosaic
