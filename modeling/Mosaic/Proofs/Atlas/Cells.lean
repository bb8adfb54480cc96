import Mosaic.Proofs.Atlas.Scan
import Mosaic.Proofs.Descent

/-!
# Atlas — the cells miss no tile

The tiles in the cells around a place are examined one after another, and one is found if it
coincides with the tile wanted (`Coincides`).  What is found in this way is found by going through
all tiles of the atlas whose cells touch that of the place, and conversely
(`findPlaced?_isSome_iff`, `cells_miss_no_tile`).
-/

namespace Mosaic.Atlas

variable {α : Type} [Scalar α] {m : Atlas α}

/-! ### What is found -/

/-- The vertices of shape `c.shape`, counted from number `f` and moved by `own`, lie where those
counted from `c.edge` and moved by `target` do. -/
def Agrees (m : Atlas α) (c : Connection) (own target : Motion α) (f : Nat) : Prop :=
  let s := m.tiling.shape c.shape
  ∀ k < s.size, m.tiling.space.samePoint (own.apply (s.vertex ((f + k) % s.size)))
    (target.apply (s.vertex ((c.edge + k) % s.size))) = true

/-- Tile `p`, seen by the motion `toHere` from its cell, is of the shape that the gluing `c` names
and lies where a tile at `place` would, its vertices counted from edge `f`, and this edge is
unresolved or leads to edge `edge` of tile `id`. -/
structure Coincides (m : Atlas α) (id edge : Nat) (c : Connection) (place : Placement α)
    (toHere : Motion α) (p f : Nat) : Prop where
  free : ∃ node, m.nodes[p]? = some node ∧ node.shape = c.shape ∧
    ∀ l, node.link? f = some l → l.node = id ∧ l.edge = edge
  center : m.tiling.space.samePoint (toHere * (m.place p).offset).originImage
    place.offset.originImage = true
  edge_lt : f < (m.tiling.shape c.shape).size
  vertices : m.Agrees c (toHere * (m.place p).offset) place.offset f

section Examine

variable {id edge : Nat} {c : Connection} {place : Placement α}

theorem agrees_of_matchingEdge? {own target : Motion α} {node : Node} {f : Nat}
    (h : m.matchingEdge? id edge c own target node = some f) : m.Agrees c own target f := by
  have hf := List.find?_some h
  simp only [Bool.and_eq_true, List.all_eq_true, List.mem_range] at hf
  exact hf.2

/-- The vertex that is compared before all of them is one of them. -/
theorem matchingEdge?_isSome {own target : Motion α} {node : Node} {f : Nat}
    (hc : c.edge < (m.tiling.shape c.shape).size) (hf : f < (m.tiling.shape c.shape).size)
    (hcan : node.canLink f id edge) (h : m.Agrees c own target f) :
    (m.matchingEdge? id edge c own target node).isSome := by
  unfold matchingEdge?
  simp only [List.find?_isSome, List.mem_range, Bool.and_eq_true, List.all_eq_true]
  refine ⟨f, hf, ⟨?_, hcan⟩, h⟩
  have h₀ := h 0 (Nat.zero_lt_of_lt hf)
  rwa [Nat.add_zero, Nat.add_zero, Nat.mod_eq_of_lt hf, Nat.mod_eq_of_lt hc] at h₀

theorem examine?_coincides {x : Nat × Motion α} {p f : Nat}
    (h : m.examine? id edge c place x = some (p, f)) :
    p = x.1 ∧ m.Coincides id edge c place x.2 p f := by
  simp [examine?, Option.bind_eq_some_iff, Option.guard_eq_some'] at h
  obtain ⟨node, hnode, hshape, hcenter, hf, rfl⟩ := h
  obtain ⟨hlt, hcan⟩ := matchingEdge?_spec hf
  exact ⟨rfl, ⟨node, hnode, hshape, Node.canLink_iff.mp hcan⟩, hcenter, hlt,
    agrees_of_matchingEdge? hf⟩

theorem Coincides.examine? {toHere : Motion α} {p f : Nat}
    (hc : c.edge < (m.tiling.shape c.shape).size) (h : m.Coincides id edge c place toHere p f) :
    (m.examine? id edge c place (p, toHere)).isSome := by
  obtain ⟨node, hnode, hshape, hfree⟩ := h.free
  obtain ⟨f', hf'⟩ := Option.isSome_iff_exists.mp
    (matchingEdge?_isSome hc h.edge_lt (Node.canLink_iff.mpr hfree) h.vertices)
  rw [Option.isSome_iff_exists]
  refine ⟨(p, f'), ?_⟩
  simp [Atlas.examine?, hnode, hshape, h.center, hf']

/-- A tile is found exactly when one of the candidates coincides. -/
theorem findPlaced?_isSome_iff (h : Filed m) (haffine : m.isAffine = false)
    (hc : c.edge < (m.tiling.shape c.shape).size) :
    (m.findPlaced? id edge c place).isSome ↔ ∃ p toHere f, p < m.size ∧
      ((m.place p).key, toHere) ∈ m.lattice.around place.key ∧
      m.Coincides id edge c place toHere p f := by
  rw [findPlaced?_eq, List.findSome?_isSome_iff]
  constructor
  · rintro ⟨x, hx, hsome⟩
    obtain ⟨⟨p, f⟩, hpf⟩ := Option.isSome_iff_exists.mp hsome
    obtain ⟨rfl, hco⟩ := examine?_coincides hpf
    obtain ⟨hlt, haround⟩ := (mem_candidates h haffine).mp hx
    exact ⟨x.1, x.2, f, hlt, haround, hco⟩
  · rintro ⟨p, toHere, f, hlt, haround, hco⟩
    exact ⟨(p, toHere), (mem_candidates h haffine).mpr ⟨hlt, haround⟩, hco.examine? hc⟩

end Examine

/-- **The cells miss no tile.**  After any calls there are as many places as tiles, and an affine
atlas has no cells.  In any other every tile is filed once, in its own cell, and the tiles of a cell
stand in the order of their numbers.  So to look for a tile around a place is to examine the tiles
whose cells touch that of the place, each once, where a cell is known by its name because it has
only one; and a tile is found exactly when one of all these coincides with the tile wanted. -/
theorem cells_miss_no_tile {t : Tiling α} {m₀ : Atlas α} (h₀ : ofTiling t = .ok m₀)
    (calls : List Call) :
    let m := m₀.after calls
    m.places.size = m.size ∧ (m.isAffine = true → m.buckets = ∅) ∧
    (m.isAffine = false →
      (∀ a < m.size, ∀ key, (m.bucket key).count a = if (m.place a).key = key then 1 else 0) ∧
      (∀ key, (m.bucket key).Pairwise (· < ·) ∧ ∀ a ∈ m.bucket key, a < m.size) ∧
      ∀ (id edge : Nat) (c : Connection) (x : Motion α),
        let place := m.lattice.settle (m.place id).key x
        (∀ a v w, (m.place a).key = .cell v → .cell w ∈ (m.lattice.around place.key).map Prod.fst →
          (v = w ↔ Word.Equivalent v w)) ∧
        ((m.candidates place.key).map Prod.fst).Nodup ∧
        (∀ y, y ∈ m.candidates place.key ↔
          y.1 < m.size ∧ ((m.place y.1).key, y.2) ∈ m.lattice.around place.key) ∧
        m.findPlaced? id edge c place =
          (m.candidates place.key).findSome? (m.examine? id edge c place) ∧
        (∀ p f, m.findPlaced? id edge c place = some (p, f) → ∃ toHere,
          ((m.place p).key, toHere) ∈ m.lattice.around place.key ∧
          m.Coincides id edge c place toHere p f) ∧
        (c.edge < (m.tiling.shape c.shape).size →
          ((m.findPlaced? id edge c place).isSome ↔ ∃ p toHere f, p < m.size ∧
            ((m.place p).key, toHere) ∈ m.lattice.around place.key ∧
            m.Coincides id edge c place toHere p f))) := by
  intro m
  have h : Filed m := after_filed (ofTiling_filed h₀) calls
  refine ⟨h.housed, h.unfiled, fun haffine => ⟨fun a ha => h.count_bucket haffine ha, fun key =>
    ⟨h.bucket_sorted haffine key, fun a ha => ((h.mem_bucket haffine).mp ha).1⟩, ?_⟩⟩
  intro id edge c x place
  have hplace : place.key.IsName := m.lattice.settle_isName (h.named id) x
  refine ⟨fun a v w hv hw => ?_, candidates_nodup h haffine hplace,
    fun y => mem_candidates h haffine, findPlaced?_eq id edge c place, fun p f hpf => ?_,
    fun hc => findPlaced?_isSome_iff h haffine hc⟩
  · exact AnchorKey.IsName.cell_inj (hv ▸ h.named a) (m.lattice.around_isName hplace hw)
  · rw [findPlaced?_eq] at hpf
    obtain ⟨y, hy, hpf⟩ := List.exists_of_findSome?_eq_some hpf
    obtain ⟨rfl, hco⟩ := examine?_coincides hpf
    exact ⟨y.2, ((mem_candidates h haffine).mp hy).2, hco⟩

/-- Four rectangles around a vertex that drift: going round it the other way leads to a place that
is `2e-7` away.  The heights are such that the border of a cell lies in between. -/
def drift : Tiling Fraction where
  __ := Tiling.empty
  geometry := .euclidean
  shapes := #[rectangle 0.2734099 2 1, rectangle 0.2734103 3 0, rectangle 1 0 3, rectangle 1 1 2]

/-- The atlas of `drift` with one tile. -/
def driftStart : Atlas Fraction := ((ofTiling drift).toOption).getD (empty drift)

/-- The atlas with all four of them, the last link around the vertex still missing. -/
def driftAround : Atlas Fraction := driftStart.scanAfter [(0, 2), (0, 1), (2, 2)]

/-- Tile 1 is to the left of tile 3, where it is seen by the motion `t`.  It is found after two
others, in another cell than the one that the motion leads to. -/
abbrev FoundBeside (m : Atlas Fraction) (t : Motion Fraction) : Prop :=
  let place := m.lattice.settle (m.place 3).key ((m.place 3).offset * t)
  (m.scanned place.key).map Prod.fst = [3, 0, 1, 2] ∧
    (m.scanned place.key).findSome? (m.examine? 3 3 ⟨2, 1, false⟩ place) = some (1, 1) ∧
    (m.place 1).key ≠ place.key

theorem driftAround_found :
    ∃ t, driftAround.adjacencyOf 3 3 = .ok t ∧ driftAround.FoundBeside t := by
  have hfound : (driftAround.adjacencyOf 3 3).toOption.any
      (fun t => decide (driftAround.FoundBeside t)) = true := by decide +kernel
  obtain ⟨t, ht, h⟩ := toOption_any_iff.mp hfound
  exact ⟨t, ht, of_decide_eq_true h⟩

/-- Round the vertex of `drift` a tile is found again from the cell next to its own, after two others
have been examined. -/
theorem cells_miss_no_tile_drift : ofTiling drift = .ok driftStart ∧
    let m := driftStart.after [.step 0 2, .step 0 1, .step 2 2]
    m.isAffine = false ∧ ∃ t toHere, m.adjacencyOf 3 3 = .ok t ∧
      let place := m.lattice.settle (m.place 3).key ((m.place 3).offset * t)
      (m.candidates place.key).map Prod.fst = [3, 0, 1, 2] ∧
      m.findPlaced? 3 3 ⟨2, 1, false⟩ place = some (1, 1) ∧
      (m.place 1).key ≠ place.key ∧ ((m.place 1).key, toHere) ∈ m.lattice.around place.key ∧
      m.Coincides 3 3 ⟨2, 1, false⟩ place toHere 1 1 := by
  have h₀ : ofTiling drift = .ok driftStart := rfl
  have hrun : driftStart.after [.step 0 2, .step 0 1, .step 2 2] = driftAround :=
    after_steps (ofTiling_filed h₀) [(0, 2), (0, 1), (2, 2)]
  have hfiled : Filed driftAround := hrun ▸ after_filed (ofTiling_filed h₀) _
  have haffine : driftAround.isAffine = false := by decide +kernel
  obtain ⟨t, ht, hcandidates, hfound, hkey⟩ := driftAround_found
  obtain ⟨-, -, h⟩ := cells_miss_no_tile h₀ [.step 0 2, .step 0 1, .step 2 2]
  rw [hrun] at h ⊢
  generalize driftAround = m at *
  rw [← hfiled.candidates_eq haffine] at hcandidates hfound
  obtain ⟨-, -, h⟩ := h haffine
  obtain ⟨-, -, -, hscan, hsound, -⟩ := h 3 3 ⟨2, 1, false⟩ ((m.place 3).offset * t)
  obtain ⟨toHere, haround, hcoincides⟩ := hsound 1 1 (hscan.trans hfound)
  exact ⟨h₀, haffine, t, toHere, ht, hcandidates, hscan.trans hfound, hkey, haround, hcoincides⟩

end Mosaic.Atlas
