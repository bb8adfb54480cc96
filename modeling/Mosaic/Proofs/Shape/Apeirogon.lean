import Mosaic.Proofs.Description.Finish
import Mosaic.Proofs.Shape.Corners

/-!
# Shape — the ends of apeirogons

An apeirogon has two vertices, angles and edges more than its boundary has entries: the last ones,
at its end at infinity (`Shape.EndsAtInfinity`).  So resetting its connections glues the two edges
that reach infinity, and its mirror image, which is turned back by two places, ends at infinity as
well (`EndsAtInfinity.reflected`).

In a combinatorial tiling a polygon is given by points in place of its vertices, one for each corner
(`Shape.IsPlaceholder`), also if it is marked as an apeirogon.  Then its last two edges are edges of
the boundary.
-/

namespace Mosaic

variable {α : Type}

/-- `r` has the boundary of `s`: directives that come after the description of a shape do not
change it. -/
structure Shape.SameBoundary (s r : Shape α) : Prop where
  corners : r.corners = s.corners
  vertices : r.vertices = s.vertices
  angles : r.angles = s.angles
  edges : r.edges = s.edges
  apeirogonal : r.apeirogonal = s.apeirogonal
  connections_size : r.connections.size = s.connections.size

namespace Shape.SameBoundary

theorem refl (s : Shape α) : s.SameBoundary s := ⟨rfl, rfl, rfl, rfl, rfl, rfl⟩

theorem trans {s r q : Shape α} (h : s.SameBoundary r) (h' : r.SameBoundary q) :
    s.SameBoundary q where
  corners := h'.corners.trans h.corners
  vertices := h'.vertices.trans h.vertices
  angles := h'.angles.trans h.angles
  edges := h'.edges.trans h.edges
  apeirogonal := h'.apeirogonal.trans h.apeirogonal
  connections_size := h'.connections_size.trans h.connections_size

end Shape.SameBoundary

/-- Whether an edge reaches infinity at its end or, if not `atEnd`, at its start. -/
def EdgeLength.reachesInfinity (atEnd : Bool) : EdgeLength α → Bool
  | infiniteBoth => true
  | infiniteLeft => atEnd
  | infiniteRight => !atEnd
  | finite _ => false

/-- Seen from the other side, an edge reaches infinity at its other end. -/
theorem EdgeLength.reachesInfinity_flipped (atEnd : Bool) (e : EdgeLength α) :
    e.flipped.reachesInfinity atEnd = e.reachesInfinity !atEnd := by
  cases e <;> cases atEnd <;> rfl

variable [Scalar α]

/-- The boundary of the shape has `n` entries.  Its last two vertices, angles and edges are those at
infinity: an edge that leads there, the angle zero, and an edge that comes from there.  They stand
between the two halves of the angle at the end of the boundary. -/
structure Shape.EndsAtInfinity (s : Shape α) (n : Nat) : Prop where
  apeirogonal : s.apeirogonal = true
  entries : Entries s.corners.toList n
  pos : 1 ≤ n
  vertices_size : s.vertices.size = n + 2
  angles_size : s.angles.size = n + 2
  edges_size : s.edges.size = n + 2
  connections_size : s.connections.size = n + 2
  angle : s.angles[n]? = some 0
  halves : s.angles[n + 1]? = s.angles[n - 1]?
  leads : ((0 : α) == 0) = true → (s.edges[n]?).any (·.reachesInfinity true)
  comes : ((0 : α) == 0) = true → (s.edges[n + 1]?).any (·.reachesInfinity false)

/-- The shape has points in place of its vertices, one for each corner, and no edge at infinity. -/
structure Shape.IsPlaceholder (s : Shape α) : Prop where
  vertices_size : s.vertices.size = s.corners.size
  angles_size : s.angles.size = s.corners.size
  edges_size : s.edges.size = s.corners.size
  connections_size : s.connections.size = s.corners.size
  finite : ∀ e ∈ s.edges, ∀ atEnd, e.reachesInfinity atEnd = false

/-- Whether a shape ends at infinity is a matter of its boundary. -/
theorem Shape.EndsAtInfinity.of_sameBoundary {s r : Shape α} {n : Nat} (h : s.EndsAtInfinity n)
    (hr : s.SameBoundary r) : r.EndsAtInfinity n where
  apeirogonal := hr.apeirogonal.trans h.apeirogonal
  entries := hr.corners ▸ h.entries
  pos := h.pos
  vertices_size := hr.vertices ▸ h.vertices_size
  angles_size := hr.angles ▸ h.angles_size
  edges_size := hr.edges ▸ h.edges_size
  connections_size := hr.connections_size.trans h.connections_size
  angle := hr.angles ▸ h.angle
  halves := hr.angles ▸ h.halves
  leads := hr.edges ▸ h.leads
  comes := hr.edges ▸ h.comes

omit [Scalar α] in
/-- Whether a shape is a placeholder is a matter of its boundary. -/
theorem Shape.IsPlaceholder.of_sameBoundary {s r : Shape α} (h : s.IsPlaceholder)
    (hr : s.SameBoundary r) : r.IsPlaceholder where
  vertices_size := by rw [hr.vertices, hr.corners, h.vertices_size]
  angles_size := by rw [hr.angles, hr.corners, h.angles_size]
  edges_size := by rw [hr.edges, hr.corners, h.edges_size]
  connections_size := by rw [hr.connections_size, hr.corners, h.connections_size]
  finite := hr.edges ▸ h.finite

/-! ### New shapes -/

namespace Polygon

variable {back last : Motion α} {v : Point α} {p : Polygon α} {n : Nat}

theorem getElem?_push_push {β : Type} {xs : Array β} (hsize : xs.size = n) (a b : β) :
    ((xs.push a).push b)[n]? = some a ∧ ((xs.push a).push b)[n + 1]? = some b ∧
      ∀ k < n, ((xs.push a).push b)[k]? = xs[k]? := by
  refine ⟨?_, ?_, fun k hk => ?_⟩ <;> rw [Array.getElem?_push, Array.size_push, hsize]
  · rw [if_neg (by omega), Array.getElem?_push, if_pos hsize.symm]
  · rw [if_pos rfl]
  · rw [if_neg (by omega), Array.getElem?_push, if_neg (by omega)]

/-- The end at infinity has no angle, and the two halves of the last one are beside it. -/
theorem closeAtInfinity_angles (hp : p.HasSize n) (hn : 1 ≤ n) :
    (closeAtInfinity back last v p).angles[n]? = some 0 ∧
      (closeAtInfinity back last v p).angles[n + 1]? =
        (closeAtInfinity back last v p).angles[n - 1]? := by
  have hsize := hp.angles
  have hset (half : α) : (p.angles.setIfInBounds (p.angles.size - 1) half).size = n := by
    rw [Array.size_setIfInBounds, hsize]
  obtain ⟨hzero, hhalf, hrest⟩ :=
    getElem?_push_push (hset ((p.angles.back?).getD 0 / 2)) 0 ((p.angles.back?).getD 0 / 2)
  refine ⟨hzero, hhalf.trans ?_⟩
  refine Eq.trans ?_ (hrest (n - 1) (by omega)).symm
  rw [Array.getElem?_setIfInBounds, hsize, if_pos rfl, if_pos (by omega)]

/-- The edges beside an angle of zero reach infinity there. -/
theorem getElem?_markIdeal {angles : Array α} {edges : Array (EdgeLength α)} {i : Nat}
    (hsize : angles.size = edges.size) (hi : i < edges.size) (hzero : (angles[i]?).any (· == 0)) :
    ((markIdeal angles edges)[i]?).any (·.reachesInfinity true) ∧
      ((markIdeal angles edges)[(i + 1) % edges.size]?).any (·.reachesInfinity false) := by
  have hm : Nat.min angles.size edges.size = edges.size := by rw [hsize]; exact Nat.min_self _
  have hnext : (i + 1) % edges.size < edges.size := Nat.mod_lt _ (by omega)
  have hprev : ((i + 1) % edges.size + edges.size - 1) % edges.size = i := pred_succ_mod hi
  simp only [markIdeal, hm, Array.getElem?_mapIdx]
  constructor
  · rw [Array.getElem?_eq_getElem hi, Option.map_some, Option.any_some, if_neg (by omega), hzero]
    split <;> simp_all [EdgeLength.reachesInfinity]
  · rw [Array.getElem?_eq_getElem hnext, Option.map_some, Option.any_some, if_neg (by omega), hprev,
      hzero]
    split <;> simp_all [EdgeLength.reachesInfinity]

/-- The polygon of an apeirogon ends at infinity. -/
theorem ofCorners_apeirogonal {s : Space} {corners : Array (Corner α)} {b : Built α}
    (h : ofCorners s false true corners = .ok b) :
    ∃ back last v p, place back last (corners.zip (walk s corners).1).toList 0 empty = .ok p ∧
      b.polygon.angles = (closeAtInfinity back last v p).angles ∧
        b.polygon.edges = markIdeal (closeAtInfinity back last v p).angles
          (closeAtInfinity back last v p).edges := by
  rw [ofCorners] at h
  generalize walk s corners = w at h
  obtain ⟨frames, last⟩ := w
  dsimp only at h
  simp only [Bool.false_eq_true, if_false, Bool.not_true, Bool.and_false, if_true] at h
  split at h
  · cases h
  · cases h
    exact ⟨_, _, _, _, ‹_›, rfl, rfl⟩

end Polygon

namespace Shape

variable {id : Nat} {space : Space} {combinatorial apeirogonal : Bool} {corners : Array (Corner α)}
  {repeatCount n : Nat} {s : Shape α} {b : Polygon.Built α}

/-- A new apeirogon ends at infinity. -/
theorem ofCorners_endsAtInfinity (hn : Entries corners.toList n) (hpos : 1 ≤ n)
    (h : ofCorners id space false true corners repeatCount = .ok (s, b)) : s.EndsAtInfinity n := by
  obtain ⟨built, hbuilt, hs⟩ := except_bind_ok h
  cases hs
  have hsize := Polygon.ofCorners_size hn hbuilt
  obtain ⟨back, last, v, p, hp, hangles, hedges⟩ := Polygon.ofCorners_apeirogonal hbuilt
  have hplaced : p.HasSize n := by
    have hempty : (Polygon.empty : Polygon α).HasSize 0 := ⟨rfl, rfl, rfl⟩
    refine Nat.zero_add n ▸ hempty.place hn ?_ hp
    rw [Array.toList_zip, List.map_fst_zip]
    exact Nat.le_of_eq (by simpa using (Polygon.size_walk space corners).symm)
  have hclosed : (Polygon.closeAtInfinity back last v p).HasSize (n + 2) := hplaced.closeAtInfinity
  obtain ⟨hzero, hhalf⟩ : (Polygon.closeAtInfinity back last v p).angles[n]? = some 0 ∧ _ :=
    Polygon.closeAtInfinity_angles hplaced hpos
  have hmark (h0 : ((0 : α) == 0) = true) := Polygon.getElem?_markIdeal (i := n)
    (hclosed.angles.trans hclosed.edges.symm) (by rw [hclosed.edges]; omega)
    (by rw [hzero]; exact h0)
  have hnext : (n + 1) % (n + 2) = n + 1 := Nat.mod_eq_of_lt (by omega)
  exact
    { apeirogonal := rfl
      entries := hn
      pos := hpos
      vertices_size := hsize.vertices
      angles_size := hsize.angles
      edges_size := hsize.edges
      connections_size := Array.size_ofFn.trans hsize.vertices
      angle := by
        change b.polygon.angles[n]? = _
        rw [hangles, hzero]
      halves := by
        change b.polygon.angles[n + 1]? = b.polygon.angles[n - 1]?
        rw [hangles, hhalf]
      leads := fun h0 => by
        change (b.polygon.edges[n]?).any _ = true
        rw [hedges]
        exact (hmark h0).1
      comes := fun h0 => by
        change (b.polygon.edges[n + 1]?).any _ = true
        have hlast := (hmark h0).2
        rwa [hclosed.edges, hnext, ← hedges] at hlast }

/-- A new shape of a combinatorial tiling is a placeholder, an apeirogon or not. -/
theorem ofCorners_isPlaceholder
    (h : ofCorners id space true apeirogonal corners repeatCount = .ok (s, b)) :
    s.IsPlaceholder := by
  obtain ⟨built, hbuilt, hs⟩ := except_bind_ok h
  cases hs
  cases hbuilt
  refine ⟨Array.size_mapIdx, Array.size_map, Array.size_map,
    Array.size_ofFn.trans Array.size_mapIdx, fun e he atEnd => ?_⟩
  obtain ⟨c, -, rfl⟩ := Array.mem_map.mp he
  rfl

/-! ### Gluings and mirror images -/

theorem reflected_apeirogonal (s : Shape α) : s.reflected.apeirogonal = s.apeirogonal := by
  unfold reflected
  split <;> rfl

namespace EndsAtInfinity

/-- The two edges that reach infinity are glued to each other, and every other edge to itself. -/
theorem connection_resetConnections (h : s.EndsAtInfinity n) (k : Nat) :
    s.resetConnections.connection k =
      ⟨s.id, if k = n then n + 1 else if k = n + 1 then n else k, false⟩ := by
  have hsize : s.size = n + 2 := h.vertices_size
  rw [connection, resetConnections]
  dsimp only
  rw [hsize, h.apeirogonal]
  by_cases hk : k < n + 2
  · rw [Array.getElem?_eq_getElem (by simpa using hk), Array.getElem_ofFn, Option.getD_some]
    grind
  · rw [Array.getElem?_eq_none (by simpa using hk), Option.getD_none, if_neg (by omega),
      if_neg (by omega)]

theorem shifted_zero (n : Nat) : shifted (n + 2) true 0 = n := by
  rw [shifted, if_pos rfl, Nat.zero_add, Nat.add_sub_cancel, Nat.mod_eq_of_lt (by omega)]

theorem shifted_one (n : Nat) : shifted (n + 2) true 1 = n + 1 := by
  rw [shifted, if_pos rfl, show 1 + (n + 2) - 2 = n + 1 by omega, Nat.mod_eq_of_lt (by omega)]

theorem shifted_last (hn : 1 ≤ n) : shifted (n + 2) true (n + 1) = n - 1 := by
  rw [shifted, if_pos rfl, sub_two_mod (by omega) (by omega), if_neg (by omega)]
  omega

/-- The two edges that reach infinity trade places in the mirror image. -/
theorem reflectedEdge_end (n : Nat) :
    reflectedEdge (n + 2) true n = n + 1 ∧ reflectedEdge (n + 2) true (n + 1) = n := by
  rw [reflectedEdge_eq, reflectedEdge_eq, show n + 2 - 1 - n = 1 by omega,
    show n + 2 - 1 - (n + 1) = 0 by omega]
  exact ⟨shifted_one n, shifted_zero n⟩

/-- The mirror image of an apeirogon ends at infinity. -/
theorem reflected (h : s.EndsAtInfinity n) : s.reflected.EndsAtInfinity n := by
  have hsize : s.size = n + 2 := h.vertices_size
  have hap : s.apeirogonal = true → 2 ≤ s.size := fun _ => by omega
  have hangles := h.angles_size.trans hsize.symm
  have hedges := h.edges_size.trans hsize.symm
  have hreflection := reflected_isReflection hap hedges hangles
    (h.connections_size.trans hsize.symm)
  have hangle {k : Nat} (hk : k < n + 2) := getElem?_reflected_angles hap hangles (hsize ▸ hk)
  have hedge {k : Nat} (hk : k < n + 2) := hreflection.edge k (hsize ▸ hk)
  simp only [hsize, h.apeirogonal] at hangle hedge
  -- the angle at infinity keeps its place, and the two halves beside it trade places
  have hmid : n + 2 - 1 - n + (n + 2) - 1 = 0 + (n + 2) := by omega
  have hlast : n + 2 - 1 - (n + 1) + (n + 2) - 1 = n + 1 := by omega
  have hprev : n + 2 - 1 - (n - 1) + (n + 2) - 1 = 1 + (n + 2) := by
    have := h.pos
    omega
  have hzero := hangle (k := n) (by omega)
  have hafter := hangle (k := n + 1) (by omega)
  have hbefore := hangle (k := n - 1) (by omega)
  rw [hmid, Nat.add_mod_right, Nat.zero_mod, shifted_zero] at hzero
  rw [hlast, Nat.mod_eq_of_lt (by omega), shifted_last h.pos] at hafter
  rw [hprev, Nat.add_mod_right, Nat.mod_eq_of_lt (by omega), shifted_one] at hbefore
  have hleads := hedge (k := n + 1) (by omega)
  have hcomes := hedge (k := n) (by omega)
  rw [(reflectedEdge_end n).2] at hleads
  rw [(reflectedEdge_end n).1] at hcomes
  exact
    { apeirogonal := by
        unfold Shape.reflected
        split <;> exact h.apeirogonal
      entries := s.reflected_rest.2.2.2 ▸ h.entries
      pos := h.pos
      vertices_size := hreflection.size.trans hsize
      angles_size := hreflection.angles_size.trans hsize
      edges_size := hreflection.edges_size.trans hsize
      connections_size := hreflection.connections_size.trans hsize
      angle := hzero.trans h.angle
      halves := hbefore.trans (h.halves.symm.trans hafter.symm)
      leads := fun h0 => by
        rw [hleads, Option.any_map]
        simpa [Function.comp_def, EdgeLength.reachesInfinity_flipped] using h.comes h0
      comes := fun h0 => by
        rw [hcomes, Option.any_map]
        simpa [Function.comp_def, EdgeLength.reachesInfinity_flipped] using h.leads h0 }

end EndsAtInfinity

/-- The mirror image of a placeholder is one. -/
theorem IsPlaceholder.reflected (h : s.IsPlaceholder) : s.reflected.IsPlaceholder where
  vertices_size := by
    rw [reflected_vertices, size_shiftedList, size_reverseTail, Array.size_map,
      s.reflected_rest.2.2.2, h.vertices_size]
  angles_size := by
    rw [reflected_angles, size_shiftedList, size_reverseInit, s.reflected_rest.2.2.2,
      h.angles_size]
  edges_size := by
    rw [reflected_edges, size_shiftedList, Array.size_map, Array.size_reverse,
      s.reflected_rest.2.2.2, h.edges_size]
  connections_size := by
    rw [reflected_connections, size_shiftedList, Array.size_reverse, s.reflected_rest.2.2.2,
      h.connections_size]
  finite e he atEnd := by
    rw [reflected_edges] at he
    obtain ⟨x, hx, rfl⟩ := Array.mem_map.mp (mem_of_mem_shiftedList he)
    rw [EdgeLength.reachesInfinity_flipped]
    exact h.finite x (Array.mem_reverse.mp hx) _

end Shape

end Mosaic
