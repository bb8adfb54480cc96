import Mosaic.Tiling.Basic

/-!
# Tiling — well-formed catalogues

In a well-formed catalogue the vertices, edges and gluings of a shape are equally many, and every
gluing leads to an edge that there is (`Tiling.WellFormed`).  Everything that walks or transforms a
tiling is asked to work for these.
-/

namespace Mosaic

variable {α : Type}

/-- The lists of every shape are equally long, and every gluing leads to an edge of a shape. -/
structure Tiling.WellFormed (t : Tiling α) : Prop where
  edges_size : ∀ s ∈ t.shapes, s.edges.size = s.size
  connections_size : ∀ s ∈ t.shapes, s.connections.size = s.size
  target_shape : ∀ s ∈ t.shapes, ∀ c ∈ s.connections, c.shape < t.shapes.size
  target_edge : ∀ s ∈ t.shapes, ∀ c ∈ s.connections, c.edge < (t.shape c.shape).size

namespace Tiling

/-- Whether a tiling is well-formed can be told from the shapes that it has. -/
theorem wellFormed_iff {t : Tiling α} : t.WellFormed ↔ ∀ s ∈ t.shapes.toList,
    s.edges.size = s.size ∧ s.connections.size = s.size ∧ ∀ c ∈ s.connections.toList,
      c.shape < t.shapes.size ∧ c.edge < (t.shape c.shape).size := by
  simp only [Array.mem_toList_iff]
  constructor
  · intro h s hs
    exact ⟨h.edges_size s hs, h.connections_size s hs, fun c hc =>
      ⟨h.target_shape s hs c hc, h.target_edge s hs c hc⟩⟩
  · intro h
    exact ⟨fun s hs => (h s hs).1, fun s hs => (h s hs).2.1, fun s hs c hc => ((h s hs).2.2 c hc).1,
      fun s hs c hc => ((h s hs).2.2 c hc).2⟩

instance (t : Tiling α) : Decidable t.WellFormed := decidable_of_iff' _ wellFormed_iff

theorem shape_eq {t : Tiling α} {a : Nat} {s : Shape α} (h : t.shapes[a]? = some s) :
    t.shape a = s := by
  rw [shape, h, Option.getD_some]

theorem getElem?_shape {t : Tiling α} {a : Nat} (h : a < t.shapes.size) :
    t.shapes[a]? = some (t.shape a) := by
  rw [shape, Array.getElem?_eq_getElem h, Option.getD_some]

theorem shape_mem {t : Tiling α} {a : Nat} (h : a < t.shapes.size) : t.shape a ∈ t.shapes :=
  Array.mem_of_getElem? (getElem?_shape h)

theorem getElem?_modifyShape (t : Tiling α) (i : Nat) (f : Shape α → Shape α) (j : Nat) :
    (t.modifyShape i f).shapes[j]? = (t.shapes[j]?).map fun s => if i = j then f s else s := by
  rw [modifyShape, Array.getElem?_modify]
  split
  · rfl
  · rw [Option.map_id']

/-- A change of a shape changes no other one. -/
theorem shape_modifyShape (t : Tiling α) (i : Nat) (f : Shape α → Shape α) {a : Nat}
    (ha : a < t.shapes.size) :
    (t.modifyShape i f).shape a = if i = a then f (t.shape a) else t.shape a := by
  rw [shape, getElem?_modifyShape, getElem?_shape ha, Option.map_some, Option.getD_some]

/-- An edge of the catalogue, and its gluing. -/
theorem connection?_eq_some_iff {t : Tiling α} {a e : Nat} {c : Connection} :
    t.connection? a e = some c ↔ a < t.shapes.size ∧ (t.shape a).connections[e]? = some c := by
  by_cases h : a < t.shapes.size
  · rw [connection?, getElem?_shape h]
    simp [h]
  · simp [connection?, h]

namespace WellFormed

variable {t : Tiling α} (ht : t.WellFormed) {a e : Nat}

include ht

/-- Every edge has a gluing. -/
theorem connection_eq (ha : a < t.shapes.size) (he : e < (t.shape a).size) :
    t.connection? a e = some ((t.shape a).connection e) := by
  have : e < (t.shape a).connections.size := by
    rwa [ht.connections_size _ (shape_mem ha)]
  refine connection?_eq_some_iff.mpr ⟨ha, ?_⟩
  rw [Shape.connection, Array.getElem?_eq_getElem this, Option.getD_some]

theorem connection_mem (ha : a < t.shapes.size) (he : e < (t.shape a).size) :
    (t.shape a).connection e ∈ (t.shape a).connections :=
  Array.mem_of_getElem? (connection?_eq_some_iff.mp (ht.connection_eq ha he)).2

/-- A gluing leads to a shape that there is. -/
theorem target_shape_lt (ha : a < t.shapes.size) (he : e < (t.shape a).size) :
    ((t.shape a).connection e).shape < t.shapes.size :=
  ht.target_shape _ (shape_mem ha) _ (ht.connection_mem ha he)

/-- A gluing leads to an edge that there is. -/
theorem target_edge_lt (ha : a < t.shapes.size) (he : e < (t.shape a).size) :
    ((t.shape a).connection e).edge < (t.shape ((t.shape a).connection e).shape).size :=
  ht.target_edge _ (shape_mem ha) _ (ht.connection_mem ha he)

end WellFormed

end Tiling

end Mosaic
