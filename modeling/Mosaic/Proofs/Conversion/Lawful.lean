import Mosaic.Proofs.Atlas.Involution
import Mosaic.Proofs.Conversion.Walk
import Mosaic.Proofs.Descent

/-!
# Conversion — lawful complexes

The atlas of a well-formed tiling is lawful, whichever tiles it places on the way: links are
permanent and tiles have the edges of their shapes (`Atlas.complex_lawful`).  A table of cells is
lawful when its links lead to edges that there are (`CellTable.complex_lawful`).
-/

namespace Mosaic

namespace Atlas

variable {α : Type} [Scalar α] {t : Tiling α} {m m₀ m' : Atlas α} {id edge : Nat} {r : Nat × Nat}

/-- A step that keeps orientation leads across an edge that is resolved then. -/
theorem stepOriented_ok (h : stepOriented id edge m = .ok r m') :
    m' = finalState (step id edge) m ∧ m'.neighbour? id edge = some ⟨r.1, r.2, false⟩ := by
  unfold stepOriented at h
  obtain ⟨id', u, hstep, h⟩ := bind_ok.mp h
  obtain ⟨_, _, hget, h⟩ := bind_ok.mp h
  cases hget
  cases hl : u.neighbour? id edge with
  | none =>
      simp only [hl] at h
      cases h
  | some l =>
      obtain ⟨b, f, mirror⟩ := l
      cases mirror with
      | true =>
          simp only [hl] at h
          cases h
      | false =>
          simp only [hl] at h
          cases h
          exact ⟨by rw [finalState, hstep], hl⟩

/-- A step across a resolved edge that keeps orientation changes nothing. -/
theorem stepOriented_of_neighbour? (h : m.neighbour? id edge = some ⟨r.1, r.2, false⟩) :
    stepOriented id edge m = .ok r m := by
  refine bind_ok.mpr ⟨r.1, m, step_of_resolved h, ?_⟩
  refine bind_ok.mpr ⟨m, m, rfl, ?_⟩
  simp only [h]
  rfl

/-- What walks from the first tile keep. -/
theorem later_linked (ht : m.tiling.WellFormed) (hm : Linked m) (h : (complex t).Later m m') :
    Linked m' ∧ Grows m m' := by
  induction h with
  | refl => exact ⟨hm, .refl m⟩
  | tail _ hstep ih =>
      obtain ⟨hlinked, hgrows⟩ := ih
      obtain ⟨id, edge, r, hok⟩ := hstep
      obtain ⟨rfl, -⟩ := stepOriented_ok hok
      obtain ⟨hlinked', hgrows'⟩ := step_linked (hgrows.tiling ▸ ht) hlinked id edge
      exact ⟨hlinked', hgrows.trans hgrows'⟩

/-- A tile with edges is there. -/
theorem exists_node_of_degree (h : 0 < (complex t).degree m id) :
    ∃ n, m.nodes[id]? = some n ∧ (complex t).degree m id = n.degree ∧
      (complex t).classOf m id = n.shape := by
  cases hn : m.nodes[id]? with
  | none => simp [complex, hn] at h
  | some n => exact ⟨n, rfl, by simp [complex, hn], by simp [complex, shapeOf, hn]⟩

theorem complex_lawful (ht : t.WellFormed) (h₀ : ofTiling t = .ok m₀)
    (hpos : 0 < (t.shape 0).size) : (complex t).Lawful m₀ := by
  obtain ⟨htiling, hlinked⟩ := ofTiling_linked h₀
  have hreach {m : Atlas α} (hm : (complex t).Reachable m₀ m) : m.tiling = t ∧ Linked m := by
    obtain ⟨c, m₁, hstart, hlater⟩ := hm
    cases hstart
    obtain ⟨hm, hgrows⟩ := later_linked (htiling ▸ ht) hlinked hlater
    exact ⟨hgrows.tiling.trans htiling, hm⟩
  constructor
  case start_pos =>
    intro c m hstart
    cases hstart
    obtain ⟨first, hfirst, rfl⟩ := ofTiling_ok h₀
    rw [Tiling.shape_eq hfirst] at hpos
    simpa [complex, empty, getElem?_insert] using hpos
  case degree_eq =>
    intro m c c' hm hc hc' hclass
    obtain ⟨n, hn, hd, hs⟩ := exists_node_of_degree hc
    obtain ⟨n', hn', hd', hs'⟩ := exists_node_of_degree hc'
    have hshape : n.shape = n'.shape := hs.symm.trans (hclass.trans hs')
    rw [hd, hd', (hreach hm).2.degree_eq c n hn, (hreach hm).2.degree_eq c' n' hn', hshape]
  case step_lt =>
    intro m m' c e r hm he hstep
    obtain ⟨rfl, hl⟩ := stepOriented_ok hstep
    obtain ⟨hm', hlinked'⟩ := hreach hm
    have hback := (step_linked (hm' ▸ ht) hlinked' c e).1.back _ _ _ hl
    obtain ⟨p, hp, hpl⟩ := neighbour?_eq_some_iff.mp hback
    have hlt := Node.lt_degree_of_link? hpl
    simpa [complex, hp] using hlt
  case stable =>
    intro m m' c hm hwalk hc
    obtain ⟨id, e, r, hstep⟩ := hwalk
    obtain ⟨rfl, -⟩ := stepOriented_ok hstep
    obtain ⟨hm', hlinked'⟩ := hreach hm
    obtain ⟨n, hn, -⟩ := exists_node_of_degree hc
    obtain ⟨n', hn', hs, -, -, hd⟩ := (step_linked (hm' ▸ ht) hlinked' id e).2.nodes c n hn
    simp [complex, shapeOf, hn, hn', hs, hd]
  case settled =>
    intro m m' m'' c e r hm he hstep hlater
    obtain ⟨rfl, hl⟩ := stepOriented_ok hstep
    obtain ⟨hm', hlinked'⟩ := hreach hm
    obtain ⟨hlinked'', hgrows⟩ := step_linked (hm' ▸ ht) hlinked' c e
    have hlinks := (later_linked (hgrows.tiling ▸ hm' ▸ ht) hlinked'' hlater).2.links
    exact ⟨m'', stepOriented_of_neighbour? (hlinks _ _ _ hl)⟩

/-- Gluings that keep orientation lead back the way they came. -/
theorem complex_involutive (ht : t.WellFormed) (h₀ : ofTiling t = .ok m₀) :
    (complex t).Involutive m₀ := by
  intro m m' m'' c e r hm _ hstep hlater
  obtain ⟨htiling, hlinked⟩ := ofTiling_linked h₀
  obtain ⟨_, m₁, hstart, hm⟩ := hm
  cases hstart
  obtain ⟨hlinked₁, hgrows₁⟩ := later_linked (htiling ▸ ht) hlinked hm
  have hwf : m.tiling.WellFormed := (hgrows₁.tiling.trans htiling) ▸ ht
  obtain ⟨rfl, hl⟩ := stepOriented_ok hstep
  obtain ⟨hlinked₂, hgrows₂⟩ := step_linked hwf hlinked₁ c e
  have hback := hlinked₂.back _ _ _ hl
  have hlinks := (later_linked (hgrows₂.tiling ▸ hwf) hlinked₂ hlater).2.links
  exact ⟨m'', stepOriented_of_neighbour? (hlinks _ _ _ hback)⟩

end Atlas

namespace CellTable

variable {α : Type} {t : CellTable α}

/-- The first cell has edges, the class of a cell tells how many, and links lead to edges. -/
structure WellFormed (t : CellTable α) : Prop where
  start : 0 < (t.cell t.start).links.size
  links_size : ∀ c ∈ t.cells.toList, ∀ c' ∈ t.cells.toList, c.cls = c'.cls →
    c.links.size = c'.links.size
  link_lt : ∀ c ∈ t.cells.toList, ∀ l ∈ c.links.toList, ∀ r ∈ l,
    r.2 < (t.cell r.1).links.size

instance (t : CellTable α) : Decidable t.WellFormed :=
  decidable_of_iff (0 < (t.cell t.start).links.size ∧
    (∀ c ∈ t.cells.toList, ∀ c' ∈ t.cells.toList, c.cls = c'.cls →
      c.links.size = c'.links.size) ∧
    ∀ c ∈ t.cells.toList, ∀ l ∈ c.links.toList, ∀ r ∈ l, r.2 < (t.cell r.1).links.size)
    ⟨fun ⟨h₁, h₂, h₃⟩ => ⟨h₁, h₂, h₃⟩, fun h => ⟨h.start, h.links_size, h.link_lt⟩⟩

variable [Scalar α]

theorem mem_of_degree {c : Nat} (h : 0 < t.complex.degree () c) : t.cell c ∈ t.cells.toList := by
  cases hc : t.cells[c]? with
  | none => simp [complex, cell, hc] at h
  | some x =>
      rw [cell, hc, Option.getD_some, Array.mem_toList_iff]
      exact Array.mem_of_getElem? hc

/-- The walk starts at the cell that the table says. -/
theorem start_ok {c : Nat} {s u : Unit} (h : t.complex.start s = .ok c u) : c = t.start := by
  change (if t.cells.isEmpty then throw .emptyTiling else pure t.start :
    EStateM (MapError α) Unit Nat) s = _ at h
  split at h
  · cases h
  · cases h
    rfl

/-- A step across an edge of a table. -/
theorem step_ok {c e : Nat} {s u : Unit} {r : Nat × Nat} (h : t.complex.step c e s = .ok r u) :
    (t.cell c).links[e]? = some (some r) := by
  unfold complex at h
  cases hl : ((t.cell c).links[e]?).join with
  | none =>
      simp only [hl] at h
      cases h
  | some l =>
      simp only [hl] at h
      cases h
      exact Option.join_eq_some_iff.mp hl

theorem complex_lawful (ht : t.WellFormed) : t.complex.Lawful () := by
  constructor
  case start_pos =>
    intro c s h
    exact start_ok h ▸ ht.start
  case degree_eq =>
    intro s c c' _ hc hc' hclass
    exact ht.links_size _ (mem_of_degree hc) _ (mem_of_degree hc') hclass
  case step_lt =>
    intro s u c e r _ he hstep
    have hl := step_ok hstep
    have hc := mem_of_degree (Nat.zero_lt_of_lt he)
    exact ht.link_lt _ hc _ (Array.mem_toList_iff.mpr (Array.mem_of_getElem? hl)) r rfl
  case stable =>
    intro s u c _ _ _
    exact ⟨rfl, rfl⟩
  case settled =>
    intro s u v c e r _ _ hstep _
    exact ⟨u, hstep⟩

/-- Every link leads to an edge that links back. -/
def BackLinked (t : CellTable α) : Prop := ∀ c < t.cells.size, ∀ e < (t.cell c).links.size,
  ∀ r ∈ ((t.cell c).links[e]?).join, ((t.cell r.1).links[r.2]?).join = some (c, e)

instance (t : CellTable α) : Decidable t.BackLinked :=
  inferInstanceAs (Decidable (∀ c < t.cells.size, ∀ e < (t.cell c).links.size,
    ∀ r ∈ ((t.cell c).links[e]?).join, ((t.cell r.1).links[r.2]?).join = some (c, e)))

theorem complex_involutive (ht : t.BackLinked) : t.complex.Involutive () := by
  intro s u v c e r _ he hstep _
  have hl := step_ok hstep
  have hc : c < t.cells.size := by
    by_contra hc
    simp [complex, cell, Array.getElem?_eq_none (Nat.le_of_not_lt hc)] at he
  have hback := ht c hc e he r (Option.join_eq_some_iff.mpr hl)
  refine ⟨(), ?_⟩
  simp only [complex, hback]
  rfl

end CellTable

end Mosaic
