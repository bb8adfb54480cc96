import Mathlib.Data.Finset.Card
import Mosaic.Proofs.Atlas.Expansion
import Mosaic.Proofs.Conversion.Lawful

/-!
# Conversion — classified complexes

Much of an analysis depends on nothing but that the class of a cell tells how many edges it has
(`CellComplex.Classified`), and that walks stay among cells of finitely many classes
(`CellComplex.Surveyable`).  Nothing is said of the edges at which steps arrive, and cells may have
no edges at all.

The cells that are there are named by a predicate: the tiles that an atlas has placed
(`Atlas.complex_surveyable`), or the cells of a table (`CellTable.complex_surveyable`).
-/

namespace Mosaic

namespace CellComplex

variable {α σ κ : Type} (cx : CellComplex α σ κ)

/-- The class of a cell that is there tells how many edges it has, and walking on changes neither
the class nor that the cell is there. -/
structure Classified (there : σ → κ → Prop) (deg : Nat → Nat) : Prop where
  degree_eq : ∀ {s c}, there s c → cx.degree s c = deg (cx.classOf s c)
  stays : ∀ {s t c}, there s c → cx.Walked s t → there t c ∧ cx.classOf t c = cx.classOf s c

/-- Moreover, walks from the first cell stay among the cells that are there, and these have no more
classes than the complex says. -/
structure Surveyable (s₀ : σ) (there : σ → κ → Prop) (deg : Nat → Nat) : Prop
    extends cx.Classified there deg where
  start : ∀ {s c}, cx.start s₀ = .ok c s → there s c
  step : ∀ {s t c e r}, there s c → cx.step c e s = .ok r t → there t r.1
  classes : ∃ F : Finset Nat, F.card ≤ cx.classBound ∧ ∀ s c, there s c → cx.classOf s c ∈ F

variable {cx} {there : σ → κ → Prop} {deg : Nat → Nat} {s t : σ} {c : κ}

/-- Cells stay there, whatever is walked. -/
theorem Classified.later (hcx : cx.Classified there deg) (h : cx.Later s t) (hc : there s c) :
    there t c ∧ cx.classOf t c = cx.classOf s c := by
  induction h with
  | refl => exact ⟨hc, rfl⟩
  | tail _ hwalked ih =>
      obtain ⟨hthere, hclass⟩ := hcx.stays ih.1 hwalked
      exact ⟨hthere, hclass.trans ih.2⟩

end CellComplex

namespace Atlas

variable {α : Type} [Scalar α] {t : Tiling α} {m m₀ m' : Atlas α} {id : Nat}

/-- The tile has been placed, in an atlas of `t` whose links fit together. -/
def Placed (t : Tiling α) (m : Atlas α) (id : Nat) : Prop :=
  m.tiling = t ∧ Linked m ∧ id < m.size

theorem Placed.exists_node (h : Placed t m id) : ∃ n, m.nodes[id]? = some n ∧
    (complex t).degree m id = (t.shape n.shape).size ∧ (complex t).classOf m id = n.shape ∧
    n.shape < t.shapes.size := by
  obtain ⟨rfl, hlinked, hid⟩ := h
  have hn := Array.getElem?_eq_getElem (show id < m.nodes.size from hid)
  refine ⟨_, hn, ?_, by simp [complex, shapeOf, hn], hlinked.shape_lt id _ hn⟩
  simp [complex, hn, hlinked.degree_eq id _ hn]

/-- The shape of a tile tells the number of its edges, and there are as many classes as shapes. -/
theorem complex_surveyable (ht : t.WellFormed) (h₀ : ofTiling t = .ok m₀) :
    (complex t).Surveyable m₀ (Placed t) fun k => (t.shape k).size where
  degree_eq h := by
    obtain ⟨n, -, hdegree, hclass, -⟩ := h.exists_node
    rw [hdegree, hclass]
  stays {m m' id} h hwalked := by
    obtain ⟨n, hn, -, hclass, -⟩ := h.exists_node
    obtain ⟨rfl, hlinked, -⟩ := h
    obtain ⟨id', e, r, hstep⟩ := hwalked
    obtain ⟨rfl, -⟩ := stepOriented_ok hstep
    obtain ⟨hlinked', hgrows⟩ := step_linked ht hlinked id' e
    obtain ⟨n', hn', hshape, -⟩ := hgrows.nodes id n hn
    refine ⟨⟨hgrows.tiling, hlinked', lt_size_of_node hn'⟩, ?_⟩
    rw [hclass]
    simp [complex, shapeOf, hn', hshape]
  start h := by
    cases h
    obtain ⟨htiling, hlinked⟩ := ofTiling_linked h₀
    refine ⟨htiling, hlinked, ?_⟩
    obtain ⟨first, -, rfl⟩ := ofTiling_ok h₀
    simp [empty, size, Atlas.insert]
  step {m m' id e r} h hstep := by
    obtain ⟨rfl, hlinked, -⟩ := h
    obtain ⟨rfl, hl⟩ := stepOriented_ok hstep
    obtain ⟨hlinked', hgrows⟩ := step_linked ht hlinked id e
    exact ⟨hgrows.tiling, hlinked', hlinked'.target_lt hl⟩
  classes := by
    refine ⟨Finset.range t.shapes.size, by simp [complex], fun m id h => ?_⟩
    obtain ⟨n, -, -, hclass, hlt⟩ := h.exists_node
    rw [hclass]
    exact Finset.mem_range.mpr hlt

end Atlas

namespace CellTable

variable {α : Type} {t : CellTable α}

/-- The number of edges of the first cell of a class. -/
def sidesOf (t : CellTable α) (k : Nat) : Nat :=
  ((t.cells.toList.find? (·.cls = k)).map (·.links.size)).getD 0

/-- The cell is one of the table. -/
def Placed (t : CellTable α) (_ : Unit) (c : Nat) : Prop := c < t.cells.size

/-- Classes tell how many links a cell has, and links lead to cells of the table. -/
structure Classified (t : CellTable α) : Prop where
  start_lt : t.start < t.cells.size
  links_size : ∀ c ∈ t.cells.toList, ∀ c' ∈ t.cells.toList, c.cls = c'.cls →
    c.links.size = c'.links.size
  link_lt : ∀ c ∈ t.cells.toList, ∀ l ∈ c.links.toList, ∀ r ∈ l, r.1 < t.cells.size

instance (t : CellTable α) : Decidable t.Classified :=
  decidable_of_iff (t.start < t.cells.size ∧
    (∀ c ∈ t.cells.toList, ∀ c' ∈ t.cells.toList, c.cls = c'.cls →
      c.links.size = c'.links.size) ∧
    ∀ c ∈ t.cells.toList, ∀ l ∈ c.links.toList, ∀ r ∈ l, r.1 < t.cells.size)
    ⟨fun ⟨h₁, h₂, h₃⟩ => ⟨h₁, h₂, h₃⟩, fun h => ⟨h.start_lt, h.links_size, h.link_lt⟩⟩

theorem Placed.mem {c : Nat} (h : Placed t () c) : t.cell c ∈ t.cells.toList := by
  have hc := Array.getElem?_eq_getElem (show c < t.cells.size from h)
  rw [cell, hc, Option.getD_some, Array.mem_toList_iff]
  exact Array.mem_of_getElem? hc

variable [Scalar α]

theorem complex_surveyable (ht : t.Classified) :
    t.complex.Surveyable () (Placed t) t.sidesOf where
  degree_eq {_ c} hc := by
    have hmem := Placed.mem hc
    change (t.cell c).links.size = t.sidesOf (t.cell c).cls
    cases hfind : t.cells.toList.find? (·.cls = (t.cell c).cls) with
    | none => exact absurd (List.find?_eq_none.mp hfind _ hmem) (by simp)
    | some x =>
        have hcls : x.cls = (t.cell c).cls := by simpa using List.find?_some hfind
        rw [sidesOf, hfind, Option.map_some, Option.getD_some]
        exact ht.links_size _ hmem _ (List.mem_of_find?_eq_some hfind) hcls.symm
  stays hc _ := ⟨hc, rfl⟩
  start h := start_ok h ▸ ht.start_lt
  step {_ _ c _ r} hc hstep := by
    have hl := step_ok hstep
    exact ht.link_lt _ (Placed.mem hc) _ (Array.mem_toList_iff.mpr (Array.mem_of_getElem? hl)) r rfl
  classes := by
    refine ⟨(t.cells.toList.map (·.cls)).toFinset, ?_, fun _ c hc => ?_⟩
    · refine (List.toFinset_card_le _).trans ?_
      rw [List.length_map, Array.length_toList]
      exact Nat.le_refl _
    · exact List.mem_toFinset.mpr (List.mem_map_of_mem (Placed.mem hc))

end CellTable

end Mosaic
