import Mosaic.Proofs.Tiling.Symmetry

/-!
# Tiling — decoration and stretch of mirror images

Lines of decoration join vertices, and a stretch is stored for the gluing of an edge; both are kept
by number.  The mirror image of a shape numbers its vertices and edges anew (`reflectedVertex`,
`reflectedEdge`), and whoever carried the lines and the stretch along would renumber them
(`Shape.CarriesAlong`).

The double cover keeps the numbers instead.  So its mirror images carry lines and stretch along
exactly when the renumbering makes no difference: when it takes lines to lines, and edges to edges
with the same stretch (`Shape.Balanced`, `Tiling.doubleCover_carriesAlong_iff`).  A line along one
side of a square ends up along another (`Tiling.saltire_carriesAlong`, `Tiling.lopsided_lost`).
-/

namespace Mosaic

/-- The number that vertex `k` of a shape with `n` vertices has in the mirror image. -/
def reflectedVertex (n : Nat) (apeirogonal : Bool) (k : Nat) : Nat :=
  shifted n apeirogonal ((n - k) % n)

section Reflection

variable {n : Nat} {ap : Bool} {k : Nat}

/-- The image of an edge starts at the image of its end. -/
theorem reflectedVertex_eq (hk : k < n) :
    reflectedVertex n ap k = reflectedEdge n ap ((k + n - 1) % n) := by
  have hplace : (n - k) % n = n - 1 - (k + n - 1) % n := by
    rw [pred_mod hk]
    split
    · subst k
      rw [Nat.sub_zero, Nat.mod_self]
      omega
    · rw [Nat.mod_eq_of_lt (by omega)]
      omega
  rw [reflectedVertex, hplace, reflectedEdge_eq]

theorem reflectedVertex_lt (hk : k < n) : reflectedVertex n ap k < n :=
  shifted_lt (Nat.mod_lt _ (by omega))

/-- A vertex is the image of its image. -/
theorem reflectedVertex_reflectedVertex (hap : ap → 2 ≤ n) (hk : k < n) :
    reflectedVertex n ap (reflectedVertex n ap k) = k := by
  have hpred : (k + n - 1) % n < n := Nat.mod_lt _ (by omega)
  rw [reflectedVertex_eq (reflectedVertex_lt hk), reflectedVertex_eq hk,
    reflectedEdge_pred hap (reflectedEdge_lt hpred), reflectedEdge_reflectedEdge hap hpred,
    pred_mod hk]
  split
  · rw [Nat.sub_add_cancel (by omega), Nat.mod_self]
    omega
  · rw [Nat.sub_add_cancel (by omega), Nat.mod_eq_of_lt hk]

end Reflection

variable {α : Type}

namespace Shape

/-- The shape has a line of decoration between vertices `i` and `j`. -/
def Joins (s : Shape α) (i j : Nat) : Prop := (i, j) ∈ s.sublines ∨ (j, i) ∈ s.sublines

instance (s : Shape α) (i j : Nat) : Decidable (s.Joins i j) :=
  decidable_of_iff ((i, j) ∈ s.sublines.toList ∨ (j, i) ∈ s.sublines.toList)
    (by rw [Joins, Array.mem_toList_iff, Array.mem_toList_iff])

/-- The stretch stored for the gluing of an edge. -/
def stretch? (s : Shape α) (e : Nat) : Option α := (s.stretchShear[e]?).map Prod.fst

/-- `r` has the mirror images of the vertices of `s`, joins those of vertices that `s` joins and no
others, and stores for the image of an edge the stretch that `s` stores for the edge. -/
structure CarriesAlong [Neg α] (s r : Shape α) : Prop where
  vertex : ∀ k < s.size, r.vertices[reflectedVertex s.size s.apeirogonal k]? =
    (s.vertices[k]?).map Point.conjugate
  joins : ∀ i < s.size, ∀ j < s.size,
    r.Joins (reflectedVertex s.size s.apeirogonal i) (reflectedVertex s.size s.apeirogonal j) ↔
      s.Joins i j
  stretch : ∀ e < s.size, r.stretch? (reflectedEdge s.size s.apeirogonal e) = s.stretch? e

/-- The renumbering for the mirror image takes lines of decoration to lines of decoration, and edges
to edges with the same stretch. -/
structure Balanced (s : Shape α) : Prop where
  joins : ∀ i < s.size, ∀ j < s.size, s.Joins i j →
    s.Joins (reflectedVertex s.size s.apeirogonal i) (reflectedVertex s.size s.apeirogonal j)
  stretch : ∀ e < s.size, s.stretch? (reflectedEdge s.size s.apeirogonal e) = s.stretch? e

variable [Neg α] {s r : Shape α}

/-- The mirror image keeps the numbers of lines and of edges with a stretch. -/
theorem reflected_decoration (s : Shape α) :
    s.reflected.sublines = s.sublines ∧ s.reflected.stretchShear = s.stretchShear := by
  unfold reflected
  split <;> exact ⟨rfl, rfl⟩

/-- Where numbers are kept, lines and stretch are carried along exactly when the renumbering makes
no difference. -/
theorem carriesAlong_iff (hap : s.apeirogonal → 2 ≤ s.size)
    (hvertices : r.vertices = s.reflected.vertices) (hlines : r.sublines = s.sublines)
    (hstretch : r.stretchShear = s.stretchShear) : s.CarriesAlong r ↔ s.Balanced := by
  have hjoins (i j : Nat) : r.Joins i j ↔ s.Joins i j := by rw [Joins, Joins, hlines]
  have hkept (e : Nat) : r.stretch? e = s.stretch? e := by rw [stretch?, stretch?, hstretch]
  constructor
  · intro h
    exact ⟨fun i hi j hj hij => (hjoins _ _).mp ((h.joins i hi j hj).mpr hij),
      fun e he => (hkept _).symm.trans (h.stretch e he)⟩
  · intro h
    refine ⟨fun k hk => hvertices ▸ getElem?_reflected_vertices hap hk, fun i hi j hj => ?_,
      fun e he => (hkept _).trans (h.stretch e he)⟩
    rw [hjoins]
    refine ⟨fun hij => ?_, h.joins i hi j hj⟩
    have hback := h.joins _ (reflectedVertex_lt hi) _ (reflectedVertex_lt hj) hij
    rwa [reflectedVertex_reflectedVertex hap hi, reflectedVertex_reflectedVertex hap hj] at hback

end Shape

namespace Tiling

variable [Neg α] {t : Tiling α}

/-- **Which double covers carry decoration and stretch along**: those of tilings whose shapes are
balanced. -/
theorem doubleCover_carriesAlong_iff (hends : ∀ s ∈ t.shapes, s.apeirogonal → 2 ≤ s.size)
    (hmirror : ∃ s ∈ t.shapes, ∃ c ∈ s.connections, c.mirror = true) :
    (∀ (a : Nat) (s : Shape α), t.shapes[a]? = some s →
      ∃ r, t.doubleCover.shapes[t.copy true a]? = some r ∧ s.CarriesAlong r) ↔
    ∀ s ∈ t.shapes, s.Balanced := by
  obtain ⟨s₀, hs₀, c₀, hc₀, hm₀⟩ := hmirror
  have hm : t.mirrorCount ≠ 0 := mirrorCount_ne_zero hs₀ hc₀ hm₀
  have hcopy {a : Nat} {s : Shape α} (hs : t.shapes[a]? = some s) :=
    getElem?_doubleCover hm hs true
  have hiff {a : Nat} {s : Shape α} (hs : t.shapes[a]? = some s) :
      s.CarriesAlong (t.lift true (t.copy true a) s.reflected) ↔ s.Balanced :=
    Shape.carriesAlong_iff (hends s (Array.mem_of_getElem? hs)) rfl s.reflected_decoration.1
      s.reflected_decoration.2
  constructor
  · intro h s hs
    obtain ⟨a, ha⟩ := Array.getElem?_of_mem hs
    obtain ⟨r, hr, hcarries⟩ := h a s ha
    obtain rfl := Option.some.inj ((hcopy ha).symm.trans hr)
    exact (hiff ha).mp hcarries
  · intro h a s hs
    exact ⟨_, hcopy hs, (hiff hs).mpr (h s (Array.mem_of_getElem? hs))⟩

/-- A tiling by an affine square, mirrored at one edge, with an edge glued to the opposite one. -/
def decoratedSquare (sublines : Array (Nat × Nat)) (stretchShear : Array (Float × Float)) :
    Tiling Float :=
  { (Tiling.empty : Tiling Float) with
    geometry := .affine
    shapes := #[{ (Shape.empty : Shape Float) with
      vertices := #[⟨-0.5, 0.5, 1⟩, ⟨0.5, 0.5, 1⟩, ⟨0.5, -0.5, 1⟩, ⟨-0.5, -0.5, 1⟩]
      angles := Array.replicate 4 1
      edges := Array.replicate 4 (.finite 1)
      connections := #[⟨0, 0, true⟩, ⟨0, 3, false⟩, ⟨0, 2, false⟩, ⟨0, 1, false⟩]
      sublines, stretchShear }] }

/-- Both diagonals, and no stretch. -/
def saltire : Tiling Float := decoratedSquare #[(0, 2), (1, 3)] (Array.replicate 4 (1, 0))

theorem saltire_carriesAlong : (∀ s ∈ saltire.shapes, s.Balanced) ∧
    ∃ r, saltire.doubleCover.shapes[1]? = some r ∧ (saltire.shape 0).CarriesAlong r := by
  have hbalanced : ∀ s ∈ saltire.shapes, s.Balanced := by
    intro s hs
    obtain rfl : s = saltire.shape 0 := Array.mem_singleton.mp hs
    refine ⟨by decide, fun e he => ?_⟩
    have he' : e < 4 := he
    rcases e with _ | _ | _ | _ | e
    · rfl
    · rfl
    · rfl
    · rfl
    · omega
  refine ⟨hbalanced, (doubleCover_carriesAlong_iff (fun s hs hap => ?_) ?_).mpr hbalanced 0 _ rfl⟩
  · obtain rfl : s = saltire.shape 0 := Array.mem_singleton.mp hs
    cases hap
  · exact ⟨saltire.shape 0, Array.mem_singleton_self _, ⟨0, 0, true⟩,
      Array.mem_of_getElem? (i := 0) rfl, rfl⟩

/-- A line along the first side, and a stretch of the second one, whose partner is squeezed. -/
def lopsided : Tiling Float := decoratedSquare #[(0, 1)] #[(1, 0), (2, 0), (1, 0), (0.5, 0)]

/-- In the mirror image the line should run along the last side and runs along the first one, and
the third side should be stretched and the second one is. -/
theorem lopsided_lost : lopsided.WellFormed ∧
    (∃ s ∈ lopsided.shapes, ∃ c ∈ s.connections, c.mirror = true) ∧
    ∃ r, lopsided.doubleCover.shapes[1]? = some r ∧
      reflectedVertex 4 false 0 = 0 ∧ reflectedVertex 4 false 1 = 3 ∧
      (lopsided.shape 0).Joins 0 1 ∧ ¬ r.Joins 0 3 ∧ r.Joins 0 1 ∧
      reflectedEdge 4 false 1 = 2 ∧ (lopsided.shape 0).stretch? 1 = some 2 ∧
      r.stretch? 2 = some 1 ∧ r.stretch? 1 = some 2 ∧
      ¬ (lopsided.shape 0).CarriesAlong r := by
  obtain ⟨r, hr, hlines, hstretch⟩ : ∃ r, lopsided.doubleCover.shapes[1]? = some r ∧
      r.sublines = (lopsided.shape 0).sublines ∧
      r.stretchShear = (lopsided.shape 0).stretchShear :=
    ⟨_, getElem?_doubleCover (t := lopsided) (a := 0) (by decide) rfl true,
      (lopsided.shape 0).reflected_decoration⟩
  have hjoins (i j : Nat) : r.Joins i j ↔ (lopsided.shape 0).Joins i j := by
    rw [Shape.Joins, Shape.Joins, hlines]
  have hlost : ¬ r.Joins 0 3 := fun h => absurd ((hjoins 0 3).mp h) (by decide)
  refine ⟨by decide, ⟨lopsided.shape 0, Array.mem_singleton_self _, ⟨0, 0, true⟩,
    Array.mem_of_getElem? (i := 0) rfl, rfl⟩, r, hr, by decide, by decide, by decide, hlost,
    (hjoins 0 1).mpr (by decide), by decide, rfl, by rw [Shape.stretch?, hstretch]; rfl,
    by rw [Shape.stretch?, hstretch]; rfl, fun h => hlost ?_⟩
  exact (h.joins 0 (by decide) 1 (by decide)).mpr (by decide)

end Tiling

end Mosaic
