import Mosaic.Proofs.Conversion.Walk

/-!
# Conversion — congruences of walkers

A congruence says which walkers are to look alike: cells of one class are alike, and walkers that
are alike stay so when both turn or both cross (`CellComplex.IsCongruence`).  Crossing is asked of
edges that have been crossed, so it is no restriction that a complex is explored only in part.

Two walkers are forced to look alike when every congruence relates them, now and later, on every
set of cells that holds the first one and is closed under crossing (`CellComplex.Forced`).  Being
forced is an equivalence that is itself kept by turning and crossing, so a conversion that
identifies only what is forced can go on from there.
-/

namespace Mosaic.CellComplex

variable {α σ κ : Type} (cx : CellComplex α σ κ)

/-- The walker looks at an edge of a cell of `C`. -/
def On (s : σ) (C : κ → Prop) (w : Walker κ) : Prop := C w.cell ∧ cx.Stands s w

/-- Walks from the first cell do not leave `C`. -/
structure Closed (s₀ s : σ) (C : κ → Prop) : Prop where
  start : ∀ c s₁, cx.start s₀ = .ok c s₁ → C c
  crosses : ∀ w v, cx.On s C w → cx.Crosses s w v → C v.cell

/-- An equivalence of the walkers on the cells of `C` that relates cells of one class and is kept
by turning and by crossing. -/
structure IsCongruence (s : σ) (C : κ → Prop) (R : Walker κ → Walker κ → Prop) : Prop where
  refl : ∀ w, cx.On s C w → R w w
  symm : ∀ w w', cx.On s C w → cx.On s C w' → R w w' → R w' w
  trans : ∀ w w' w'', cx.On s C w → cx.On s C w' → cx.On s C w'' → R w w' → R w' w'' → R w w''
  sameClass : ∀ w w', cx.On s C w → cx.On s C w' →
    cx.classOf s w.cell = cx.classOf s w'.cell → w.spin = w'.spin → R w w'
  turn : ∀ w w', cx.On s C w → cx.On s C w' → R w w' → R (cx.turned s w 1) (cx.turned s w' 1)
  cross : ∀ w w' v v', cx.On s C w → cx.On s C w' → R w w' → cx.Crosses s w v →
    cx.Crosses s w' v' → R v v'

/-- The cell is there, and walks from the first cell come to it. -/
def Reached (s₀ s : σ) (c : κ) : Prop :=
  0 < cx.degree s c ∧ ∀ t, cx.Later s t → ∀ C, cx.Closed s₀ t C → C c

/-- Every congruence relates the two walkers. -/
def Forced (s₀ s : σ) (w w' : Walker κ) : Prop :=
  ∀ t, cx.Later s t → ∀ C R, cx.Closed s₀ t C → cx.IsCongruence t C R →
    cx.On t C w ∧ cx.On t C w' ∧ R w w'

variable {cx} {s₀ s t : σ} {C : κ → Prop} {R : Walker κ → Walker κ → Prop}

theorem On.walker {c : κ} (hC : C c) (hc : 0 < cx.degree s c) (z : Int) :
    cx.On s C (cx.walker s c z) := ⟨hC, walker_stands hc z⟩

/-- Walkers that are alike stay so when they are turned by the same number of edges. -/
theorem IsCongruence.walker_add (hR : cx.IsCongruence s C R) {c c' : κ} (hC : C c) (hC' : C c')
    (hc : 0 < cx.degree s c) (hdegree : cx.degree s c = cx.degree s c') {z z' : Int}
    (h : R (cx.walker s c z) (cx.walker s c' z')) (d : Int) :
    R (cx.walker s c (z + d)) (cx.walker s c' (z' + d)) := by
  have hc' : 0 < cx.degree s c' := hdegree ▸ hc
  have hnat : ∀ n : Nat, R (cx.walker s c (z + n)) (cx.walker s c' (z' + n)) := by
    intro n
    induction n with
    | zero => simpa using h
    | succ n ih =>
        have hturn := hR.turn _ _ (.walker hC hc _) (.walker hC' hc' _) ih
        rw [turned_walker hc, turned_walker hc'] at hturn
        simpa [add_assoc] using hturn
  -- Turning back is turning on, almost all the way round.
  obtain ⟨n, hn⟩ : ∃ n : Nat, (n : Int) ≡ d [ZMOD cx.degree s c] :=
    ⟨cyclicIndex d (cx.degree s c), cyclicIndex_modEq d hc⟩
  have hR' := hnat n
  rwa [walker_congr hc (hn.add_left z), walker_congr hc' ((hdegree ▸ hn).add_left z')] at hR'

/-- The relation of all walkers is a congruence. -/
theorem IsCongruence.total (s : σ) (C : κ → Prop) : cx.IsCongruence s C fun _ _ => True := by
  constructor <;> intros <;> trivial

/-! ### Cells that are reached -/

theorem Reached.pos {c : κ} (h : cx.Reached s₀ s c) : 0 < cx.degree s c := h.1

/-- A cell that has been reached is reached ever after. -/
theorem Reached.later (hcx : cx.Lawful s₀) (hs : cx.Reachable s₀ s) (h : cx.Later s t) {c : κ}
    (hc : cx.Reached s₀ s c) : cx.Reached s₀ t c := by
  refine ⟨?_, fun u hu => hc.2 u (h.trans hu)⟩
  rw [(hcx.later_stable hs h hc.pos).1]
  exact hc.pos

/-- The cell where an analysis starts is reached. -/
theorem Reached.start (hcx : cx.Lawful s₀) {c : κ} (h : cx.start s₀ = .ok c s) :
    cx.Reached s₀ s c := ⟨hcx.start_pos h, fun _ _ _ hC => hC.start c s h⟩

/-! ### Walkers that are forced to look alike -/

namespace Forced

variable {w w' w'' : Walker κ}

/-- What is forced stays so while the complex is explored. -/
theorem later (h : cx.Later s t) (hw : cx.Forced s₀ s w w') : cx.Forced s₀ t w w' :=
  fun u hu => hw u (h.trans hu)

theorem symm (h : cx.Forced s₀ s w w') : cx.Forced s₀ s w' w := by
  intro t ht C R hC hR
  obtain ⟨hw, hw', hww'⟩ := h t ht C R hC hR
  exact ⟨hw', hw, hR.symm _ _ hw hw' hww'⟩

theorem trans (h : cx.Forced s₀ s w w') (h' : cx.Forced s₀ s w' w'') :
    cx.Forced s₀ s w w'' := by
  intro t ht C R hC hR
  obtain ⟨hw, hw', hww'⟩ := h t ht C R hC hR
  obtain ⟨-, hw'', hw'w''⟩ := h' t ht C R hC hR
  exact ⟨hw, hw'', hR.trans _ _ _ hw hw' hw'' hww' hw'w''⟩

theorem stands (h : cx.Forced s₀ s w w') : cx.Stands s w := by
  obtain ⟨hon, -⟩ := h s (.refl s) (fun _ => True) _ ⟨fun _ _ _ => trivial, fun _ _ _ _ => trivial⟩
    (.total s _)
  exact hon.2

theorem reached (h : cx.Forced s₀ s w w') : cx.Reached s₀ s w.cell := by
  refine ⟨h.stands.pos, fun t ht C hC => ?_⟩
  obtain ⟨hon, -⟩ := h t ht C _ hC (.total t C)
  exact hon.1

/-- Cells of one class look alike. -/
theorem of_class (hcx : cx.Lawful s₀) (hs : cx.Reachable s₀ s) {c c' : κ}
    (hc : cx.Reached s₀ s c) (hc' : cx.Reached s₀ s c')
    (hclass : cx.classOf s c = cx.classOf s c') (z : Int) :
    cx.Forced s₀ s (cx.walker s c z) (cx.walker s c' z) := by
  intro t ht C R hC hR
  obtain ⟨hdegree, hclass₁⟩ := hcx.later_stable hs ht hc.pos
  obtain ⟨hdegree', hclass₂⟩ := hcx.later_stable hs ht hc'.pos
  have hon : cx.On t C (cx.walker s c z) :=
    ⟨hc.2 t ht C hC, (walker_stands hc.pos z).later hcx hs ht⟩
  have hon' : cx.On t C (cx.walker s c' z) :=
    ⟨hc'.2 t ht C hC, (walker_stands hc'.pos z).later hcx hs ht⟩
  refine ⟨hon, hon', hR.sameClass _ _ hon hon' ?_ ?_⟩
  · exact hclass₁.trans (hclass.trans hclass₂.symm)
  · rw [walker, walker, hcx.degree_eq hs hc.pos hc'.pos hclass]

theorem refl (hcx : cx.Lawful s₀) (hs : cx.Reachable s₀ s) {c : κ} (hc : cx.Reached s₀ s c)
    (z : Int) : cx.Forced s₀ s (cx.walker s c z) (cx.walker s c z) :=
  of_class hcx hs hc hc rfl z

/-- Walkers that are forced to be alike are so after a turn. -/
theorem turn (hcx : cx.Lawful s₀) (hs : cx.Reachable s₀ s) {c c' : κ} (hc : 0 < cx.degree s c)
    (hdegree : cx.degree s c = cx.degree s c') {z z' : Int}
    (h : cx.Forced s₀ s (cx.walker s c z) (cx.walker s c' z')) (d : Int) :
    cx.Forced s₀ s (cx.walker s c (z + d)) (cx.walker s c' (z' + d)) := by
  intro t ht C R hC hR
  have hc' : 0 < cx.degree s c' := hdegree ▸ hc
  obtain ⟨hon, hon', hR'⟩ := h t ht C R hC hR
  have hd := (hcx.later_stable hs ht hc).1
  have hd' := (hcx.later_stable hs ht hc').1
  rw [← walker_later hcx hs ht hc, ← walker_later hcx hs ht hc'] at hR' ⊢
  have hpos : 0 < cx.degree t c := hd ▸ hc
  have hpos' : 0 < cx.degree t c' := hd' ▸ hc'
  refine ⟨.walker hon.1 hpos _, .walker hon'.1 hpos' _, ?_⟩
  exact hR.walker_add hon.1 hon'.1 hpos (hd.trans (hdegree.trans hd'.symm)) hR' d

/-- Walkers that are forced to be alike are so after a turn of both. -/
theorem turned (hcx : cx.Lawful s₀) (hs : cx.Reachable s₀ s)
    (hdegree : cx.degree s w.cell = cx.degree s w'.cell) (h : cx.Forced s₀ s w w') (d : Int) :
    cx.Forced s₀ s (cx.turned s w d) (cx.turned s w' d) := by
  have hw := h.stands
  rw [← hw.eq_walker, ← h.symm.stands.eq_walker] at h
  exact turn hcx hs hw.pos hdegree h d

/-- Walkers that are forced to be alike are so behind the edges that they cross. -/
theorem cross (hcx : cx.Lawful s₀) (hs : cx.Reachable s₀ s) {v v' : Walker κ}
    (h : cx.Forced s₀ s w w') (hw : cx.Crosses s w v) (hw' : cx.Crosses s w' v') :
    cx.Forced s₀ s v v' := by
  intro t ht C R hC hR
  obtain ⟨hon, hon', hR'⟩ := h t ht C R hC hR
  have hv := hw.later hcx hs ht
  have hv' := hw'.later hcx hs ht
  exact ⟨⟨hC.crosses _ _ hon hv, hv.2.1⟩, ⟨hC.crosses _ _ hon' hv', hv'.2.1⟩,
    hR.cross _ _ _ _ hon hon' hR' hv hv'⟩

end Forced

/-! ### Directions of one cell that look alike -/

variable (cx) in
/-- The cell looks the same when turned by `p`. -/
def SelfLike (s₀ s : σ) (c : κ) (p : Int) : Prop :=
  ∀ z, cx.Forced s₀ s (cx.walker s c z) (cx.walker s c (z + p))

namespace SelfLike

variable {c : κ} {p q : Int}

/-- Directions that differ by a multiple of a period look alike. -/
theorem of_modEq (hcx : cx.Lawful s₀) (hs : cx.Reachable s₀ s) (hc : cx.Reached s₀ s c)
    (hp : cx.SelfLike s₀ s c p) {z z' : Int} (h : z ≡ z' [ZMOD p]) :
    cx.Forced s₀ s (cx.walker s c z) (cx.walker s c z') :=
  equivalence_of_modEq (R := fun z z' => cx.Forced s₀ s (cx.walker s c z) (cx.walker s c z'))
    ⟨Forced.refl hcx hs hc, Forced.symm, Forced.trans⟩ hp h

/-- Two periods have their greatest common divisor as a period. -/
theorem gcd (hcx : cx.Lawful s₀) (hs : cx.Reachable s₀ s) (hc : cx.Reached s₀ s c)
    (hp : cx.SelfLike s₀ s c p) (hq : cx.SelfLike s₀ s c q) :
    cx.SelfLike s₀ s c (Int.gcd p q) := by
  intro z
  have hz : z ≡ z + p * Int.gcdA p q [ZMOD p] := Int.modEq_iff_dvd.mpr (by simp)
  have hz' : z + p * Int.gcdA p q ≡ z + p * Int.gcdA p q + q * Int.gcdB p q [ZMOD q] :=
    Int.modEq_iff_dvd.mpr (by simp)
  rw [Int.gcd_eq_gcd_ab, ← add_assoc]
  exact (hp.of_modEq hcx hs hc hz).trans (hq.of_modEq hcx hs hc hz')

/-- A cell that looks like itself after a turn does so ever after. -/
theorem later (hcx : cx.Lawful s₀) (hs : cx.Reachable s₀ s) (h : cx.Later s t)
    (hc : 0 < cx.degree s c) (hp : cx.SelfLike s₀ s c p) : cx.SelfLike s₀ t c p := by
  intro z
  rw [walker_later hcx hs h hc, walker_later hcx hs h hc]
  exact (hp z).later h

/-- A cell looks the same turned by what the cell that it looks like may be turned by. -/
theorem transfer {c' : κ} {d : Int}
    (h : ∀ z, cx.Forced s₀ s (cx.walker s c z) (cx.walker s c' (z + d)))
    (hp : cx.SelfLike s₀ s c' p) : cx.SelfLike s₀ s c p := by
  intro z
  have hz := hp (z + d)
  rw [add_right_comm] at hz
  exact ((h z).trans hz).trans (h (z + p)).symm

end SelfLike

end Mosaic.CellComplex
