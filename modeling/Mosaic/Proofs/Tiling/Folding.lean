import Mosaic.Proofs.Cyclic
import Mosaic.Proofs.Tiling.Annotation

/-!
# Tiling — foldings

A folding takes every shape of a tiling to a shape of another one and turns it (`Folding`).  The
other tiling is a quotient when glued edges go to glued edges (`Folding.IsQuotient`).

A folding of which only one model of every shape is known to keep its gluings (`Folding.Onto`) keeps
all of them as soon as edges that are merged are glued to edges that are merged
(`Folding.Respects`).  Then the gluings of the image respect its periods, and also the greatest ones
that divide both these and the periods that an analysis has found before the folding
(`Folding.Onto.admissible_common`).
-/

namespace Mosaic

/-- A map from the shapes of a tiling to those of another one, and how far it turns each of them. -/
structure Folding where
  shape : Nat → Nat
  turn : Nat → Int

namespace Folding

variable {α : Type} (f : Folding)

/-- What becomes of direction `z` of shape `i`. -/
def spin (i : Nat) (z : Int) : Int := z + f.turn i

/-- Edge `c` is taken to edge `c'`, modulo the periods `m`. -/
structure Sends (m : Nat → Nat) (c c' : Connection) : Prop where
  shape : c'.shape = f.shape c.shape
  edge : (c'.edge : Int) ≡ f.spin c.shape c.edge [ZMOD m c'.shape]

/-- Two edges are taken to one, modulo the periods `m`. -/
structure Merges (m : Nat → Nat) (c c' : Connection) : Prop where
  shape : f.shape c.shape = f.shape c'.shape
  edge : f.spin c.shape c.edge ≡ f.spin c'.shape c'.edge [ZMOD m (f.shape c.shape)]

/-- Shapes go onto shapes of the same size, and glued edges to glued edges, modulo the periods of
the image. -/
structure IsQuotient (t t' : Tiling α) : Prop where
  shape_lt : ∀ i < t.shapes.size, f.shape i < t'.shapes.size
  onto : ∀ k < t'.shapes.size, ∃ i < t.shapes.size, f.shape i = k
  size : ∀ i < t.shapes.size, (t'.shape (f.shape i)).size = (t.shape i).size
  glued : ∀ i < t.shapes.size, ∀ j < (t.shape i).size,
    f.Sends (fun i => (t'.shape i).period) ((t.shape i).connection j)
      ((t'.shape (f.shape i)).connection (cyclicIndex (f.spin i j) (t.shape i).size))

/-- Edges that are merged are glued to edges that are merged. -/
def Respects (t t' : Tiling α) : Prop :=
  ∀ i < t.shapes.size, ∀ j < (t.shape i).size, ∀ i' < t.shapes.size, ∀ j' < (t.shape i').size,
    f.Merges (fun i => (t'.shape i).period) ⟨i, j, false⟩ ⟨i', j', false⟩ →
    f.Merges (fun i => (t'.shape i).period) ((t.shape i).connection j)
      ((t.shape i').connection j')

/-- The angle of an edge is that of all edges it is taken to. -/
def KeepsAngles (t t' : Tiling α) : Prop :=
  ∀ i < t.shapes.size, ∀ j < (t.shape i).size, ∀ k < (t.shape i).size,
    (k : Int) ≡ f.spin i j [ZMOD (t'.shape (f.shape i)).period] →
    (t'.shape (f.shape i)).angles[k]? = (t.shape i).angles[j]?

/-- In shapes with a vertex at infinity, edges a period apart are merged. -/
def KeepsIdeal (t t' : Tiling α) : Prop :=
  ∀ i < t.shapes.size, .unbounded ∈ (t.shape i).valences →
    (t'.shape (f.shape i)).period ∣ (t.shape i).period

/-- Shapes go to shapes of the same size, whose periods divide theirs; and the gluings of every
shape of the image are those of one shape that is not turned. -/
structure Onto (t t' : Tiling α) : Prop where
  shape_lt : ∀ i < t.shapes.size, f.shape i < t'.shapes.size
  size : ∀ i < t.shapes.size, (t'.shape (f.shape i)).size = (t.shape i).size
  period : ∀ i < t.shapes.size, (t'.shape (f.shape i)).period ∣ (t.shape i).period
  model : ∀ k < t'.shapes.size, ∃ i < t.shapes.size, f.shape i = k ∧ f.turn i = 0 ∧
    ∀ j < (t.shape i).size, f.Sends (fun i => (t'.shape i).period) ((t.shape i).connection j)
      ((t'.shape k).connection j)

variable {f} {m m' : Nat → Nat} {c c' c₁ c₂ : Connection}

instance : Decidable (f.Merges m c c') :=
  decidable_of_iff (f.shape c.shape = f.shape c'.shape ∧
    f.spin c.shape c.edge ≡ f.spin c'.shape c'.edge [ZMOD m (f.shape c.shape)])
    ⟨fun h => ⟨h.1, h.2⟩, fun h => ⟨h.shape, h.edge⟩⟩

instance {α : Type} (t t' : Tiling α) : Decidable (f.Respects t t') :=
  inferInstanceAs (Decidable (∀ i < t.shapes.size, ∀ j < (t.shape i).size,
    ∀ i' < t.shapes.size, ∀ j' < (t.shape i').size, _ → _))

instance {α : Type} [DecidableEq α] (t t' : Tiling α) : Decidable (f.KeepsAngles t t') :=
  inferInstanceAs (Decidable (∀ i < t.shapes.size, ∀ j < (t.shape i).size,
    ∀ k < (t.shape i).size, _ → _))

instance {α : Type} (t t' : Tiling α) : Decidable (f.KeepsIdeal t t') :=
  inferInstanceAs (Decidable (∀ i < t.shapes.size, _ → _))

namespace Sends

theorem of_dvd (h : f.Sends m c c') (hm : m' c'.shape ∣ m c'.shape) : f.Sends m' c c' :=
  ⟨h.shape, h.edge.of_dvd (Int.natCast_dvd_natCast.mpr hm)⟩

/-- What edges that are merged are taken to. -/
theorem of_merges (h : f.Sends m c₁ c) (hm : f.Merges m c₁ c₂) : f.Sends m c₂ c := by
  have hshape := h.shape.trans hm.shape
  refine ⟨hshape, h.edge.trans ?_⟩
  rw [h.shape]
  exact hm.edge

end Sends

end Folding

namespace Tiling

variable {α : Type} {t : Tiling α}

/-- Every edge is glued, every corner has an angle, and the distance of the copies of an edge is the
period of its shape, which divides the size. -/
structure Uniform (t : Tiling α) : Prop where
  partnered : t.Partnered
  angles : ∀ i < t.shapes.size, (t.shape i).angles.size = (t.shape i).size
  stride : ∀ i < t.shapes.size, (t.shape i).stride = (t.shape i).period
  pos : ∀ i < t.shapes.size, 0 < (t.shape i).period
  dvd : ∀ i < t.shapes.size, (t.shape i).period ∣ (t.shape i).size

namespace Uniform

variable {i : Nat} (ht : t.Uniform) (hi : i < t.shapes.size)

include ht hi

theorem stride_pos : 0 < (t.shape i).stride := ht.stride i hi ▸ ht.pos i hi

theorem size_pos : 0 < (t.shape i).size := by
  refine Nat.pos_of_ne_zero fun hsize => ?_
  have hpos := ht.stride_pos hi
  rw [Shape.stride, hsize, Nat.zero_div] at hpos
  exact Nat.lt_irrefl 0 hpos

/-- Directions that are congruent modulo the size are so modulo the period. -/
theorem modEq {z z' : Int} (h : z ≡ z' [ZMOD (t.shape i).size]) :
    z ≡ z' [ZMOD (t.shape i).period] :=
  h.of_dvd (Int.natCast_dvd_natCast.mpr (ht.dvd i hi))

end Uniform

end Tiling

/-- Two edges of one shape whose distance is a multiple of its period. -/
def Copies (m : Nat → Nat) (c c' : Connection) : Prop :=
  c.shape = c'.shape ∧ (c.edge : Int) ≡ c'.edge [ZMOD m c.shape]

theorem copies_equivalence (m : Nat → Nat) : Equivalence (Copies m) where
  refl _ := ⟨rfl, rfl⟩
  symm h := ⟨h.1.symm, h.1 ▸ h.2.symm⟩
  trans h h' := ⟨h.1.trans h'.1, h.2.trans (h.1 ▸ h'.2)⟩

/-- Gluings that respect periods take copies to copies. -/
theorem Tiling.RespectsAt.copies {α : Type} {t : Tiling α} {m : Nat → Nat} {i k k' : Nat}
    (h : t.RespectsAt m i) (hk : k < (t.shape i).size) (hk' : k' < (t.shape i).size)
    (hmod : (k : Int) ≡ k' [ZMOD m i]) :
    Copies m ((t.shape i).connection k) ((t.shape i).connection k') := by
  obtain ⟨hshape, hedge⟩ := h.periodic k hk k' hk' (Int.natCast_modEq_iff.mp hmod)
  exact ⟨hshape, Int.natCast_modEq_iff.mpr hedge⟩

namespace Folding

variable {α : Type} {f : Folding} {t t' : Tiling α}

/-- Edges that an edge is taken to are copies of each other. -/
theorem Sends.copies {m : Nat → Nat} {c c₁ c₂ : Connection} (h : f.Sends m c c₁)
    (h' : f.Sends m c c₂) : Copies m c₁ c₂ := by
  have hshape := h.shape.trans h'.shape.symm
  exact ⟨hshape, h.edge.trans (hshape ▸ h'.edge.symm)⟩

variable (f t t') in
/-- The greatest common divisor of the period of a shape of the image and of the given periods of
all shapes that are taken there. -/
def common (q : Nat → Nat) (k : Nat) : Nat :=
  Nat.gcd (t'.shape k).period (((Finset.range t.shapes.size).filter (f.shape · = k)).gcd q)

theorem common_dvd_period (q : Nat → Nat) (k : Nat) : f.common t t' q k ∣ (t'.shape k).period :=
  Nat.gcd_dvd_left _ _

theorem common_dvd (q : Nat → Nat) {i : Nat} (hi : i < t.shapes.size) :
    f.common t t' q (f.shape i) ∣ q i :=
  (Nat.gcd_dvd_right _ _).trans (Finset.gcd_dvd (by simp [hi]))

/-- Edges that copies are taken to. -/
theorem Sends.common {q : Nat → Nat} {c d c' d' : Connection}
    (h : f.Sends (fun i => (t'.shape i).period) c c') (hc : c.shape < t.shapes.size)
    (h' : f.Sends (fun i => (t'.shape i).period) d d') (hcopies : Copies q c d) :
    Copies (f.common t t' q) c' d' := by
  obtain ⟨hshape, hedge⟩ := hcopies
  have hshape' : c'.shape = d'.shape :=
    h.shape.trans ((congrArg f.shape hshape).trans h'.shape.symm)
  refine ⟨hshape', ?_⟩
  have hdvd : (f.common t t' q c'.shape : Int) ∣ (t'.shape c'.shape).period :=
    Int.natCast_dvd_natCast.mpr (common_dvd_period q c'.shape)
  calc (c'.edge : Int)
      ≡ c.edge + f.turn c.shape [ZMOD f.common t t' q c'.shape] := h.edge.of_dvd hdvd
    _ ≡ d.edge + f.turn c.shape [ZMOD f.common t t' q c'.shape] := by
        rw [h.shape]
        exact (hedge.of_dvd (Int.natCast_dvd_natCast.mpr (common_dvd q hc))).add_right _
    _ = f.spin d.shape d.edge := by rw [spin, hshape]
    _ ≡ d'.edge [ZMOD f.common t t' q c'.shape] :=
        ((hshape' ▸ h'.edge).of_dvd hdvd).symm

variable (hf : f.Onto t t') (hr : f.Respects t t')

include hf hr

/-- Glued edges go to glued edges. -/
theorem Onto.sends {i j k : Nat} (hi : i < t.shapes.size) (hj : j < (t.shape i).size)
    (hk : k < (t.shape i).size)
    (h : (k : Int) ≡ f.spin i j [ZMOD (t'.shape (f.shape i)).period]) :
    f.Sends (fun i => (t'.shape i).period) ((t.shape i).connection j)
      ((t'.shape (f.shape i)).connection k) := by
  obtain ⟨i₀, hi₀, hshape, hturn, hmodel⟩ := hf.model _ (hf.shape_lt i hi)
  have hk₀ : k < (t.shape i₀).size := by rwa [← hf.size i₀ hi₀, hshape, hf.size i hi]
  refine (hmodel k hk₀).of_merges (hr i₀ hi₀ k hk₀ i hi j hj ⟨hshape, ?_⟩)
  rw [spin, hturn, add_zero, hshape]
  exact h

variable (ht : t.Uniform) (ht' : t'.Uniform)

include ht ht'

/-- **The gluings of the image respect its periods.** -/
theorem Onto.admissible (hperiods : t.Admissible fun i => (t.shape i).period) :
    t'.Admissible fun i => (t'.shape i).period where
  pos := ht'.pos
  dvd i hi := (ht'.stride i hi).symm.dvd
  respects i hi := by
    obtain ⟨i₀, hi₀, rfl, hturn, hmodel⟩ := hf.model i hi
    have hsize := hf.size i₀ hi₀
    constructor
    case periodic =>
      intro k hk k' hk' hmod
      rw [hsize] at hk hk'
      obtain ⟨hshape, hedge⟩ := (hmodel k hk).copies (hf.sends hr hi₀ hk hk' (by
        rw [spin, hturn, add_zero]
        exact (Int.natCast_modEq_iff.mpr hmod).symm))
      exact ⟨hshape, Int.natCast_modEq_iff.mp hedge⟩
    case back =>
      intro k hk
      obtain ⟨-, -, hlt⟩ := ht'.partnered _ hi k hk
      rw [hsize] at hk
      obtain ⟨-, hi₁, hj₁⟩ := ht.partnered i₀ hi₀ k hk
      obtain ⟨hshape, hedge⟩ := hmodel k hk
      -- The partner of the edge is taken to the partner of its image.
      rw [hshape] at hlt hedge
      have hback := hf.sends hr hi₁ hj₁ (hf.size _ hi₁ ▸ hlt) hedge
      obtain ⟨hshape', hedge'⟩ := (hperiods.respects i₀ hi₀).back k hk
      rw [Tiling.back, hshape]
      rw [Tiling.back] at hshape' hedge'
      refine ⟨hback.shape.trans (by rw [hshape']), ?_⟩
      have hmod := hback.edge
      rw [hback.shape, hshape', spin, hturn, add_zero] at hmod
      exact (Int.natCast_modEq_iff.mp hmod).trans (hedge'.of_dvd (hf.period i₀ hi₀))

/-- What copies of edges are taken to. -/
theorem Onto.copies {q : Nat → Nat} (hq : t.Admissible q) {i k k' : Nat} (hi : i < t.shapes.size)
    (hk : k < (t.shape i).size) (hk' : k' < (t.shape i).size) {z z' : Int}
    (h : (k : Int) ≡ f.spin i z [ZMOD (t.shape i).size])
    (h' : (k' : Int) ≡ f.spin i z' [ZMOD (t.shape i).size]) (hmod : z ≡ z' [ZMOD q i]) :
    Copies (f.common t t' q) ((t'.shape (f.shape i)).connection k)
      ((t'.shape (f.shape i)).connection k') := by
  have hpos := ht.size_pos hi
  have hdvd : q i ∣ (t.shape i).size := (hq.dvd i hi).trans (ht.stride i hi ▸ ht.dvd i hi)
  have hlt (z : Int) := cyclicIndex_lt z hpos
  have hedge (z : Int) := cyclicIndex_modEq z hpos
  have hsent {k : Nat} {z : Int} (hk : k < (t.shape i).size)
      (h : (k : Int) ≡ f.spin i z [ZMOD (t.shape i).size]) :
      f.Sends (fun i => (t'.shape i).period)
        ((t.shape i).connection (cyclicIndex z (t.shape i).size))
        ((t'.shape (f.shape i)).connection k) := by
    refine hf.sends hr hi (hlt z) hk ((h.trans ((hedge z).symm.add_right _)).of_dvd ?_)
    exact Int.natCast_dvd_natCast.mpr (hf.size i hi ▸ ht'.dvd _ (hf.shape_lt i hi))
  have hcopies := (hq.respects i hi).copies (hlt z) (hlt z')
    ((((hedge z).of_dvd (Int.natCast_dvd_natCast.mpr hdvd)).trans hmod).trans
      ((hedge z').of_dvd (Int.natCast_dvd_natCast.mpr hdvd)).symm)
  exact (hsent hk h).common (ht.partnered i hi _ (hlt z)).2.1 (hsent hk' h') hcopies

/-- **The gluings of the image respect what its periods have in common with others that gluings of
the first tiling respect.** -/
theorem Onto.admissible_common
    (hperiods : t.Admissible fun i => (t.shape i).period) {q : Nat → Nat} (hq : t.Admissible q) :
    t'.Admissible (f.common t t' q) where
  pos i hi := Nat.gcd_pos_of_pos_left _ (ht'.pos i hi)
  dvd i hi := ht'.stride i hi ▸ common_dvd_period q i
  respects i hi := by
    have hadmissible := hf.admissible hr ht ht' hperiods
    have hpos := ht'.size_pos hi
    let across (z : Int) := (t'.shape i).connection (cyclicIndex z (t'.shape i).size)
    have hcopies : ∀ z z', z ≡ z' [ZMOD f.common t t' q i] →
        Copies (f.common t t' q) (across z) (across z') := by
      have hequiv := (copies_equivalence (f.common t t' q)).comap across
      refine fun z z' => equivalence_of_modEq hequiv (shift_gcd hequiv (fun z => ?_)
        (shift_finset_gcd hequiv fun i₁ hi₁ z => ?_))
      · -- Gluings respect the periods of the image.
        have hmod : (cyclicIndex z (t'.shape i).size : Int) ≡
            cyclicIndex (z + (t'.shape i).period) (t'.shape i).size [ZMOD (t'.shape i).period] := by
          refine (ht'.modEq hi (cyclicIndex_modEq z hpos)).trans (Int.ModEq.trans ?_
            (ht'.modEq hi (cyclicIndex_modEq _ hpos)).symm)
          exact Int.modEq_iff_dvd.mpr (by simp)
        obtain ⟨hshape, hedge⟩ := (hadmissible.respects i hi).copies
          (cyclicIndex_lt z hpos) (cyclicIndex_lt _ hpos) hmod
        exact ⟨hshape, hedge.of_dvd (Int.natCast_dvd_natCast.mpr (common_dvd_period q _))⟩
      · -- A shape that is taken here has gluings that respect its given period.
        obtain ⟨hlt, rfl⟩ := Finset.mem_filter.mp hi₁
        rw [Finset.mem_range] at hlt
        have hsize := hf.size i₁ hlt
        have hedge (z : Int) : (cyclicIndex z (t'.shape (f.shape i₁)).size : Int) ≡
            f.spin i₁ (z - f.turn i₁) [ZMOD (t.shape i₁).size] := by
          rw [spin, sub_add_cancel, ← hsize]
          exact cyclicIndex_modEq z hpos
        exact hf.copies hr ht ht' hq hlt (hsize ▸ cyclicIndex_lt z hpos)
          (hsize ▸ cyclicIndex_lt _ hpos) (hedge z) (hedge _) (Int.modEq_iff_dvd.mpr (by simp))
    constructor
    case periodic =>
      intro k hk k' hk' hmod
      obtain ⟨hshape, hedge⟩ := hcopies k k' (Int.natCast_modEq_iff.mpr hmod)
      simp only [across, cyclicIndex_of_lt hk, cyclicIndex_of_lt hk'] at hshape hedge
      exact ⟨hshape, Int.natCast_modEq_iff.mp hedge⟩
    case back =>
      intro k hk
      obtain ⟨hshape, hedge⟩ := (hadmissible.respects i hi).back k hk
      exact ⟨hshape, hedge.of_dvd (common_dvd_period q i)⟩

omit hf hr ht ht' in
/-- What is said of the gluings of a tiling may be said of its analysis. -/
theorem Respects.of_annotates {u : Tiling α} (h : t.Annotates u) (hr : f.Respects u t') :
    f.Respects t t' := by
  simpa only [Respects, h.size_eq, h.size_shape, h.connection] using hr

omit hf hr ht ht' in
theorem KeepsAngles.of_annotates {u : Tiling α} (h : t.Annotates u) (ha : f.KeepsAngles u t') :
    f.KeepsAngles t t' := by
  simpa only [KeepsAngles, h.size_eq, h.size_shape, h.angles] using ha

end Folding

end Mosaic
