import Mosaic.Proofs.Plane.Exact
import Mosaic.Proofs.Tiling.WellFormed
import Mosaic.Tiling.Adjacency
import Mosaic.Tiling.Gluing

/-!
# Tiling — there and back across an edge

In exact arithmetic the motion across a gluing and the motion back across it cancel.  Each of them
leaves the first shape at the middle of its edge (`Shape.departure`), crosses the edge
(`Tiling.crossing`: the affine part and the reflection), and enters the second one at the middle of
the other edge (`Shape.arrival`).

* `Shape.arrival_mul_departure`, `Shape.departure_mul_arrival`: the half turn at an edge.
* `Tiling.crossing_back`: a crossing and its inverse leave that half turn alone.
* `Tiling.setStretchShear_puts`: the affine parts of the two directions of a gluing.
* `Tiling.adjacencyVia_there_and_back`: the two motions are inverse to each other, plain or
  affine, whatever the geometry.
-/

namespace Mosaic

noncomputable section

open Motion Space

/-! ### At an edge -/

namespace Shape

/-- An edge of finite length between two points with one shortest line through them. -/
structure ProperEdge (space : Space) (s : Shape ℝ) (e : Nat) : Prop where
  length : ∃ d, s.edge e = .finite d
  ends : space.Segment (s.vertex e) (s.vertex ((e + 1) % s.size))

variable (space : Space) (s : Shape ℝ) (e : Nat)

/-- The middle of a finite edge. -/
def middle : Point ℝ := space.mid (s.vertex e) (s.vertex ((e + 1) % s.size))

/-- Length of a finite edge, as the distance of its ends. -/
def span : ℝ := space.dist (s.vertex e) (s.vertex ((e + 1) % s.size))

/-- The motion that takes the origin to the middle of an edge and the axis to its right end. -/
def departure : Motion ℝ :=
  space.pushTo (s.middle space e) *
    spinFromAxis ((space.pushFrom (s.middle space e)).apply (s.vertex ((e + 1) % s.size)))

/-- The motion that takes the middle of an edge to the origin and its left end to the axis. -/
def arrival : Motion ℝ :=
  spinToAxis ((space.pushFrom (s.middle space e)).apply (s.vertex e)) *
    space.pushFrom (s.middle space e)

variable {space s e}

/-- Seen from the middle of an edge, its ends lie in opposite directions. -/
theorem ProperEdge.opposite (h : s.ProperEdge space e) :
    Motion.Opposite ((space.pushFrom (s.middle space e)).apply (s.vertex e))
      ((space.pushFrom (s.middle space e)).apply (s.vertex ((e + 1) % s.size))) :=
  h.ends.opposite

/-- Arriving at an edge and departing from it is half a turn. -/
theorem arrival_mul_departure (h : s.ProperEdge space e) :
    s.arrival space e * s.departure space e = halfTurn := by
  have hmodel : space.OnModel (s.middle space e) := h.ends.exists_mid.1
  rw [arrival, departure, mul_assoc, ← mul_assoc (space.pushFrom _), pushFrom_mul_pushTo hmodel,
    one_mul]
  exact h.opposite.spinToAxis_mul

/-- Departing from an edge and arriving at it, with half a turn between them, moves nothing. -/
theorem departure_mul_arrival (h : s.ProperEdge space e) :
    s.departure space e * halfTurn * s.arrival space e = 1 := by
  have hmodel : space.OnModel (s.middle space e) := h.ends.exists_mid.1
  calc s.departure space e * halfTurn * s.arrival space e
      = space.pushTo (s.middle space e) * (spinFromAxis ((space.pushFrom (s.middle space e)).apply
          (s.vertex ((e + 1) % s.size))) * halfTurn * spinToAxis ((space.pushFrom
          (s.middle space e)).apply (s.vertex e))) * space.pushFrom (s.middle space e) := by
        simp only [departure, arrival, mul_assoc]
    _ = 1 := by
        rw [h.opposite.spinFromAxis_mul, mul_one, pushTo_mul_pushFrom hmodel]

end Shape

namespace Tiling

/-! ### Across an edge -/

/-- What happens between the two sides of an edge: scaling, stretch and shear in the affine case,
and a reflection if the gluing is mirrored. -/
def crossing (affine mirror : Bool) (s : Shape ℝ) (e : Nat) (scale : ℝ) : Motion ℝ :=
  (if affine then affinePart s e scale else 1) * (if mirror then Motion.mirror else 1)

/-- The affine parts of two edges that are inverse to each other across a gluing. -/
def Inverse (mirror : Bool) (s other : Shape ℝ) (e f : Nat) : Prop :=
  ∃ stretch stretch' shear : ℝ, stretch * stretch' = 1 ∧
    s.stretchShear[e]? = some (stretch, shear) ∧
      other.stretchShear[f]? = some (stretch', shear * (if mirror then 1 else -1) * stretch)

theorem affinePart_eq {s : Shape ℝ} {e : Nat} {stretch shear : ℝ}
    (h : s.stretchShear[e]? = some (stretch, shear)) (scale : ℝ) :
    affinePart s e scale = ⟨scale, stretch * shear * scale, 0, 0, scale * stretch, 0, 0, 0, 1⟩ := by
  simp [affinePart, h, identity]

theorem mirror_eq : (Motion.mirror : Motion ℝ) = ⟨-1, 0, 0, 0, 1, 0, 0, 0, 1⟩ := by
  simp [Motion.mirror]

/-- Crossing an edge and crossing it back, with half a turn between, is that half turn. -/
theorem crossing_back {affine mirror : Bool} {s other : Shape ℝ} {e f : Nat} {scale scale' : ℝ}
    (hscale : scale * scale' = 1) (h : affine = true → Inverse mirror s other e f) :
    crossing affine mirror s e scale * halfTurn * crossing affine mirror other f scale' =
      halfTurn := by
  cases affine with
  | false =>
    cases mirror <;> simp only [crossing, mirror_eq, halfTurn, mul_eq, one_eq] <;> norm_num
  | true =>
    obtain ⟨stretch, stretch', shear, hstretch, hs, hother⟩ := h rfl
    simp only [crossing, if_true, affinePart_eq hs, affinePart_eq hother]
    -- the shear of the way back is reversed by the half turn, or by the reflection before it
    cases mirror <;> ext <;>
      simp only [mirror_eq, halfTurn, mul_eq, one_eq, if_true, Bool.false_eq_true, if_false]
    all_goals first
      | ring1
      | linear_combination -hscale
      | linear_combination -stretch * stretch' * hscale - hstretch

/-- The motion across edge `e` of shape `a` into the frame of edge `f` of shape `b`. -/
def across (t : Tiling ℝ) (a e b f : Nat) (affine mirror : Bool) : Motion ℝ :=
  (t.shape a).departure t.space e *
    crossing affine mirror (t.shape a) e
      ((t.shape a).span t.space e / (t.shape b).span t.space f) *
    (t.shape b).arrival t.space f

/-- How far a motion across a gluing misplaces the ends of the shared edge. -/
def mismatch (t : Tiling ℝ) (a e b f : Nat) (mirror : Bool) (m : Motion ℝ) : ℝ :=
  let l := (t.shape a).vertex e
  let r := (t.shape a).vertex ((e + 1) % (t.shape a).size)
  t.space.gap (if mirror then r else l)
      (m.apply ((t.shape b).vertex ((f + 1) % (t.shape b).size))) +
    t.space.gap (if mirror then l else r) (m.apply ((t.shape b).vertex f))

/-- The answer for two finite edges: the motion across, unless it misplaces their ends. -/
theorem adjacencyVia_eq {t : Tiling ℝ} {a b e f f' : Nat} {affine mirror : Bool}
    (hc : t.connection? a e = some ⟨b, f', mirror⟩)
    (he : ∃ d, (t.shape a).edge e = .finite d) (hf : ∃ d, (t.shape b).edge f = .finite d) :
    t.adjacencyVia a e (some f) affine =
      if (t.shape b).size ≤ f then .error (.invalidEdge b f)
      else
        let m := t.across a e b f affine mirror
        if !(t.mismatch a e b f mirror m ≤ adjacencySlack) && !t.isCombinatorial then
          .error (.adjacencyMismatch a e (t.mismatch a e b f mirror m))
        else .ok m := by
  obtain ⟨d, he⟩ := he
  obtain ⟨d', hf⟩ := hf
  have ha := (connection?_eq_some_iff.mp hc).1
  unfold adjacencyVia
  rw [getElem?_shape ha, hc]
  simp only [Option.getD_some, he, hf, EdgeLength.midpoint]
  cases affine <;> cases mirror <;>
    simp [across, mismatch, crossing, Shape.departure, Shape.arrival, Shape.middle, Shape.span,
      mul_assoc]

/-- A motion that is answered is the motion across. -/
theorem eq_across {t : Tiling ℝ} {a b e f f' : Nat} {affine mirror : Bool} {m : Motion ℝ}
    (hc : t.connection? a e = some ⟨b, f', mirror⟩)
    (he : ∃ d, (t.shape a).edge e = .finite d) (hf : ∃ d, (t.shape b).edge f = .finite d)
    (h : t.adjacencyVia a e (some f) affine = .ok m) : m = t.across a e b f affine mirror := by
  rw [adjacencyVia_eq hc he hf] at h
  split at h
  · cases h
  · dsimp only at h
    split at h
    · cases h
    · exact (Except.ok.inj h).symm

/-- Two crossings that are inverse to each other make up the motions there and back. -/
theorem there_and_back {t : Tiling ℝ} {a b e f e' : Nat} {mirror affine : Bool}
    (hab : t.connection? a e = some ⟨b, f, mirror⟩)
    (hba : t.connection? b f = some ⟨a, e', mirror⟩)
    (he : (t.shape a).ProperEdge t.space e) (hf : (t.shape b).ProperEdge t.space f)
    (hinv : affine = true → Inverse mirror (t.shape a) (t.shape b) e f) {m m' : Motion ℝ}
    (hm : t.adjacencyVia a e (some f) affine = .ok m)
    (hm' : t.adjacencyVia b f (some e) affine = .ok m') : m * m' = Motion.identity := by
  have hspan : (t.shape a).span t.space e ≠ 0 := he.ends.dist_pos.ne'
  have hspan' : (t.shape b).span t.space f ≠ 0 := hf.ends.dist_pos.ne'
  rw [eq_across hab he.length hf.length hm, eq_across hba hf.length he.length hm', across, across]
  set κ := (t.shape a).span t.space e / (t.shape b).span t.space f with hκ
  set κ' := (t.shape b).span t.space f / (t.shape a).span t.space e with hκ'
  have hscale : κ * κ' = 1 := by
    rw [hκ, hκ', div_mul_div_comm, mul_comm, div_self (mul_ne_zero hspan' hspan)]
  calc (t.shape a).departure t.space e * crossing affine mirror (t.shape a) e κ *
          (t.shape b).arrival t.space f *
        ((t.shape b).departure t.space f * crossing affine mirror (t.shape b) f κ' *
          (t.shape a).arrival t.space e)
      = (t.shape a).departure t.space e * (crossing affine mirror (t.shape a) e κ *
          ((t.shape b).arrival t.space f * (t.shape b).departure t.space f) *
          crossing affine mirror (t.shape b) f κ') * (t.shape a).arrival t.space e := by
        simp only [mul_assoc]
    _ = (t.shape a).departure t.space e * halfTurn * (t.shape a).arrival t.space e := by
        rw [Shape.arrival_mul_departure hf, crossing_back hscale hinv]
    _ = 1 := Shape.departure_mul_arrival he

/-! ### Stretch and shear -/

section

variable (t : Tiling ℝ) {a b e f e' : Nat} {mirror : Bool} (stretch shear : ℝ)

/-- Setting stretch and shear changes nothing else of a shape. -/
theorem shape_setStretchShear (a e : Nat) {i : Nat} (hi : i < t.shapes.size) :
    ∃ x, (t.setStretchShear a e stretch shear).shape i = { t.shape i with stretchShear := x } := by
  have hi' (f : Shape ℝ → Shape ℝ) : i < (t.modifyShape a f).shapes.size := by
    simpa [modifyShape] using hi
  simp only [setStretchShear]
  rw [shape_modifyShape _ _ _ (hi' _), shape_modifyShape _ _ _ hi]
  split_ifs <;> exact ⟨_, rfl⟩

theorem connection?_setStretchShear (a e i k : Nat) :
    (t.setStretchShear a e stretch shear).connection? i k = t.connection? i k := by
  have hsize : (t.setStretchShear a e stretch shear).shapes.size = t.shapes.size := by
    simp [setStretchShear, modifyShape]
  refine Option.ext fun c => ?_
  rw [connection?_eq_some_iff, connection?_eq_some_iff, hsize]
  refine and_congr_right fun hi => ?_
  obtain ⟨x, hx⟩ := t.shape_setStretchShear stretch shear a e hi
  rw [hx]

theorem properEdge_setStretchShear {i k : Nat} {space : Space} (hi : i < t.shapes.size)
    (h : (t.shape i).ProperEdge space k) (a e : Nat) :
    ((t.setStretchShear a e stretch shear).shape i).ProperEdge space k := by
  obtain ⟨x, hx⟩ := t.shape_setStretchShear stretch shear a e hi
  rw [hx]
  exact ⟨h.length, h.ends⟩

variable {t stretch shear}

/-- Both sides of the gluing are set, the partner last. -/
theorem stretchShear_setStretchShear (hab : t.connection? a e = some ⟨b, f, mirror⟩) {i : Nat}
    (hi : i < t.shapes.size) : ((t.setStretchShear a e stretch shear).shape i).stretchShear =
      let own := if a = i then (t.shape i).stretchShear.setIfInBounds e (stretch, shear)
        else (t.shape i).stretchShear
      if b = i then own.setIfInBounds f
        (1 / stretch, shear * (if mirror then 1 else -1) * stretch) else own := by
  have hconn : (t.shape a).connection e = ⟨b, f, mirror⟩ := by
    rw [Shape.connection, (connection?_eq_some_iff.mp hab).2, Option.getD_some]
  have hi' (g : Shape ℝ → Shape ℝ) : i < (t.modifyShape a g).shapes.size := by
    simpa [modifyShape] using hi
  simp only [setStretchShear, hconn]
  rw [shape_modifyShape _ _ _ (hi' _), shape_modifyShape _ _ _ hi]
  cases mirror <;> split_ifs <;> simp_all

/-- The two edges of a gluing get affine parts that are inverse to each other. -/
theorem setStretchShear_puts (hab : t.connection? a e = some ⟨b, f, mirror⟩)
    (hb : b < t.shapes.size) (hne : (b, f) ≠ (a, e)) (he : e < (t.shape a).stretchShear.size)
    (hf : f < (t.shape b).stretchShear.size) (hstretch : stretch ≠ 0) :
    Inverse mirror ((t.setStretchShear a e stretch shear).shape a)
      ((t.setStretchShear a e stretch shear).shape b) e f := by
  have ha := (connection?_eq_some_iff.mp hab).1
  refine ⟨stretch, 1 / stretch, shear, mul_one_div_cancel hstretch, ?_, ?_⟩
  · rw [stretchShear_setStretchShear hab ha, if_pos rfl]
    by_cases hba : b = a
    · have hfe : f ≠ e := fun hfe => hne (by rw [hba, hfe])
      simp only [if_pos hba, Array.getElem?_setIfInBounds, if_neg hfe, if_true, if_pos he]
    · simp only [if_neg hba, Array.getElem?_setIfInBounds, if_true, if_pos he]
  · rw [stretchShear_setStretchShear hab hb, if_pos rfl]
    rw [Array.getElem?_setIfInBounds, if_pos rfl, if_pos]
    split_ifs
    · rwa [Array.size_setIfInBounds]
    · exact hf

/-- In exact arithmetic the motion across a gluing of two proper edges and the motion back across
it are inverse to each other; so are they in the affine case, whatever stretch and shear the gluing
is given and however long its edges are. -/
theorem adjacencyVia_there_and_back (t : Tiling ℝ) {a b e f e' : Nat} {mirror : Bool}
    (hab : t.connection? a e = some ⟨b, f, mirror⟩)
    (hba : t.connection? b f = some ⟨a, e', mirror⟩)
    (he : (t.shape a).ProperEdge t.space e) (hf : (t.shape b).ProperEdge t.space f) :
    (∀ m m', t.adjacencyVia a e (some f) false = .ok m →
      t.adjacencyVia b f (some e) false = .ok m' → m * m' = Motion.identity) ∧
    ((b, f) ≠ (a, e) → e < (t.shape a).stretchShear.size → f < (t.shape b).stretchShear.size →
      ∀ stretch shear : ℝ, stretch ≠ 0 → ∀ m m',
        (t.setStretchShear a e stretch shear).adjacencyVia a e (some f) true = .ok m →
          (t.setStretchShear a e stretch shear).adjacencyVia b f (some e) true = .ok m' →
            m * m' = Motion.identity) := by
  refine ⟨fun m m' hm hm' => there_and_back hab hba he hf (fun h => by cases h) hm hm', ?_⟩
  intro hne hes hfs stretch shear hstretch m m' hm hm'
  have ha := (connection?_eq_some_iff.mp hab).1
  have hb := (connection?_eq_some_iff.mp hba).1
  rw [← t.connection?_setStretchShear stretch shear a e] at hab hba
  refine there_and_back hab hba (t.properEdge_setStretchShear stretch shear ha he a e)
    (t.properEdge_setStretchShear stretch shear hb hf a e) (fun _ => ?_) hm hm'
  rw [t.connection?_setStretchShear stretch shear a e] at hab
  exact setStretchShear_puts hab hb hne hes hfs hstretch

end

/-- A motion that takes the ends of one edge to the ends of the other is answered. -/
theorem adjacencyVia_eq_ok {t : Tiling ℝ} {a b e f f' : Nat} {affine : Bool} {m : Motion ℝ}
    (hs : t.space = .euclidean) (hc : t.connection? a e = some ⟨b, f', false⟩)
    (he : ∃ d, (t.shape a).edge e = .finite d) (hf : ∃ d, (t.shape b).edge f = .finite d)
    (hlt : f < (t.shape b).size) (hm : t.across a e b f affine false = m)
    (hl : m.apply ((t.shape b).vertex ((f + 1) % (t.shape b).size)) = (t.shape a).vertex e)
    (hr : m.apply ((t.shape b).vertex f) =
      (t.shape a).vertex ((e + 1) % (t.shape a).size)) :
    t.adjacencyVia a e (some f) affine = .ok m := by
  have hself (p : Point ℝ) : Space.dist .euclidean p p = 0 := by simp [Space.dist]
  have hzero : t.mismatch a e b f false m = 0 := by simp [mismatch, hl, hr, hs, Space.gap, hself]
  have hslack : (0 : ℝ) ≤ adjacencySlack := by norm_num [adjacencySlack]
  rw [adjacencyVia_eq hc he hf, if_neg (not_le.mpr hlt)]
  simp only [hm, hzero, hslack]
  rfl

/-! ### A grid of squares -/

/-- A square around the origin with stretches and shears of its edges, glued to itself by
displacements. -/
def pane (affineParts : Array (ℝ × ℝ)) : Shape ℝ :=
  { Shape.empty with
    vertices := #[⟨-1, -1, 1⟩, ⟨1, -1, 1⟩, ⟨1, 1, 1⟩, ⟨-1, 1, 1⟩]
    edges := #[.finite 2, .finite 2, .finite 2, .finite 2]
    connections := #[⟨0, 2, false⟩, ⟨0, 3, false⟩, ⟨0, 0, false⟩, ⟨0, 1, false⟩]
    stretchShear := affineParts }

/-- The affine tiling by that square. -/
def grid : Tiling ℝ :=
  { empty with geometry := .affine, shapes := #[pane #[(1, 0), (1, 0), (1, 0), (1, 0)]] }

/-- The plane motions at the bottom and at the top of the square. -/
theorem pane_motions (x : Array (ℝ × ℝ)) :
    (pane x).departure .euclidean 0 = ⟨1, 0, 0, 0, 1, -1, 0, 0, 1⟩ ∧
    (pane x).arrival .euclidean 0 = ⟨-1, 0, 0, 0, -1, -1, 0, 0, 1⟩ ∧
    (pane x).departure .euclidean 2 = ⟨-1, 0, 0, 0, -1, 1, 0, 0, 1⟩ ∧
    (pane x).arrival .euclidean 2 = ⟨1, 0, 0, 0, 1, -1, 0, 0, 1⟩ ∧
    (pane x).span .euclidean 0 = 2 ∧ (pane x).span .euclidean 2 = 2 := by
  have hright : Complex.arg ⟨1, 0⟩ = 0 := Complex.arg_ofReal_of_nonneg zero_le_one
  have hleft : Complex.arg ⟨-1, 0⟩ = Real.pi := Complex.arg_ofReal_of_neg (by norm_num)
  have hroot : √(4 : ℝ) = 2 := by
    rw [show (4 : ℝ) = 2 ^ 2 by norm_num, Real.sqrt_sq zero_le_two]
  refine ⟨?_, ?_, ?_, ?_, ?_, ?_⟩ <;>
    simp [Shape.departure, Shape.arrival, Shape.middle, Shape.span, pane, Shape.vertex,
      Shape.size, mid_euclidean, pushTo_euclidean, pushFrom_euclidean, dist_euclidean,
      spinFromAxis, spinToAxis, Point.angle, apply, hright, hleft, spin, mul_eq] <;>
    norm_num [hroot]

theorem pane_properEdge (x : Array (ℝ × ℝ)) :
    (pane x).ProperEdge .euclidean 0 ∧ (pane x).ProperEdge .euclidean 2 :=
  ⟨⟨⟨2, rfl⟩, segment_euclidean _ _ (by norm_num)⟩,
    ⟨⟨2, rfl⟩, segment_euclidean _ _ (by norm_num)⟩⟩

theorem grid_sheared : (grid.setStretchShear 0 0 3 5).shapes =
    #[pane #[(3, 5), (1, 0), (1 / 3, -15), (1, 0)]] := by
  simp [grid, setStretchShear, modifyShape, pane, shape, Shape.connection]
  norm_num

/-- The motions across the gluing of the bottom of the square to its top. -/
theorem across_pane {t : Tiling ℝ} {x : Array (ℝ × ℝ)} (hs : t.space = .euclidean)
    (ht : t.shapes = #[pane x]) (affine : Bool) :
    t.across 0 0 0 2 affine false = ⟨1, 0, 0, 0, 1, -1, 0, 0, 1⟩ *
      crossing affine false (pane x) 0 1 * ⟨1, 0, 0, 0, 1, -1, 0, 0, 1⟩ ∧
    t.across 0 2 0 0 affine false = ⟨-1, 0, 0, 0, -1, 1, 0, 0, 1⟩ *
      crossing affine false (pane x) 2 1 * ⟨-1, 0, 0, 0, -1, -1, 0, 0, 1⟩ := by
  have hshape : t.shape 0 = pane x := by simp [shape, ht]
  obtain ⟨hd0, ha0, hd2, ha2, hs0, hs2⟩ := pane_motions x
  have hratio : (2 : ℝ) / 2 = 1 := by norm_num
  constructor <;> simp only [across, hshape, hs, hd0, ha0, hd2, ha2, hs0, hs2, hratio]

theorem pane_answers {t : Tiling ℝ} {x : Array (ℝ × ℝ)} (hs : t.space = .euclidean)
    (ht : t.shapes = #[pane x]) {affine : Bool} {p q p' q' : ℝ}
    (hx : crossing affine false (pane x) 0 1 = ⟨1, p, 0, 0, q, 0, 0, 0, 1⟩)
    (hx' : crossing affine false (pane x) 2 1 = ⟨1, p', 0, 0, q', 0, 0, 0, 1⟩) :
    t.adjacencyVia 0 0 (some 2) affine = .ok (t.across 0 0 0 2 affine false) ∧
      t.adjacencyVia 0 2 (some 0) affine = .ok (t.across 0 2 0 0 affine false) := by
  have hshape : t.shape 0 = pane x := by simp [shape, ht]
  have hconn (k : Nat) : t.connection? 0 k = (pane x).connections[k]? := by
    simp [connection?, ht]
  obtain ⟨h02, h20⟩ := across_pane hs ht affine
  have hvertex : (pane x).vertex 0 = ⟨-1, -1, 1⟩ ∧ (pane x).vertex 1 = ⟨1, -1, 1⟩ ∧
      (pane x).vertex 2 = ⟨1, 1, 1⟩ ∧ (pane x).vertex 3 = ⟨-1, 1, 1⟩ := ⟨rfl, rfl, rfl, rfl⟩
  obtain ⟨hv0, hv1, hv2, hv3⟩ := hvertex
  have hsize : (pane x).size = 4 := rfl
  constructor
  · refine adjacencyVia_eq_ok hs (hconn 0) (hshape ▸ ⟨2, rfl⟩) (hshape ▸ ⟨2, rfl⟩) ?_ rfl ?_ ?_
    all_goals simp only [hshape, hsize, hv0, hv1, hv2, hv3, h02, hx]
    · decide
    all_goals norm_num [hv0, hv1, hv2, hv3, mul_eq, apply]
  · refine adjacencyVia_eq_ok hs (hconn 2) (hshape ▸ ⟨2, rfl⟩) (hshape ▸ ⟨2, rfl⟩) ?_ rfl ?_ ?_
    all_goals simp only [hshape, hsize, hv0, hv1, hv2, hv3, h20, hx']
    · decide
    all_goals norm_num [hv0, hv1, hv2, hv3, mul_eq, apply]

theorem grid_there_and_back :
    (∃ m m', grid.adjacencyVia 0 0 (some 2) false = .ok m ∧
      grid.adjacencyVia 0 2 (some 0) false = .ok m' ∧ m * m' = Motion.identity) ∧
    ∃ m m', (grid.setStretchShear 0 0 3 5).adjacencyVia 0 0 (some 2) true = .ok m ∧
      (grid.setStretchShear 0 0 3 5).adjacencyVia 0 2 (some 0) true = .ok m' ∧
        m * m' = Motion.identity := by
  obtain ⟨he, hf⟩ := pane_properEdge #[(1, 0), (1, 0), (1, 0), (1, 0)]
  have hboth := grid.adjacencyVia_there_and_back (a := 0) (b := 0) (e := 0) (f := 2) rfl rfl he hf
  have hplain (x : Array (ℝ × ℝ)) (e : Nat) :
      crossing false false (pane x) e 1 = ⟨1, 0, 0, 0, 1, 0, 0, 0, 1⟩ := by
    rw [← one_eq]
    simp [crossing]
  obtain ⟨hm, hm'⟩ := pane_answers (t := grid) rfl rfl (hplain _ 0) (hplain _ 2)
  have hsheared : crossing true false (pane #[(3, 5), (1, 0), (1 / 3, -15), (1, 0)]) 0 1 =
      ⟨1, 15, 0, 0, 3, 0, 0, 0, 1⟩ := by
    simp [crossing, affinePart, pane, Motion.identity]
    norm_num
  have hsheared' : crossing true false (pane #[(3, 5), (1, 0), (1 / 3, -15), (1, 0)]) 2 1 =
      ⟨1, -5, 0, 0, 1 / 3, 0, 0, 0, 1⟩ := by
    simp [crossing, affinePart, pane, Motion.identity]
    norm_num
  obtain ⟨hn, hn'⟩ := pane_answers rfl grid_sheared hsheared hsheared'
  exact ⟨⟨_, _, hm, hm', hboth.1 _ _ hm hm'⟩, _, _, hn, hn',
    hboth.2 (by decide) (by decide) (by decide) 3 5 (by norm_num) _ _ hn hn'⟩

end Tiling

end

end Mosaic
