import Mosaic.Proofs.Tiling.Greatest

/-!
# Tiling — a catalogue in reverse order

The shapes of a tiling may be listed in the opposite order, when gluings name them by their new
numbers (`Tiling.reversed`).  Stable periods are stable then as well, because walks go through the
same corners; so the greatest ones are the same, and an analysis of valences finds the same in
either order (`analyseValence_reversed`), although it compares gluings and walks around vertices in
the order of the catalogue, and begins anew at the first walk that narrows a period.
-/

namespace Mosaic

variable {α : Type}

/-- The gluing with a shape that is numbered from the other end of `n` shapes. -/
def Connection.renumbered (n : Nat) (c : Connection) : Connection :=
  { c with shape := n - 1 - c.shape }

/-- The shape in a catalogue of `n` shapes that are numbered from the other end. -/
def Shape.renumbered (n : Nat) (s : Shape α) : Shape α :=
  { s with id := n - 1 - s.id, connections := s.connections.map (·.renumbered n) }

/-- The tiling with its shapes in reverse order. -/
def Tiling.reversed (t : Tiling α) : Tiling α :=
  { t with shapes := (t.shapes.map (·.renumbered t.shapes.size)).reverse }

/-- The walk in a catalogue that is numbered from the other end. -/
def VertexWalk.renumbered (n : Nat) (w : VertexWalk α) : VertexWalk α :=
  { w with place := w.place.renumbered n }

@[simp] theorem Connection.shape_renumbered (n : Nat) (c : Connection) :
    (c.renumbered n).shape = n - 1 - c.shape := rfl

@[simp] theorem Connection.edge_renumbered (n : Nat) (c : Connection) :
    (c.renumbered n).edge = c.edge := rfl

@[simp] theorem VertexWalk.place_renumbered (n : Nat) (w : VertexWalk α) :
    (w.renumbered n).place = w.place.renumbered n := rfl

@[simp] theorem VertexWalk.total_renumbered (n : Nat) (w : VertexWalk α) :
    (w.renumbered n).total = w.total := rfl

@[simp] theorem VertexWalk.angles_renumbered (n : Nat) (w : VertexWalk α) :
    (w.renumbered n).angles = w.angles := rfl

/-- Numbers that are reversed twice are as they were. -/
theorem Connection.renumbered_renumbered {n : Nat} {c : Connection} (h : c.shape < n) :
    (c.renumbered n).renumbered n = c := by
  obtain ⟨i, e, m⟩ := c
  simp only [renumbered, Connection.mk.injEq, and_true] at h ⊢
  omega

/-- The gluings of a renumbered shape lead to renumbered shapes. -/
theorem Shape.connection_renumbered (s : Shape α) (n k : Nat) :
    (s.renumbered n).connection k = (s.connection k).renumbered n := by
  rw [connection, connection, renumbered, Array.getElem?_map]
  cases s.connections[k]? <;> rfl

theorem Shape.renumbered_renumbered {s : Shape α} {n : Nat} (hid : s.id < n)
    (hc : ∀ c ∈ s.connections, c.shape < n) : (s.renumbered n).renumbered n = s := by
  have hconnections : (s.connections.map (·.renumbered n)).map (·.renumbered n) =
      s.connections := by
    rw [Array.map_map]
    exact (Array.map_congr_left fun c h => Connection.renumbered_renumbered (hc c h)).trans
      (Array.map_id _)
  have hid' : n - 1 - (n - 1 - s.id) = s.id := by omega
  rw [renumbered, renumbered, hconnections, hid']

/-- What an analysis reads and what it writes make up a shape. -/
theorem Shape.eq_of_bare {r s : Shape α} (hbare : r.bare = s.bare) (hperiod : r.period = s.period)
    (hwritten : r.valences = s.valences ∧ r.vertexPeriods = s.vertexPeriods ∧
      r.vertexAngles = s.vertexAngles) : r = s := by
  cases r
  cases s
  simp_all [bare]

namespace Tiling

variable {t : Tiling α} {i j k : Nat}

theorem size_reversed (t : Tiling α) : t.reversed.shapes.size = t.shapes.size := by
  simp [reversed]

/-- The shapes of the reversed tiling, by their new numbers. -/
theorem shape_reversed (hi : i < t.shapes.size) :
    t.reversed.shape (t.shapes.size - 1 - i) = (t.shape i).renumbered t.shapes.size := by
  have hlt : t.shapes.size - 1 - i < t.shapes.size := by omega
  have hback : t.shapes.size - 1 - (t.shapes.size - 1 - i) = i := by omega
  simp [shape, reversed, hlt, hback, hi]

/-- Every shape of the reversed catalogue is one of the other, numbered from the other end. -/
theorem exists_shape_reversed (hj : j < t.reversed.shapes.size) :
    ∃ i < t.shapes.size, j = t.shapes.size - 1 - i ∧
      t.reversed.shape j = (t.shape i).renumbered t.shapes.size := by
  rw [size_reversed] at hj
  have hlt : t.shapes.size - 1 - j < t.shapes.size := by omega
  have hback : j = t.shapes.size - 1 - (t.shapes.size - 1 - j) := by omega
  refine ⟨t.shapes.size - 1 - j, hlt, hback, ?_⟩
  have hshape := shape_reversed hlt
  rwa [← hback] at hshape

/-- A catalogue is known by its shapes. -/
theorem shapes_eq_reversed {u : Tiling α} (hsize : u.shapes.size = t.shapes.size)
    (h : ∀ i < t.shapes.size,
      u.shape (t.shapes.size - 1 - i) = (t.shape i).renumbered t.shapes.size) :
    u.shapes = t.reversed.shapes := by
  refine Array.ext (hsize.trans (size_reversed t).symm) fun j hj hj' => ?_
  obtain ⟨i, hi, rfl, hreversed⟩ := exists_shape_reversed hj'
  have hsame := h i hi
  rw [← hreversed, shape, shape, Array.getElem?_eq_getElem hj, Array.getElem?_eq_getElem hj']
    at hsame
  exact hsame

/-- A tiling that is reversed twice is as it was. -/
theorem reversed_reversed (ht : t.WellFormed) (hid : ∀ s ∈ t.shapes, s.id < t.shapes.size) :
    t.reversed.reversed = t := by
  have hshapes : t.shapes.map ((·.renumbered t.shapes.size) ∘ (·.renumbered t.shapes.size)) =
      t.shapes :=
    (Array.map_congr_left fun s hs => Shape.renumbered_renumbered (hid s hs)
      (ht.target_shape s hs)).trans (Array.map_id _)
  rw [reversed, size_reversed]
  simp only [reversed, Array.map_reverse, Array.map_map, Array.reverse_reverse, hshapes]

/-! ### Periods -/

theorem periodOf_reverse {ps : Array Nat} {n : Nat} (hps : ps.size = n) (hi : i < n) :
    periodOf ps.reverse (n - 1 - i) = periodOf ps i := by
  subst hps
  have hlt : ps.size - 1 - i < ps.size := by omega
  have hback : ps.size - 1 - (ps.size - 1 - i) = i := by omega
  simp [periodOf, hlt, hback, hi]

/-- The gluing that a gluing is led back by. -/
theorem back_reversed {c : Connection} (hc : c.shape < t.shapes.size) :
    t.reversed.back (c.renumbered t.shapes.size) = (t.back c).renumbered t.shapes.size := by
  rw [back, back, Connection.shape_renumbered, shape_reversed hc, Shape.connection_renumbered]
  rfl

section

variable (ht : t.Partnered)

include ht

theorem Partnered.reversed : t.reversed.Partnered := by
  intro j hj k hk
  obtain ⟨i, hi, rfl, hshape⟩ := exists_shape_reversed hj
  rw [hshape] at hk ⊢
  obtain ⟨hconnection, htarget, hedge⟩ := ht i hi k hk
  rw [Shape.connection_renumbered, size_reversed, Connection.shape_renumbered,
    Connection.edge_renumbered, shape_reversed htarget]
  refine ⟨?_, by omega, hedge⟩
  rwa [Shape.renumbered, Array.size_map]

/-- Gluings respect the same periods in either order. -/
theorem Admissible.reversed {cs : Array Nat} (hcs : cs.size = t.shapes.size)
    (h : t.Admissible (periodOf cs)) : t.reversed.Admissible (periodOf cs.reverse) := by
  constructor
  case pos =>
    intro j hj
    obtain ⟨i, hi, rfl, -⟩ := exists_shape_reversed hj
    rw [periodOf_reverse hcs hi]
    exact h.pos i hi
  case dvd =>
    intro j hj
    obtain ⟨i, hi, rfl, hshape⟩ := exists_shape_reversed hj
    rw [periodOf_reverse hcs hi, hshape]
    exact h.dvd i hi
  case respects =>
    intro j hj
    obtain ⟨i, hi, rfl, hshape⟩ := exists_shape_reversed hj
    have hrespects := h.respects i hi
    constructor
    case periodic =>
      intro k hk k' hk' hmod
      rw [hshape] at hk hk' ⊢
      rw [periodOf_reverse hcs hi] at hmod
      obtain ⟨hsame, hedge⟩ := hrespects.periodic k hk k' hk' hmod
      simp only [Shape.connection_renumbered, Connection.shape_renumbered,
        Connection.edge_renumbered, hsame, true_and]
      rwa [← hsame, periodOf_reverse hcs (ht i hi k hk).2.1]
    case back =>
      intro k hk
      rw [hshape] at hk ⊢
      obtain ⟨hsame, hedge⟩ := hrespects.back k hk
      rw [Shape.connection_renumbered, back_reversed (ht i hi k hk).2.1,
        Connection.shape_renumbered, Connection.edge_renumbered, hsame, periodOf_reverse hcs hi]
      exact ⟨rfl, hedge⟩

end

/-! ### Walks -/

section Walks

variable [Scalar α] {ps : Array Nat} {fuel : Nat} {w v : VertexWalk α} {c : Connection}

/-- Corners have the angles that they had. -/
theorem angleAt_reversed (hc : c.shape < t.shapes.size) :
    t.reversed.angleAt (c.renumbered t.shapes.size) = t.angleAt c := by
  rw [angleAt, angleAt, Connection.shape_renumbered, shape_reversed hc]
  rfl

omit [Scalar α] in
/-- The corner that comes next around a vertex is the one that came next. -/
theorem nextCorner_reversed (hc : c.shape < t.shapes.size) :
    t.reversed.nextCorner (c.renumbered t.shapes.size) =
      (t.nextCorner c).renumbered t.shapes.size := by
  rw [nextCorner, nextCorner, Connection.shape_renumbered, shape_reversed hc,
    Shape.connection_renumbered]
  rfl

omit [Scalar α] in
/-- A walk is back at its start when it was. -/
theorem atStart_reversed (hps : ps.size = t.shapes.size) (hi : i < t.shapes.size)
    (hc : c.shape < t.shapes.size) :
    atStart ps.reverse (t.shapes.size - 1 - i) k (c.renumbered t.shapes.size) =
      atStart ps i k c := by
  have hshape : t.shapes.size - 1 - c.shape = t.shapes.size - 1 - i ↔ c.shape = i := by omega
  rw [atStart, atStart, Connection.shape_renumbered, Connection.edge_renumbered,
    periodOf_reverse hps hc, Bool.eq_iff_iff, Bool.and_eq_true, Bool.and_eq_true, beq_iff_eq,
    beq_iff_eq, hshape]

/-- A step of a walk is the step that was taken. -/
theorem stepWalk_reversed (hps : ps.size = t.shapes.size) (hi : i < t.shapes.size)
    (hc : w.place.shape < t.shapes.size) (a : α) :
    t.reversed.stepWalk ps.reverse (t.shapes.size - 1 - i) k (w.renumbered t.shapes.size) a =
      (t.stepWalk ps i k w a).renumbered t.shapes.size := by
  simp only [stepWalk, VertexWalk.renumbered, nextCorner_reversed hc, atStart_reversed hps hi hc]

variable (ht : t.Partnered) (hangles : ∀ s ∈ t.shapes, s.angles.size = s.size)
  (hps : ps.size = t.shapes.size) (hi : i < t.shapes.size)

include ht hangles hps hi

/-- A walk goes through the same corners in either order. -/
theorem continueWalk_reversed (hcorner : t.HasCorner w.place)
    (hcounting : w.angles.size ≠ 0 → w.since ≠ 0)
    (h : t.continueWalk ps i k fuel w = .ok v) :
    t.reversed.continueWalk ps.reverse (t.shapes.size - 1 - i) k fuel
      (w.renumbered t.shapes.size) = .ok (v.renumbered t.shapes.size) := by
  induction fuel generalizing w with
  | zero =>
      cases h
      rfl
  | succ fuel ih =>
      rw [continueWalk_step ps i k fuel hcounting] at h
      rw [continueWalk_step (w := w.renumbered t.shapes.size) ps.reverse _ k fuel hcounting]
      simp only [stepWalk_reversed hps hi hcorner.1, VertexWalk.place_renumbered,
        VertexWalk.total_renumbered, VertexWalk.angles_renumbered,
        atStart_reversed hps hi hcorner.1, angleAt_reversed hcorner.1]
      split at h
      case isTrue hrest =>
        cases h
        exact if_pos hrest
      case isFalse hrest =>
        rw [if_neg hrest]
        cases hfold : foldAngle (t.angleAt w.place) with
        | none =>
            rw [hfold] at h
            cases h
        | some a =>
            simp only [hfold] at h ⊢
            split at h
            case isTrue hturn =>
              cases h
              exact if_pos hturn
            case isFalse hturn =>
              rw [if_neg hturn]
              exact ih (hcorner.nextCorner ht hangles) (fun _ => t.stepWalk_since ps i k w a) h

/-- Walks around vertices are the ones that there were. -/
theorem walkVertex_reversed (hk : k < (t.shape i).size) (h : t.walkVertex ps i k = .ok v) :
    t.reversed.walkVertex ps.reverse (t.shapes.size - 1 - i) k =
      .ok (v.renumbered t.shapes.size) := by
  obtain ⟨hwalk, htotal, hsize, hshape⟩ := walkVertex_ok.mp h
  refine walkVertex_ok.mpr ⟨?_, htotal, hsize, ?_⟩
  · exact continueWalk_reversed (w := ⟨⟨i, k, false⟩, 0, #[], 0⟩) ht hangles hps hi ⟨hi, hk⟩
      (fun h => absurd rfl h) hwalk
  · rw [VertexWalk.renumbered, Connection.shape_renumbered, hshape]

omit hi in
/-- **Stable periods are stable in either order.** -/
theorem Stable.reversed (h : t.Stable ps) : t.reversed.Stable ps.reverse := by
  refine ⟨h.admissible.reversed ht hps, fun hround j hj k hk => ?_⟩
  obtain ⟨i, hi, rfl, hshape⟩ := exists_shape_reversed hj
  rw [hshape] at hk
  obtain ⟨w, hw, hdvd⟩ := h.walk hround i hi k hk
  refine ⟨_, walkVertex_reversed ht hangles hps hi hk hw, ?_⟩
  rw [periodOf_reverse hps hi]
  exact hdvd

end Walks

/-! ### The least and the greatest valence -/

/-- Folds a list from its first item on. -/
def extreme {β : Type} (f : β → β → β) : List β → Option β
  | [] => none
  | v :: vs => some (vs.foldl f v)

/-- The least and the greatest item do not depend on the order. -/
theorem extreme_perm {β : Type} {f : β → β → β} [Std.Associative f] [Std.Commutative f]
    {l l' : List β} (h : l.Perm l') : extreme f l = extreme f l' := by
  induction h with
  | nil => rfl
  | cons v h _ => exact congrArg some h.foldl_op_eq
  | swap v v' l => exact congrArg (fun a => some (l.foldl f a)) (Std.Commutative.comm v' v)
  | trans _ _ ih ih' => exact ih.trans ih'

/-- The smaller of two valences. -/
def least (a b : Valence) : Valence := if a.le b then a else b

/-- The greater of two valences. -/
def greatest (a b : Valence) : Valence := if a.le b then b else a

instance : Std.Associative least := ⟨fun a b c => by
  cases a <;> cases b <;> cases c <;> simp only [least, Valence.le, decide_eq_true_eq] <;> grind⟩

instance : Std.Commutative least := ⟨fun a b => by
  cases a <;> cases b <;> simp only [least, Valence.le, decide_eq_true_eq] <;> grind⟩

instance : Std.Associative greatest := ⟨fun a b c => by
  cases a <;> cases b <;> cases c <;> simp only [greatest, Valence.le, decide_eq_true_eq] <;> grind⟩

instance : Std.Commutative greatest := ⟨fun a b => by
  cases a <;> cases b <;> simp only [greatest, Valence.le, decide_eq_true_eq] <;> grind⟩

/-- The extremes of a tiling are those of all its valences. -/
theorem withExtremes_eq [Scalar α] (t : Tiling α) : t.withExtremes =
    { t with minValence := extreme least t.allValences
             maxValence := extreme greatest t.allValences } := by
  unfold withExtremes
  cases t.allValences <;> rfl

/-! ### What an analysis writes -/

section Written

variable [Scalar α] {u u' : Tiling α} {ps : Array Nat} {s s' : Shape α}

/-- Walks around the vertices of a shape write the same into it in either order. -/
theorem Recorded.reversed (ht : t.Partnered) (hangles : ∀ s ∈ t.shapes, s.angles.size = s.size)
    (hps : ps.size = t.shapes.size) (hi : i < t.shapes.size) (h : t.Recorded ps i s)
    (h' : t.reversed.Recorded ps.reverse (t.shapes.size - 1 - i) s') :
    s'.valences = s.valences ∧ s'.vertexPeriods = s.vertexPeriods ∧
      s'.vertexAngles = s.vertexAngles := by
  obtain ⟨walks, hs, hsize, hwalks⟩ := h
  obtain ⟨walks', hs', hsize', hwalks'⟩ := h'
  rw [shape_reversed hi] at hsize'
  have hsize'' : walks'.size = (t.shape i).size := hsize'
  have hsame : walks' = walks.map (·.renumbered t.shapes.size) := by
    refine Array.ext (by rw [Array.size_map, hsize, hsize'']) fun k hk' hk => ?_
    rw [Array.size_map] at hk
    have hw := (hwalks k _ (Array.getElem?_eq_getElem hk)).1
    have hw' := (hwalks' k _ (Array.getElem?_eq_getElem hk')).1
    have hrenumbered := walkVertex_reversed ht hangles hps hi (hsize ▸ hk) hw
    rw [Array.getElem_map]
    exact Except.ok.inj (hw'.symm.trans hrenumbered)
  rw [← hs, ← hs', hsame]
  simp [Shape.withWalks, Function.comp_def, VertexWalk.renumbered]

omit [Scalar α] in
/-- Cycle lengths are written beside what walks have found. -/
theorem shape_withPeriods_keeps (t : Tiling α) (ps : Array Nat) (i : Nat) :
    ((t.withPeriods ps).shape i).valences = (t.shape i).valences ∧
    ((t.withPeriods ps).shape i).vertexPeriods = (t.shape i).vertexPeriods ∧
    ((t.withPeriods ps).shape i).vertexAngles = (t.shape i).vertexAngles := by
  rw [shape, shape, withPeriods, Array.getElem?_mapIdx]
  cases t.shapes[i]? <;> exact ⟨rfl, rfl, rfl⟩

/-- An analysis of an affine tiling or a star writes only periods. -/
theorem analyseValence_flat (hflat : (t.geometry.isAffine || t.isStar) = true)
    (h : analyseValence t = .ok () u) :
    (∀ i, (u.shape i).valences = (t.shape i).valences ∧
      (u.shape i).vertexPeriods = (t.shape i).vertexPeriods ∧
      (u.shape i).vertexAngles = (t.shape i).vertexAngles) ∧
    u.minValence = t.minValence ∧ u.maxValence = t.maxValence := by
  obtain ⟨fuel, hfuel⟩ : ∃ fuel, t.refineBound = fuel + 1 :=
    ⟨t.refineBound - 1, by have := totalOf_strides_le t; omega⟩
  rw [analyseValence_eq, hfuel, settleValence_succ] at h
  cases hrefine : t.refinePeriods t.strides with
  | error e qs =>
      rw [hrefine] at h
      cases h
  | ok _ qs =>
      simp only [hrefine, hflat, if_true, closing] at h
      cases h
      refine ⟨fun i => ?_, rfl, rfl⟩
      obtain ⟨hvalences, hperiods, hangles⟩ :=
        shape_withPeriods_keeps (t.withPeriods t.strides) qs i
      obtain ⟨hvalences', hperiods', hangles'⟩ := shape_withPeriods_keeps t t.strides i
      exact ⟨hvalences.trans hvalences', hperiods.trans hperiods', hangles.trans hangles'⟩

/-- Unless it is affine or a star, the tiling gets the least and the greatest of its valences. -/
theorem analyseValence_extremes (hround : (t.geometry.isAffine || t.isStar) = false)
    (h : analyseValence t = .ok () u) : u.minValence = extreme least u.allValences ∧
      u.maxValence = extreme greatest u.allValences := by
  obtain ⟨v, -, rfl⟩ := analyseValence_ok h
  rw [hround, if_neg Bool.false_ne_true, withExtremes_eq]
  exact ⟨rfl, rfl⟩

end Written

section Analysis

theorem periodOf_periods (hi : i < t.shapes.size) : periodOf t.periods i = (t.shape i).period := by
  simp [periodOf, periods, shape, hi]

theorem angles_reversed (hangles : ∀ s ∈ t.shapes, s.angles.size = s.size) :
    ∀ s ∈ t.reversed.shapes, s.angles.size = s.size := by
  simpa [reversed, Shape.renumbered, Shape.size] using hangles

theorem pos_reversed (hpos : ∀ i < t.shapes.size, 0 < (t.shape i).stride) :
    ∀ i < t.reversed.shapes.size, 0 < (t.reversed.shape i).stride := by
  intro j hj
  obtain ⟨i, hi, -, hshape⟩ := exists_shape_reversed hj
  rw [hshape]
  exact hpos i hi

variable [Scalar α] [PlainSums α] {u u' : Tiling α} (ht : t.WellFormed)
  (hid : ∀ s ∈ t.shapes, s.id < t.shapes.size)
  (hangles : ∀ s ∈ t.shapes, s.angles.size = s.size)
  (hpos : ∀ i < t.shapes.size, 0 < (t.shape i).stride)
  (h : analyseValence t = .ok () u) (h' : analyseValence t.reversed = .ok () u')

include ht hid hangles hpos h h'

/-- Either order leads to the same periods. -/
theorem periods_reversed : u'.periods = u.periods.reverse := by
  have hsize : u.periods.size = t.shapes.size :=
    (size_periods u).trans (analyseValence_annotates h).size_eq
  have hsize' : u'.periods.size = t.reversed.shapes.size :=
    (size_periods u').trans (analyseValence_annotates h').size_eq
  obtain ⟨hstable, hgreatest⟩ := analyseValence_greatest ht.partnered hangles hpos h
  obtain ⟨hstable', hgreatest'⟩ :=
    analyseValence_greatest ht.partnered.reversed (angles_reversed hangles) (pos_reversed hpos) h'
  have hback := hstable'.reversed ht.partnered.reversed (angles_reversed hangles) hsize'
  rw [reversed_reversed ht hid] at hback
  rw [size_reversed] at hsize'
  refine Array.ext (by rw [Array.size_reverse, hsize, hsize']) fun j hj hj' => ?_
  have hlt : t.shapes.size - 1 - j < t.shapes.size := by omega
  have hj'' : j = t.shapes.size - 1 - (t.shapes.size - 1 - j) := by omega
  have hdvd := hgreatest _ hback (t.shapes.size - 1 - j)
  rw [periodOf_reverse hsize' (hsize' ▸ hj), ← periodOf_reverse hsize hlt, ← hj''] at hdvd
  have heq := Nat.dvd_antisymm hdvd (hgreatest' _ (hstable.reversed ht.partnered hangles hsize) j)
  rw [periodOf, periodOf, Array.getElem?_eq_getElem hj, Array.getElem?_eq_getElem hj'] at heq
  exact heq

/-- The shapes that have been analysed in either order differ in their numbers only. -/
theorem shape_analysed_reversed (hi : i < t.shapes.size) :
    u'.shape (t.shapes.size - 1 - i) = (u.shape i).renumbered t.shapes.size := by
  have hannotates := analyseValence_annotates h
  have hannotates' := analyseValence_annotates h'
  have hperiods := periods_reversed ht hid hangles hpos h h'
  have hsize : u.periods.size = t.shapes.size := (size_periods u).trans hannotates.size_eq
  have hlt : t.shapes.size - 1 - i < u'.shapes.size := by
    rw [hannotates'.size_eq, size_reversed]
    omega
  refine Shape.eq_of_bare ?_ ?_ ?_
  · have hbare := congrArg (Shape.renumbered t.shapes.size) (hannotates.bare_shape i)
    have hbare' := hannotates'.bare_shape (t.shapes.size - 1 - i)
    rw [shape_reversed hi] at hbare'
    exact hbare'.trans hbare.symm
  · rw [← periodOf_periods hlt, hperiods, periodOf_reverse hsize hi,
      periodOf_periods (hannotates.size_eq.symm ▸ hi)]
    rfl
  · cases hflat : (t.geometry.isAffine || t.isStar) with
    | true =>
        obtain ⟨hv, hp, ha⟩ := (analyseValence_flat hflat h).1 i
        obtain ⟨hv', hp', ha'⟩ :=
          (analyseValence_flat (t := t.reversed) hflat h').1 (t.shapes.size - 1 - i)
        rw [shape_reversed hi] at hv' hp' ha'
        exact ⟨hv'.trans hv.symm, hp'.trans hp.symm, ha'.trans ha.symm⟩
    | false =>
        obtain ⟨ps, hsettled⟩ := analyseValence_settled_periods ht.partnered hpos h
        obtain ⟨ps', hsettled'⟩ :=
          analyseValence_settled_periods ht.partnered.reversed (pos_reversed hpos) h'
        have hlt' : t.shapes.size - 1 - i < t.reversed.shapes.size := by
          rw [size_reversed]
          omega
        have hrecorded' := hsettled'.recorded hflat _ hlt'
        rw [hperiods] at hrecorded'
        have hwritten :=
          (hsettled.recorded hflat i hi).reversed ht.partnered hangles hsize hi hrecorded'
        exact hwritten

/-- The analysis of the reversed tiling finds the reversed shapes. -/
theorem shapes_analysed_reversed : u'.shapes = u.reversed.shapes := by
  have hsize := (analyseValence_annotates h).size_eq
  have hsize' := (analyseValence_annotates h').size_eq
  rw [size_reversed] at hsize'
  refine shapes_eq_reversed (hsize'.trans hsize.symm) fun i hi => ?_
  rw [hsize] at hi ⊢
  exact shape_analysed_reversed ht hid hangles hpos h h' hi

/-- **An analysis of valences does not depend on the order of the catalogue.**  When it succeeds in
either order, the shapes have the same periods, valences and angles around their vertices, and the
least and the greatest valence are the same. -/
theorem analyseValence_reversed : u'.shapes = u.reversed.shapes ∧
    u'.minValence = u.minValence ∧ u'.maxValence = u.maxValence := by
  have hshapes := shapes_analysed_reversed ht hid hangles hpos h h'
  refine ⟨hshapes, ?_⟩
  cases hflat : (t.geometry.isAffine || t.isStar) with
  | true =>
      obtain ⟨-, hmin, hmax⟩ := analyseValence_flat hflat h
      obtain ⟨-, hmin', hmax'⟩ := analyseValence_flat (t := t.reversed) hflat h'
      exact ⟨hmin'.trans hmin.symm, hmax'.trans hmax.symm⟩
  | false =>
      have hperm : u'.allValences.Perm u.allValences := by
        rw [allValences, allValences, hshapes, reversed, Array.toList_reverse, Array.toList_map]
        refine ((List.reverse_perm _).flatMap_right _).trans (.of_eq ?_)
        rw [List.flatMap_map]
        rfl
      obtain ⟨hmin, hmax⟩ := analyseValence_extremes hflat h
      obtain ⟨hmin', hmax'⟩ := analyseValence_extremes (t := t.reversed) hflat h'
      rw [hmin, hmax, hmin', hmax']
      exact ⟨extreme_perm hperm, extreme_perm hperm⟩

end Analysis

end Tiling

end Mosaic
