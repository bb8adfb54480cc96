import Mosaic.Proofs.Tiling.Folding

/-!
# Tiling — analysing a quotient

When a folding keeps the angles as well, a walk around a vertex goes through the images of the
corners that a walk around a vertex before the folding goes through (`Folding.Accompanies`).  It may
only stop earlier, at a copy of its start of which the other walk does not know that it is one.  So
no walk fails where the other one does not, nor does it narrow a period below what both have in
common, and the analysis of the quotient succeeds when the other one does
(`Folding.Onto.analyseValence_total`).
-/

namespace Mosaic

variable {α : Type}

namespace Tiling

/-- Whether an edge is a copy of edge `k` of shape `i`. -/
def atStart (ps : Array Nat) (i k : Nat) (c : Connection) : Bool :=
  c.shape == i && congruent c.edge k (periodOf ps c.shape)

theorem atStart_iff {ps : Array Nat} {i k : Nat} {c : Connection} (hp : 0 < periodOf ps i) :
    atStart ps i k c = true ↔ c.shape = i ∧ (c.edge : Int) ≡ k [ZMOD periodOf ps i] := by
  rw [atStart, Bool.and_eq_true, beq_iff_eq]
  refine and_congr_right fun hshape => ?_
  subst hshape
  rw [Int.modEq_comm, Int.modEq_iff_dvd]
  exact ⟨dvd_of_congruent hp, fun h => by
    by_contra hne
    exact not_dvd_of_congruent (Bool.eq_false_iff.mpr hne) h⟩

/-- The angle at the end of an edge. -/
def angleAt [Scalar α] (t : Tiling α) (c : Connection) : α :=
  ((t.shape c.shape).angles[c.edge]?).getD 0

/-- The next corner around a vertex. -/
def nextCorner (t : Tiling α) (c : Connection) : Connection :=
  (t.shape c.shape).connection ((c.edge + 1) % (t.shape c.shape).angles.size)

/-- In a uniform tiling the next corner is there. -/
theorem Uniform.nextCorner {t : Tiling α} (ht : t.Uniform) {c : Connection}
    (hi : c.shape < t.shapes.size) :
    t.nextCorner c = (t.shape c.shape).connection ((c.edge + 1) % (t.shape c.shape).size) ∧
    (t.nextCorner c).shape < t.shapes.size ∧
    (t.nextCorner c).edge < (t.shape (t.nextCorner c).shape).size := by
  rw [Tiling.nextCorner, ht.angles _ hi]
  exact ⟨rfl, (ht.partnered _ hi _ (Nat.mod_lt _ (ht.size_pos hi))).2⟩

variable [Scalar α] {t : Tiling α}

/-- The walk around vertex `k` of shape `i` after one more corner, at which it has met the angle
`a`. -/
def stepWalk (t : Tiling α) (ps : Array Nat) (i k : Nat) (w : VertexWalk α) (a : α) :
    VertexWalk α :=
  ⟨t.nextCorner w.place, w.total + a, w.angles.push a,
    (if atStart ps i k w.place then 0 else w.since) + 1⟩

section

variable (ps : Array Nat) (i k : Nat) (w : VertexWalk α) (a : α)

@[simp] theorem stepWalk_total : (t.stepWalk ps i k w a).total = w.total + a := rfl

@[simp] theorem stepWalk_size : (t.stepWalk ps i k w a).angles.size = w.angles.size + 1 :=
  Array.size_push _

/-- A walk counts corners when it has met one. -/
theorem stepWalk_since : (t.stepWalk ps i k w a).since ≠ 0 := Nat.succ_ne_zero _

end

/-- One more corner.  After the first one a walk counts corners from the last copy of its start on,
so it is at a copy when it has counted none. -/
theorem continueWalk_step (ps : Array Nat) (i k fuel : Nat) {w : VertexWalk α}
    (hw : w.angles.size ≠ 0 → w.since ≠ 0) : t.continueWalk ps i k (fuel + 1) w =
      if w.angles.size ≠ 0 ∧ atStart ps i k w.place ∧ w.total == 0 then
        .ok { w with since := 0 }
      else match foldAngle (t.angleAt w.place) with
        | none => .error (.endlessAngle i k)
        | some a =>
          if Scalar.tau - 1e-6 ≤ (t.stepWalk ps i k w a).total then .ok (t.stepWalk ps i k w a)
          else t.continueWalk ps i k fuel (t.stepWalk ps i k w a) := by
  rw [continueWalk]
  have hat : (w.place.shape == i && congruent w.place.edge k ((ps[w.place.shape]?).getD 0)) =
    atStart ps i k w.place := rfl
  simp only [hat]
  by_cases hsize : w.angles.size = 0
  · simp only [hsize, ne_eq, not_true_eq_false, false_and, if_false]
    rfl
  · cases hstart : atStart ps i k w.place with
    | true =>
        simp only [if_true, true_and, stepWalk, hstart]
        rfl
    | false =>
        simp only [Bool.false_eq_true, if_false, false_and, and_false, hw hsize, stepWalk, hstart]
        rfl

theorem walkVertex_ok {ps : Array Nat} {i k : Nat} {v : VertexWalk α} :
    t.walkVertex ps i k = .ok v ↔
      t.continueWalk ps i k (maxWalk + 1) ⟨⟨i, k, false⟩, 0, #[], 0⟩ = .ok v ∧
      ¬ Scalar.tau + 1e-6 < v.total ∧ v.angles.size ≤ maxWalk ∧ v.place.shape = i := by
  rw [walkVertex]
  cases t.continueWalk ps i k (maxWalk + 1) ⟨⟨i, k, false⟩, 0, #[], 0⟩ with
  | error e =>
      refine ⟨fun h => ?_, fun h => ?_⟩
      · cases h
      · cases h.1
  | ok w =>
      simp only [bind, Except.bind, throw, throwThe, MonadExceptOf.throw, pure, Except.pure,
        Except.ok.injEq]
      by_cases htotal : Scalar.tau + 1e-6 < w.total ∨ maxWalk < w.angles.size
      · rw [if_pos htotal]
        refine ⟨fun h => (by cases h), ?_⟩
        rintro ⟨rfl, htotal', hsize, -⟩
        exact absurd htotal (not_or.mpr ⟨htotal', Nat.not_lt.mpr hsize⟩)
      · rw [if_neg htotal]
        obtain ⟨htotal', hsize⟩ := not_or.mp htotal
        by_cases hshape : w.place.shape = i
        · rw [if_neg (not_not.mpr hshape)]
          refine ⟨fun h => ?_, fun h => congrArg Except.ok h.1⟩
          cases h
          exact ⟨rfl, htotal', Nat.not_lt.mp hsize, hshape⟩
        · rw [if_pos hshape]
          refine ⟨fun h => (by cases h), ?_⟩
          rintro ⟨rfl, -, -, hshape'⟩
          exact absurd hshape' hshape

end Tiling

namespace Folding

variable (f : Folding) (t t' : Tiling α)

/-- A walk on the image has come to the image of the corner that the other walk has come to, and has
met the same angles. -/
structure Accompanies (w w' : VertexWalk α) : Prop where
  place : f.Sends (fun i => (t'.shape i).period) w.place w'.place
  shape_lt : w.place.shape < t.shapes.size
  edge_lt : w.place.edge < (t.shape w.place.shape).size
  edge_lt' : w'.place.edge < (t.shape w.place.shape).size
  total : w'.total = w.total
  angles : w'.angles = w.angles

variable {f t t'} [Scalar α]

section

variable (ht : t.Uniform) (ht' : t'.Uniform) (hf : f.Onto t t')
  (hr : f.Respects t t') (ha : f.KeepsAngles t t') {w w' v : VertexWalk α}

include ht ht' hf hr

/-- The next corner is taken to the next corner of the image. -/
theorem Accompanies.next (h : f.Accompanies t t' w w') (a : α) (n n' : Nat) :
    f.Accompanies t t' ⟨t.nextCorner w.place, w.total + a, w.angles.push a, n⟩
      ⟨t'.nextCorner w'.place, w'.total + a, w'.angles.push a, n'⟩ := by
  have hi := h.shape_lt
  have hi' := hf.shape_lt _ hi
  have hsize := hf.size _ hi
  obtain ⟨hnext, hshape, hlt⟩ := ht.nextCorner hi
  obtain ⟨hnext', -, hlt'⟩ := ht'.nextCorner (h.place.shape ▸ hi')
  have hmod (j : Nat) : ((j % (t.shape w.place.shape).size : Nat) : Int) ≡ j
      [ZMOD (t'.shape (f.shape w.place.shape)).period] :=
    ht'.modEq hi' (hsize ▸ Int.natCast_modEq_iff.mpr (Nat.mod_modEq _ _))
  have hsent : f.Sends (fun i => (t'.shape i).period) (t.nextCorner w.place)
      (t'.nextCorner w'.place) := by
    have hedge := h.place.edge
    rw [h.place.shape, spin] at hedge
    have hpos := ht.size_pos hi
    rw [hnext, hnext', h.place.shape, hsize]
    refine hf.sends hr hi (Nat.mod_lt _ hpos) (Nat.mod_lt _ hpos) ((hmod _).trans ?_)
    refine Int.ModEq.trans ?_ ((hmod (w.place.edge + 1)).symm.add_right _)
    rw [Nat.cast_succ, Nat.cast_succ, add_right_comm]
    exact hedge.add_right 1
  refine ⟨hsent, hshape, hlt, ?_, by rw [h.total], by rw [h.angles]⟩
  rw [hsent.shape, hf.size _ hshape] at hlt'
  exact hlt'

omit ht ht' hf hr in
include ha in
/-- The angles of the two corners are the same. -/
theorem Accompanies.angle (h : f.Accompanies t t' w w') :
    t'.angleAt w'.place = t.angleAt w.place := by
  have hedge := h.place.edge
  rw [h.place.shape] at hedge
  rw [Tiling.angleAt, Tiling.angleAt, h.place.shape,
    ha _ h.shape_lt _ h.edge_lt _ h.edge_lt' hedge]

include ha

/-- **A walk is accompanied to its end**, or the walk on the image has stopped before at a copy of
its start. -/
theorem continueWalk_accompanied {ps qs : Array Nat} {i k fuel : Nat}
    (hideal : (v.total == 0) = true → ∀ c c', f.Sends (fun i => (t'.shape i).period) c c' →
      Tiling.atStart qs i k c = true → Tiling.atStart ps (f.shape i) k c' = true)
    (h : f.Accompanies t t' w w') (hw : w.angles.size ≠ 0 → w.since ≠ 0)
    (hw' : w'.angles.size ≠ 0 → w'.since ≠ 0) (hfuel : w.angles.size + fuel ≤ maxWalk + 1)
    (hok : t.continueWalk qs i k fuel w = .ok v) :
    ∃ v', t'.continueWalk ps (f.shape i) k fuel w' = .ok v' ∧ (f.Accompanies t t' v v' ∨
      Tiling.atStart ps (f.shape i) k v'.place = true ∧ (v'.total == 0) = true ∧
        v'.angles.size ≤ maxWalk) := by
  induction fuel generalizing w w' with
  | zero =>
      cases hok
      exact ⟨w', rfl, Or.inl h⟩
  | succ fuel ih =>
      rw [t.continueWalk_step qs i k fuel hw] at hok
      rw [t'.continueWalk_step ps (f.shape i) k fuel hw']
      split
      case isTrue hstop' =>
        refine ⟨_, rfl, Or.inr ⟨hstop'.2.1, hstop'.2.2, ?_⟩⟩
        rw [h.angles]
        omega
      case isFalse hstop' =>
        split at hok
        case isTrue hstop =>
          cases hok
          refine absurd ⟨?_, hideal hstop.2.2 _ _ h.place hstop.2.1, ?_⟩ hstop'
          · rw [h.angles]
            exact hstop.1
          · rw [h.total]
            exact hstop.2.2
        case isFalse =>
          rw [h.angle ha]
          cases hfold : foldAngle (t.angleAt w.place) with
          | none =>
              rw [hfold] at hok
              cases hok
          | some a =>
              rw [hfold] at hok
              have hnext : f.Accompanies t t' (t.stepWalk qs i k w a)
                  (t'.stepWalk ps (f.shape i) k w' a) := h.next ht ht' hf hr a _ _
              simp only [hnext.total] at hok ⊢
              split at hok
              · rename_i hturn
                cases hok
                rw [if_pos hturn]
                exact ⟨_, rfl, Or.inl hnext⟩
              · rename_i hturn
                rw [if_neg hturn]
                exact ih hnext (fun _ => t.stepWalk_since qs i k w a)
                  (fun _ => t'.stepWalk_since ps (f.shape i) k w' a)
                  (by rw [Tiling.stepWalk_size]; omega) hok

/-- The walk around a vertex of a shape that is not turned, and the walk around the same vertex of
its image. -/
theorem Onto.walkVertex {ps qs : Array Nat} {i k : Nat} (hi : i < t.shapes.size)
    (hk : k < (t.shape i).size) (hturn : f.turn i = 0) (hq : 0 < periodOf qs i)
    (hp : 0 < periodOf ps (f.shape i))
    (hps : periodOf ps (f.shape i) ∣ (t'.shape (f.shape i)).period)
    (hcommon : f.common t t' (periodOf qs) (f.shape i) ∣ periodOf ps (f.shape i))
    (hzero : ∀ x : α, (x == 0) = true → ¬ Scalar.tau + 1e-6 < x)
    (hideal : (v.total == 0) = true → (t'.shape (f.shape i)).period ∣ periodOf qs i)
    (hok : t.walkVertex qs i k = .ok v) (hv : (periodOf qs i : Int) ∣ v.place.edge - k) :
    ∃ v', t'.walkVertex ps (f.shape i) k = .ok v' ∧
      (f.common t t' (periodOf qs) (f.shape i) : Int) ∣ v'.place.edge - k := by
  obtain ⟨hwalk, htotal, hsize, hshape⟩ := Tiling.walkVertex_ok.mp hok
  have hstart : f.Accompanies t t' ⟨⟨i, k, false⟩, 0, #[], 0⟩
      ⟨⟨f.shape i, k, false⟩, 0, #[], 0⟩ :=
    ⟨⟨rfl, by simp [spin, hturn]⟩, hi, hk, hk, rfl, rfl⟩
  -- A walk that covers no angle stops at a copy of its start, and so does the other one.
  have hstop : (v.total == 0) = true → ∀ c c', f.Sends (fun i => (t'.shape i).period) c c' →
      Tiling.atStart qs i k c = true → Tiling.atStart ps (f.shape i) k c' = true := by
    intro hzero' c c' hc hat
    obtain ⟨rfl, hedge⟩ := (Tiling.atStart_iff hq).mp hat
    have hsent := hc.edge
    rw [hc.shape, spin, hturn, add_zero] at hsent
    have hcopy := hsent.trans (hedge.of_dvd (Int.natCast_dvd_natCast.mpr (hideal hzero')))
    exact (Tiling.atStart_iff hp).mpr
      ⟨hc.shape, hcopy.of_dvd (Int.natCast_dvd_natCast.mpr hps)⟩
  obtain ⟨v', hwalk', hend⟩ := continueWalk_accompanied ht ht' hf hr ha hstop hstart (by simp)
    (by simp) (by simp) hwalk
  refine ⟨v', Tiling.walkVertex_ok.mpr ⟨hwalk', ?_⟩, ?_⟩
  · rcases hend with hend | ⟨hat, hzero', hlast⟩
    · rw [hend.total, hend.angles, hend.place.shape, hshape]
      exact ⟨htotal, hsize, rfl⟩
    · exact ⟨hzero _ hzero', hlast, ((Tiling.atStart_iff hp).mp hat).1⟩
  · rcases hend with hend | ⟨hat, -, -⟩
    · have hsent := hend.place.edge
      rw [hend.place.shape, hshape, spin, hturn, add_zero] at hsent
      have hcopy : (k : Int) ≡ v.place.edge [ZMOD periodOf qs i] := Int.modEq_iff_dvd.mpr hv
      exact Int.modEq_iff_dvd.mp ((hcopy.of_dvd (Int.natCast_dvd_natCast.mpr
        (common_dvd _ hi))).trans (hsent.symm.of_dvd (Int.natCast_dvd_natCast.mpr
          (common_dvd_period _ _))))
    · have hcopy := ((Tiling.atStart_iff hp).mp hat).2
      exact Int.modEq_iff_dvd.mp (hcopy.symm.of_dvd (Int.natCast_dvd_natCast.mpr hcommon))

/-! ### The analysis of the quotient -/

variable {u : Tiling α} {qs : Array Nat} (hu : t.Analysed u qs)
  (hideal : ∀ i < t.shapes.size, .unbounded ∈ (u.shape i).valences →
    (t'.shape (f.shape i)).period ∣ (u.shape i).period)
  (hflat : (t'.geometry.isAffine || t'.isStar) = (t.geometry.isAffine || t.isStar))
  (hzero : ∀ x : α, (x == 0) = true → ¬ Scalar.tau + 1e-6 < x)

include hu hideal hflat hzero

/-- No walk around a vertex of the image fails, or ends where the common periods tell it from its
start. -/
theorem Onto.walks {ps : Array Nat} (hps : Narrower ps t'.strides)
    (hcommon : ∀ i, f.common t t' (periodOf qs) i ∣ periodOf ps i)
    (hround : (t'.geometry.isAffine || t'.isStar) = false) {i k : Nat} (hi : i < t'.shapes.size)
    (hk : k < (t'.shape i).size) :
    ∃ v, t'.walkVertex ps i k = .ok v ∧
      (f.common t t' (periodOf qs) i : Int) ∣ v.place.edge - k := by
  obtain ⟨i₀, hi₀, rfl, hturn, -⟩ := hf.model i hi
  rw [hf.size i₀ hi₀] at hk
  obtain ⟨w, hw, hdvd, hunbounded⟩ := hu.walk (hflat ▸ hround) i₀ hi₀ k hk
  refine hf.walkVertex ht ht' hr ha hi₀ hk hturn (hu.admissible.pos i₀ hi₀) (hps.pos _ ?_) ?_
    (hcommon _) hzero (fun h => ?_) hw hdvd
  · rwa [hps.size, Tiling.strides, Array.size_map]
  · rw [← ht'.stride _ hi, ← Tiling.periodOf_strides hi]
    exact hps.dvd _
  · exact hu.period i₀ hi₀ ▸ hideal i₀ hi₀ (hunbounded h)

variable (hperiods : t.Admissible fun i => (t.shape i).period)

include hperiods

theorem Onto.settleValence_total {fuel : Nat} {ps : Array Nat} {s : Tiling α}
    (hps : Narrower ps t'.strides)
    (hcommon : ∀ i, f.common t t' (periodOf qs) i ∣ periodOf ps i) :
    ∃ s', t'.settleValence fuel ps s = .ok () s' := by
  induction fuel generalizing ps s with
  | zero => exact ⟨s, rfl⟩
  | succ fuel ih =>
      have hadmissible := hf.admissible_common hr ht ht' hperiods hu.admissible
      have hrefined := Tiling.refinePeriods_narrower (fun i hi => ht'.stride_pos hi) hps
      rw [Tiling.settleValence_succ]
      cases hrefine : t'.refinePeriods ps with
      | error e rs =>
          rw [hrefine] at hrefined
          cases hrefined with
          | error hnone => exact absurd hcommon (hnone _ hadmissible)
      | ok _ rs =>
          rw [hrefine] at hrefined
          cases hrefined with
          | ok hn habove _ =>
              have hrs := hn.trans hps
              have hcommon' := habove _ hadmissible hcommon
              dsimp only
              split
              · exact ⟨_, rfl⟩
              · rename_i hround
                cases hwalks : t'.walkShapes rs (List.range t'.shapes.size)
                    { s.withPeriods rs with haveValence := true } with
                | error e s' =>
                    obtain ⟨i, k, hto, herror⟩ := Tiling.walkShapes_refused hwalks
                    obtain ⟨v, hv, -⟩ := hf.walks ht ht' hr ha hu hideal hflat hzero hrs hcommon'
                      (Bool.eq_false_iff.mpr hround) hto.shape_lt hto.vertex_lt
                    rw [hv] at herror
                    cases herror
                | ok x s' =>
                    cases x with
                    | none => exact ⟨_, rfl⟩
                    | some x =>
                        obtain ⟨i, d⟩ := x
                        obtain ⟨k, v, hto, hv, -, rfl⟩ := Tiling.walkShapes_narrowed hwalks
                        obtain ⟨v', hv', hdvd⟩ := hf.walks ht ht' hr ha hu hideal hflat hzero hrs
                          hcommon' (Bool.eq_false_iff.mpr hround) hto.shape_lt hto.vertex_lt
                        cases hv.symm.trans hv'
                        exact ih ((narrower_modify hrs.pos i _).trans hrs)
                          (dvd_periodOf_modify hcommon' hdvd)

/-- **The analysis of a quotient succeeds** when that of the tiling has succeeded. -/
theorem Onto.analyseValence_total : ∃ u', Tiling.analyseValence t' = .ok () u' := by
  have hcommon (i : Nat) : f.common t t' (periodOf qs) i ∣ periodOf t'.strides i :=
    (hf.admissible_common hr ht ht' hperiods hu.admissible).dvd_strides i
  obtain ⟨u', hsettle⟩ : ∃ u', t'.settleValence t'.refineBound t'.strides
      (t'.withPeriods t'.strides) = .ok () u' :=
    hf.settleValence_total ht ht' hr ha hu hideal hflat hzero hperiods
      (Tiling.strides_narrower fun i hi => ht'.stride_pos hi) hcommon
  rw [Tiling.analyseValence_eq, hsettle]
  exact ⟨_, rfl⟩

end

/-! ### What an analysis has written -/

variable {u u' : Tiling α} {ps : Array Nat}

/-- **The analysis of the image is a quotient of that of the tiling.** -/
theorem Onto.isQuotient (hf : f.Onto t t') (hr : f.Respects t t') (ht : t.Uniform)
    (ht' : t'.Uniform) (hu : t.Annotates u) (hu' : t'.Annotates u') (hps : t'.Analysed u' ps) :
    f.IsQuotient u u' := by
  have hperiod {i : Nat} (hi : i < t'.shapes.size) : (u'.shape i).period ∣ (t'.shape i).period := by
    rw [hps.period i hi, ← ht'.stride i hi, ← Tiling.periodOf_strides hi]
    exact hps.narrower.dvd i
  refine ⟨fun i hi => ?_, fun k hk => ?_, fun i hi => ?_, fun i hi j hj => ?_⟩
  · exact hu'.size_eq ▸ hf.shape_lt i (hu.size_eq ▸ hi)
  · obtain ⟨i, hi, hshape, -⟩ := hf.model k (hu'.size_eq ▸ hk)
    exact ⟨i, hu.size_eq ▸ hi, hshape⟩
  · rw [hu'.size_shape, hu.size_shape, hf.size i (hu.size_eq ▸ hi)]
  · rw [hu.size_eq] at hi
    rw [hu.size_shape] at hj
    have hpos := ht.size_pos hi
    have hmod : (cyclicIndex (f.spin i j) (t.shape i).size : Int) ≡ f.spin i j
        [ZMOD (t'.shape (f.shape i)).period] :=
      ht'.modEq (hf.shape_lt i hi) ((hf.size i hi).symm ▸ cyclicIndex_modEq (f.spin i j) hpos)
    have hsent := hf.sends hr hi hj (cyclicIndex_lt (f.spin i j) hpos) hmod
    rw [hu.connection, hu'.connection, hu.size_shape]
    refine hsent.of_dvd (hperiod ?_)
    rw [hsent.shape]
    exact hf.shape_lt _ (ht.partnered i hi j hj).2.1

end Folding

end Mosaic
