import Mosaic.Proofs.Scalar.Exact
import Mosaic.Plane.Space

/-!
# Plane — motions in exact arithmetic

Over the real numbers a push is an isometry: pushing to a point undoes pushing away from it.

* `Space.IsPoint`: a triple that stands for a point of the space, whatever its weight;
  `Space.OnModel`: the one that `Space.normalize` chooses among its multiples.
* `Space.pushTo_mul_pushFrom`, `Space.pushFrom_mul_pushTo`: there and back is the identity.
* `Motion.halfTurn`: what lies between the directions of two `Motion.Opposite` points.
* `Space.opposite_ends`: seen from its midpoint, the ends of a segment lie in opposite directions.
-/

namespace Mosaic

noncomputable section

attribute [ext] Point Motion

/-! ### Points as vectors -/

namespace Point

variable (p q : Point ℝ)

@[simp] theorem add_x : (p + q).x = p.x + q.x := rfl

@[simp] theorem add_y : (p + q).y = p.y + q.y := rfl

@[simp] theorem add_z : (p + q).z = p.z + q.z := rfl

@[simp] theorem sub_x : (p - q).x = p.x - q.x := rfl

@[simp] theorem sub_y : (p - q).y = p.y - q.y := rfl

@[simp] theorem sub_z : (p - q).z = p.z - q.z := rfl

theorem sqNorm_nonneg : 0 ≤ p.sqNorm :=
  add_nonneg (add_nonneg (mul_self_nonneg _) (mul_self_nonneg _)) (mul_self_nonneg _)

/-- A triple of zeros is all that has no size. -/
theorem eq_zero_of_sqNorm (h : p.sqNorm = 0) : p.x = 0 ∧ p.y = 0 ∧ p.z = 0 := by
  simp only [sqNorm] at h
  have hx := mul_self_nonneg p.x
  have hy := mul_self_nonneg p.y
  have hz := mul_self_nonneg p.z
  exact ⟨mul_self_eq_zero.mp (by linarith), mul_self_eq_zero.mp (by linarith),
    mul_self_eq_zero.mp (by linarith)⟩

/-- Points of equal height that differ are apart in the plane. -/
theorem plane_pos {p q : Point ℝ} (hz : p.z = q.z) (hne : p ≠ q) :
    0 < (p.x - q.x) ^ 2 + (p.y - q.y) ^ 2 := by
  rcases eq_or_ne p.x q.x with hx | hx
  · have hy : p.y - q.y ≠ 0 := sub_ne_zero.mpr fun hy => hne (Point.ext hx hy hz)
    positivity
  · have := sub_ne_zero.mpr hx
    positivity

@[simp] theorem scale_one : p.scale (1 : ℝ) = p := by ext <;> simp [scale]

theorem scale_scale (i j : ℝ) : (p.scale i).scale j = p.scale (i * j) := by
  ext <;> simp only [scale] <;> ring

end Point

/-! ### Motions as a monoid -/

namespace Motion

theorem mul_eq (m n : Motion ℝ) : m * n =
    ⟨m.xx * n.xx + m.xy * n.yx + m.xz * n.zx, m.xx * n.xy + m.xy * n.yy + m.xz * n.zy,
      m.xx * n.xz + m.xy * n.yz + m.xz * n.zz,
     m.yx * n.xx + m.yy * n.yx + m.yz * n.zx, m.yx * n.xy + m.yy * n.yy + m.yz * n.zy,
      m.yx * n.xz + m.yy * n.yz + m.yz * n.zz,
     m.zx * n.xx + m.zy * n.yx + m.zz * n.zx, m.zx * n.xy + m.zy * n.yy + m.zz * n.zy,
      m.zx * n.xz + m.zy * n.yz + m.zz * n.zz⟩ := rfl

theorem identity_eq : (identity : Motion ℝ) = ⟨1, 0, 0, 0, 1, 0, 0, 0, 1⟩ := by
  simp [identity]

instance : Monoid (Motion ℝ) where
  mul_assoc l m n := by ext <;> simp only [mul_eq] <;> ring
  one := identity
  one_mul m := by
    change identity * m = m
    ext <;> simp [mul_eq, identity_eq]
  mul_one m := by
    change m * identity = m
    ext <;> simp [mul_eq, identity_eq]

theorem one_eq : (1 : Motion ℝ) = ⟨1, 0, 0, 0, 1, 0, 0, 0, 1⟩ := identity_eq

theorem mul_apply (m n : Motion ℝ) (p : Point ℝ) : (m * n).apply p = m.apply (n.apply p) := by
  ext <;> simp only [mul_eq, apply] <;> ring

theorem one_apply (p : Point ℝ) : (1 : Motion ℝ).apply p = p := by
  ext <;> simp [one_eq, apply]

theorem apply_combination (m : Motion ℝ) (p q : Point ℝ) (i j : ℝ) :
    m.apply (p.scale i + q.scale j) = (m.apply p).scale i + (m.apply q).scale j := by
  ext <;> simp only [apply, Point.add_x, Point.add_y, Point.add_z, Point.scale] <;> ring

/-! ### Turns about the origin -/

/-- The rotation about the origin that reverses every direction. -/
def halfTurn : Motion ℝ := ⟨-1, 0, 0, 0, -1, 0, 0, 0, 1⟩

/-- Two points that are seen from the origin in opposite directions. -/
def Opposite (p q : Point ℝ) : Prop :=
  (p.x ≠ 0 ∨ p.y ≠ 0) ∧ ∃ k : ℝ, 0 < k ∧ q.x = -(k * p.x) ∧ q.y = -(k * p.y)

/-- The directions of opposite points have opposite cosines and sines. -/
theorem Opposite.cos_sin {p q : Point ℝ} (h : Opposite p q) :
    Real.cos q.angle = -Real.cos p.angle ∧ Real.sin q.angle = -Real.sin p.angle := by
  obtain ⟨hp, k, hk, hx, hy⟩ := h
  have hp0 : (⟨p.x, p.y⟩ : ℂ) ≠ 0 := by
    intro h0
    rcases hp with hp | hp
    · exact hp (congrArg Complex.re h0)
    · exact hp (congrArg Complex.im h0)
  have hq : (⟨q.x, q.y⟩ : ℂ) = k * -⟨p.x, p.y⟩ := by
    apply Complex.ext <;> simp [hx, hy]
  have hangle : q.angle = Complex.arg (-⟨p.x, p.y⟩) := by
    rw [Point.angle, Scalar.atan2_real, hq, Complex.arg_real_mul _ hk]
  have hp1 : p.angle = Complex.arg ⟨p.x, p.y⟩ := rfl
  rw [hangle, hp1, Complex.cos_arg (neg_ne_zero.mpr hp0), Complex.cos_arg hp0, Complex.sin_arg,
    Complex.sin_arg]
  simp [neg_div]

/-- Turning one point to the axis and the axis to its opposite is half a turn. -/
theorem Opposite.spinToAxis_mul {p q : Point ℝ} (h : Opposite p q) :
    spinToAxis p * spinFromAxis q = halfTurn := by
  obtain ⟨hc, hs⟩ := h.cos_sin
  have hcircle := Real.cos_sq_add_sin_sq p.angle
  ext <;> simp only [spinToAxis, spinFromAxis, spin, mul_eq, halfTurn, Scalar.cos_real,
    Scalar.sin_real, Scalar.real_zero, Scalar.real_one, Real.cos_neg, Real.sin_neg, hc, hs]
  all_goals first | ring1 | linear_combination -hcircle

/-- The turns of opposite points with half a turn between them cancel. -/
theorem Opposite.spinFromAxis_mul {p q : Point ℝ} (h : Opposite p q) :
    spinFromAxis q * halfTurn * spinToAxis p = 1 := by
  obtain ⟨hc, hs⟩ := h.cos_sin
  have hcircle := Real.cos_sq_add_sin_sq p.angle
  ext <;> simp only [spinToAxis, spinFromAxis, spin, mul_eq, halfTurn, one_eq, Scalar.cos_real,
    Scalar.sin_real, Scalar.real_zero, Scalar.real_one, Real.cos_neg, Real.sin_neg, hc, hs]
  all_goals first | ring1 | linear_combination hcircle

/-- The push that takes the origin to `(x, y, z)`, for the coupling `g` of the third row. -/
def boost (g k x y z : ℝ) : Motion ℝ :=
  ⟨1 + k * x * x, k * x * y, x, k * x * y, 1 + k * y * y, y, g * x, g * y, z⟩

/-- A boost is undone by the one in the opposite direction. -/
theorem boost_mul_boost {g k x y z : ℝ} (hk : k * (1 + z) = g)
    (hr : k * (x ^ 2 + y ^ 2) = z - 1) : boost g k x y z * boost g k (-x) (-y) z = 1 := by
  ext <;> simp only [boost, mul_eq, one_eq]
  · linear_combination k * x ^ 2 * hr + x ^ 2 * hk
  · linear_combination k * x * y * hr + x * y * hk
  · linear_combination -x * hr
  · linear_combination k * x * y * hr + x * y * hk
  · linear_combination k * y ^ 2 * hr + y ^ 2 * hk
  · linear_combination -y * hr
  · linear_combination g * x * hr
  · linear_combination g * y * hr
  · linear_combination (x ^ 2 + y ^ 2) * hk - (1 + z) * hr

end Motion

/-! ### Points of the three models -/

namespace Space

/-- Whether a triple is a point of the model of its space. -/
def OnModel (s : Space) (p : Point ℝ) : Prop :=
  match s with
  | euclidean => p.z = 1
  | hyperbolic => 0 < p.z ∧ p.depth = 1
  | spherical => p.sqNorm = 1

/-- Whether a triple is a positive multiple of a point of the model. -/
def IsPoint (s : Space) (p : Point ℝ) : Prop :=
  match s with
  | euclidean => 0 < p.z
  | hyperbolic => 0 < p.z ∧ 0 < p.depth
  | spherical => 0 < p.sqNorm

variable {s : Space} {p : Point ℝ}

theorem normalize_of_onModel (h : s.OnModel p) : s.normalize p = p := by
  cases s with
  | euclidean =>
    have hz : p.z = 1 := h
    simp [normalize, Point.charted, Point.chart, hz]
  | hyperbolic =>
    obtain ⟨hz, hd⟩ := h
    simp [normalize, hd, not_lt.mpr hz.le]
  | spherical =>
    have hn : p.sqNorm = 1 := h
    simp [normalize, hn]

/-- Normalization divides a point by a positive number and lands on the model. -/
theorem exists_normalize (h : s.IsPoint p) :
    ∃ k : ℝ, 0 < k ∧ s.normalize p = p.scale k ∧ s.OnModel (s.normalize p) := by
  cases s with
  | euclidean =>
    have hz : 0 < p.z := h
    have hn : normalize .euclidean p = p.scale (1 / p.z) := by
      simp [normalize, Point.charted, Point.chart, hz.ne']
    refine ⟨1 / p.z, by positivity, hn, ?_⟩
    rw [hn]
    exact mul_one_div_cancel hz.ne'
  | hyperbolic =>
    obtain ⟨hz, hd⟩ := h
    have hn : normalize .hyperbolic p = p.scale (1 / √p.depth) := by
      simp [normalize, hd, not_lt.mpr hz.le]
    refine ⟨1 / √p.depth, by positivity, hn, ?_⟩
    rw [hn]
    refine ⟨mul_pos hz (by positivity), ?_⟩
    calc (p.scale (1 / √p.depth)).depth = p.depth * (1 / √p.depth) ^ 2 := by
          simp only [Point.depth, Point.scale]; ring
      _ = 1 := by rw [div_pow, Real.sq_sqrt hd.le]; field_simp
  | spherical =>
    have hd : 0 < p.sqNorm := h
    have hn : normalize .spherical p = p.scale (1 / √p.sqNorm) := by
      simp [normalize, hd]
    refine ⟨1 / √p.sqNorm, by positivity, hn, ?_⟩
    rw [hn]
    calc (p.scale (1 / √p.sqNorm)).sqNorm = p.sqNorm * (1 / √p.sqNorm) ^ 2 := by
          simp only [Point.sqNorm, Point.scale]; ring
      _ = 1 := by rw [div_pow, Real.sq_sqrt hd.le]; field_simp

/-- The image of a point of the model under the reflection in the origin is one as well. -/
theorem OnModel.reflect (h : s.OnModel p) : s.OnModel ⟨-p.x, -p.y, p.z⟩ := by
  cases s with
  | euclidean => exact h
  | hyperbolic => exact ⟨h.1, by simpa [Point.depth] using h.2⟩
  | spherical => simpa [OnModel, Point.sqNorm] using h

/-- Except at the point opposite to the origin of the sphere, a push is a boost. -/
theorem exists_boost (h : s.OnModel p) (hz : p.z ≠ -1) : ∃ g k : ℝ,
    k * (1 + p.z) = g ∧ k * (p.x ^ 2 + p.y ^ 2) = p.z - 1 ∧
      s.pushTo p = Motion.boost g k p.x p.y p.z ∧
        s.pushFrom p = Motion.boost g k (-p.x) (-p.y) p.z := by
  have hz1 : 1 + p.z ≠ 0 := fun h0 => hz (by linarith)
  have hpush := normalize_of_onModel h
  have hback := normalize_of_onModel h.reflect
  cases s with
  | euclidean =>
    have hz : p.z = 1 := h
    refine ⟨0, 0, by ring, by rw [hz]; ring, ?_, ?_⟩
    · simp [pushTo, hpush, Motion.boost, coupling, hz]
    · rw [hz] at hback
      simp [pushFrom, pushTo, hpush, hback, Motion.boost, coupling, hz]
  | hyperbolic =>
    have hd : p.z * p.z - p.x * p.x - p.y * p.y = 1 := h.2
    refine ⟨1, 1 / (1 + p.z), by field_simp, ?_, ?_, ?_⟩
    · field_simp
      linear_combination -hd
    · simp [pushTo, hpush, Motion.boost, coupling]
    · simp [pushFrom, pushTo, hpush, hback, Motion.boost, coupling]
  | spherical =>
    have hd : p.x * p.x + p.y * p.y + p.z * p.z = 1 := h
    refine ⟨-1, -1 / (1 + p.z), by field_simp, ?_, ?_, ?_⟩
    · field_simp
      linear_combination -hd
    · simp [pushTo, hpush, Motion.boost, coupling]
    · simp [pushFrom, pushTo, hpush, hback, Motion.boost, coupling]

/-- The point of a model with height `-1` is opposite to the origin of the sphere. -/
theorem OnModel.eq_of_z_eq (h : s.OnModel p) (hz : p.z = -1) :
    s = .spherical ∧ p = ⟨0, 0, -1⟩ := by
  cases s with
  | euclidean =>
    have h1 : p.z = 1 := h
    linarith
  | hyperbolic => linarith [h.1]
  | spherical =>
    have hd : p.x * p.x + p.y * p.y + p.z * p.z = 1 := h
    rw [hz] at hd
    refine ⟨rfl, Point.ext ?_ ?_ hz⟩ <;> nlinarith [sq_nonneg p.x, sq_nonneg p.y]

/-- Pushing away from a point and then to it moves nothing. -/
theorem pushTo_mul_pushFrom (h : s.OnModel p) : s.pushTo p * s.pushFrom p = 1 := by
  by_cases hz : p.z = -1
  · obtain ⟨rfl, rfl⟩ := h.eq_of_z_eq hz
    have hn := normalize_of_onModel h
    ext <;> simp [pushTo, pushFrom, hn, coupling, Motion.mul_eq, Motion.one_eq]
  · obtain ⟨g, k, hk, hr, hto, hfrom⟩ := exists_boost h hz
    rw [hto, hfrom, Motion.boost_mul_boost hk hr]

/-- Pushing to a point and then away from it moves nothing. -/
theorem pushFrom_mul_pushTo (h : s.OnModel p) : s.pushFrom p * s.pushTo p = 1 := by
  by_cases hz : p.z = -1
  · obtain ⟨rfl, rfl⟩ := h.eq_of_z_eq hz
    have hn := normalize_of_onModel h
    ext <;> simp [pushTo, pushFrom, hn, coupling, Motion.mul_eq, Motion.one_eq]
  · obtain ⟨g, k, hk, hr, hto, hfrom⟩ := exists_boost h hz
    have hback := Motion.boost_mul_boost (x := -p.x) (y := -p.y) hk (by linear_combination hr)
    rw [neg_neg, neg_neg] at hback
    rw [hto, hfrom, hback]

/-- A push takes the origin to its point. -/
theorem pushTo_apply_origin (h : s.OnModel p) : (s.pushTo p).apply Point.origin = p := by
  have hn := normalize_of_onModel h
  cases s with
  | euclidean =>
    have hz : p.z = 1 := h
    ext <;> simp [pushTo, hn, Motion.apply, Point.origin, hz]
  | hyperbolic => ext <;> simp [pushTo, hn, Motion.apply, Point.origin]
  | spherical => ext <;> simp [pushTo, hn, Motion.apply, Point.origin]

/-- The push away from a point takes it to the origin. -/
theorem pushFrom_apply_self (h : s.OnModel p) : (s.pushFrom p).apply p = Point.origin := by
  calc (s.pushFrom p).apply p
      = (s.pushFrom p * s.pushTo p).apply Point.origin := by
        rw [Motion.mul_apply, pushTo_apply_origin h]
    _ = Point.origin := by rw [pushFrom_mul_pushTo h, Motion.one_apply]

/-- What a push away from a point leaves on the axis through the origin was a multiple of it. -/
theorem eq_scale_of_pushFrom {q : Point ℝ} (h : s.OnModel p)
    (hx : ((s.pushFrom p).apply q).x = 0) (hy : ((s.pushFrom p).apply q).y = 0) :
    q = p.scale ((s.pushFrom p).apply q).z := by
  generalize hc : ((s.pushFrom p).apply q).z = c
  have haxis : (s.pushFrom p).apply q = Point.origin.scale c := by
    ext <;> simp [Point.scale, Point.origin, hx, hy, hc]
  calc q = (s.pushTo p * s.pushFrom p).apply q := by
        rw [pushTo_mul_pushFrom h, Motion.one_apply]
    _ = ((s.pushTo p).apply Point.origin).scale c := by
        rw [Motion.mul_apply, haxis]
        ext <;> simp only [Motion.apply, Point.scale] <;> ring
    _ = p.scale c := by rw [pushTo_apply_origin h]

/-! ### Segments -/

/-- Two points that are joined by one shortest line: they are distinct, and not opposite to each
other on the sphere. -/
structure Segment (s : Space) (l r : Point ℝ) : Prop where
  left : s.IsPoint l
  right : s.IsPoint r
  distinct : s.normalize l ≠ s.normalize r
  notAntipodal : s = .spherical → s.normalize l ≠ (s.normalize r).scale (-1)

/-- Points of the model on one line through the origin of space are equal or antipodal. -/
theorem OnModel.scale_eq {q : Point ℝ} {c : ℝ} (hp : s.OnModel p) (hq : s.OnModel q)
    (h : q = p.scale c) : q = p ∨ s = .spherical ∧ q = p.scale (-1) := by
  have hz : q.z = p.z * c := by rw [h]; rfl
  cases s with
  | euclidean =>
    have hp : p.z = 1 := hp
    have hq : q.z = 1 := hq
    rw [hp, hq, one_mul] at hz
    rw [h, ← hz, Point.scale_one]
    exact .inl rfl
  | hyperbolic =>
    obtain ⟨hp0, hp1⟩ := hp
    obtain ⟨hq0, hq1⟩ := hq
    have hc : c ^ 2 = 1 := by
      calc c ^ 2 = p.depth * c ^ 2 := by rw [hp1, one_mul]
        _ = (p.scale c).depth := by simp only [Point.depth, Point.scale]; ring
        _ = 1 := by rw [← h, hq1]
    have hc0 : 0 < c := by
      rw [hz] at hq0
      exact pos_of_mul_pos_right hq0 hp0.le
    rcases sq_eq_one_iff.mp hc with rfl | rfl
    · exact .inl (h.trans p.scale_one)
    · linarith
  | spherical =>
    have hp : p.sqNorm = 1 := hp
    have hq : q.sqNorm = 1 := hq
    have hc : c ^ 2 = 1 := by
      calc c ^ 2 = p.sqNorm * c ^ 2 := by rw [hp, one_mul]
        _ = (p.scale c).sqNorm := by simp only [Point.sqNorm, Point.scale]; ring
        _ = 1 := by rw [← h, hq]
    rcases sq_eq_one_iff.mp hc with rfl | rfl
    · exact .inl (h.trans p.scale_one)
    · exact .inr ⟨rfl, h⟩

variable {l r : Point ℝ}

/-- Points of the sphere that are not antipodal do not cancel. -/
theorem Segment.sqNorm_add_pos (h : Segment .spherical l r) : 0 < (l + r).sqNorm := by
  refine lt_of_le_of_ne (l + r).sqNorm_nonneg fun h0 => ?_
  have hl : l = r.scale (-1) := by
    obtain ⟨hx, hy, hz⟩ := Point.eq_zero_of_sqNorm _ h0.symm
    simp only [Point.add_x, Point.add_y, Point.add_z] at hx hy hz
    ext <;> simp only [Point.scale] <;> linarith
  obtain ⟨i, hi, hil, hleft⟩ := exists_normalize h.left
  obtain ⟨j, hj, hjr, hright⟩ := exists_normalize h.right
  have hcollinear : normalize .spherical l = (normalize .spherical r).scale (-(i / j)) := by
    rw [hil, hjr, hl, Point.scale_scale, Point.scale_scale]
    congr 1
    field_simp
  rcases hright.scale_eq hleft hcollinear with heq | ⟨hs, heq⟩
  · exact h.distinct heq
  · exact h.notAntipodal hs heq

/-- Two points inside one sheet of the cone of positive depth add up to a point inside it. -/
theorem depth_add_pos (hl : 0 < l.z ∧ 0 < l.depth) (hr : 0 < r.z ∧ 0 < r.depth) :
    0 < (l + r).depth := by
  obtain ⟨hlz, hl⟩ := hl
  obtain ⟨hrz, hr⟩ := hr
  simp only [Point.depth] at hl hr
  -- the mixed term is positive by the inequality of Cauchy and Schwarz
  have hmixed : l.x * r.x + l.y * r.y < l.z * r.z := by
    refine lt_of_pow_lt_pow_left₀ 2 (by positivity) ?_
    have hprod : (l.x * l.x + l.y * l.y) * (r.x * r.x + r.y * r.y) < (l.z * l.z) * (r.z * r.z) :=
      mul_lt_mul'' (by linarith) (by linarith) (by nlinarith) (by nlinarith)
    nlinarith [sq_nonneg (l.x * r.y - l.y * r.x)]
  simp only [Point.depth, Point.add_x, Point.add_y, Point.add_z]
  linarith

/-- The midpoint of a segment lies on the model and between the ends of the segment. -/
theorem Segment.exists_mid (h : Segment s l r) : s.OnModel (s.mid l r) ∧
    ∃ i j : ℝ, 0 < i ∧ 0 < j ∧ s.mid l r = l.scale i + r.scale j := by
  have hscale {i j k : ℝ} (hi : 0 < i) (hj : 0 < j) (hk : 0 < k)
      (he : s.mid l r = (l.scale i + r.scale j).scale k) :
      ∃ i j : ℝ, 0 < i ∧ 0 < j ∧ s.mid l r = l.scale i + r.scale j := by
    refine ⟨i * k, j * k, by positivity, by positivity, ?_⟩
    rw [he]
    ext <;> simp only [Point.scale, Point.add_x, Point.add_y, Point.add_z] <;> ring
  obtain ⟨i, hi, hil, hleft⟩ := exists_normalize h.left
  obtain ⟨j, hj, hjr, hright⟩ := exists_normalize h.right
  cases s with
  | euclidean =>
    have hsum : IsPoint .euclidean (l.scale i + r.scale j) := by
      have hl : (l.scale i).z = 1 := hil ▸ hleft
      have hr : (r.scale j).z = 1 := hjr ▸ hright
      change 0 < (l.scale i).z + (r.scale j).z
      rw [hl, hr]
      norm_num
    obtain ⟨k, hk, hn, hmodel⟩ := exists_normalize hsum
    have hmid : mid .euclidean l r = normalize .euclidean (l.scale i + r.scale j) := by
      rw [mid, hil, hjr]
    exact ⟨hmid ▸ hmodel, hscale hi hj hk (hmid.trans hn)⟩
  | hyperbolic =>
    have hsum : IsPoint .hyperbolic (l + r) :=
      ⟨add_pos h.left.1 h.right.1, depth_add_pos h.left h.right⟩
    obtain ⟨k, hk, hn, hmodel⟩ := exists_normalize hsum
    exact ⟨hmodel, hscale one_pos one_pos hk (by rw [Point.scale_one, Point.scale_one]; exact hn)⟩
  | spherical =>
    have hsum : IsPoint .spherical (l + r) := h.sqNorm_add_pos
    obtain ⟨k, hk, hn, hmodel⟩ := exists_normalize hsum
    exact ⟨hmodel, hscale one_pos one_pos hk (by rw [Point.scale_one, Point.scale_one]; exact hn)⟩

/-- An end of a segment does not lie behind its midpoint: seen from there it has a direction. -/
theorem Segment.not_scale_mid (h : Segment s l r) {c d : ℝ} (hl : l = (s.mid l r).scale c)
    (hr : r = (s.mid l r).scale d) : False := by
  obtain ⟨hmodel, -⟩ := h.exists_mid
  obtain ⟨i, hi, hil, hleft⟩ := exists_normalize h.left
  obtain ⟨j, hj, hjr, hright⟩ := exists_normalize h.right
  have hl' : s.normalize l = (s.mid l r).scale (c * i) := by
    rw [hil, ← Point.scale_scale, ← hl]
  have hr' : s.normalize r = (s.mid l r).scale (d * j) := by
    rw [hjr, ← Point.scale_scale, ← hr]
  rcases hmodel.scale_eq hleft hl' with hl1 | ⟨hs, hl1⟩ <;>
    rcases hmodel.scale_eq hright hr' with hr1 | ⟨hs, hr1⟩
  · exact h.distinct (hl1.trans hr1.symm)
  · refine h.notAntipodal hs ?_
    rw [hl1, hr1, Point.scale_scale, neg_mul_neg, one_mul, Point.scale_one]
  · exact h.notAntipodal hs (by rw [hl1, hr1])
  · exact h.distinct (hl1.trans hr1.symm)

/-- Seen from the midpoint of a segment, its ends lie in opposite directions. -/
theorem Segment.opposite (h : Segment s l r) :
    Motion.Opposite ((s.pushFrom (s.mid l r)).apply l) ((s.pushFrom (s.mid l r)).apply r) := by
  obtain ⟨hmodel, i, j, hi, hj, hmid⟩ := h.exists_mid
  set home := s.pushFrom (s.mid l r) with hhome
  -- the midpoint goes to the origin, so what the ends leave of the plane cancels
  have hcancel : (home.apply l).scale i + (home.apply r).scale j = Point.origin := by
    rw [← Motion.apply_combination, ← hmid, hhome, pushFrom_apply_self hmodel]
  have hx : (home.apply l).x * i + (home.apply r).x * j = 0 := by
    have := congrArg Point.x hcancel
    simpa [Point.scale, Point.origin] using this
  have hy : (home.apply l).y * i + (home.apply r).y * j = 0 := by
    have := congrArg Point.y hcancel
    simpa [Point.scale, Point.origin] using this
  have hrx : (home.apply r).x = -(i / j * (home.apply l).x) := by field_simp; linarith
  have hry : (home.apply r).y = -(i / j * (home.apply l).y) := by field_simp; linarith
  refine ⟨?_, i / j, by positivity, hrx, hry⟩
  by_contra hne
  obtain ⟨hlx, hly⟩ := not_or.mp hne
  rw [not_not] at hlx hly
  rw [hlx, mul_zero, neg_zero] at hrx
  rw [hly, mul_zero, neg_zero] at hry
  exact h.not_scale_mid (eq_scale_of_pushFrom hmodel hlx hly)
    (eq_scale_of_pushFrom hmodel hrx hry)

/-- Distinct points of the hyperboloid are apart in its own measure. -/
theorem separation_pos {a b : Point ℝ} (ha : OnModel .hyperbolic a) (hb : OnModel .hyperbolic b)
    (hne : a ≠ b) : 0 < (a - b).x * (a - b).x + (a - b).y * (a - b).y - (a - b).z * (a - b).z := by
  obtain ⟨haz, ha⟩ := ha
  obtain ⟨hbz, hb⟩ := hb
  simp only [Point.depth] at ha hb
  simp only [Point.sub_x, Point.sub_y, Point.sub_z]
  -- on one sheet, the height is told by the other coordinates
  have hplane : 0 < (a.x - b.x) ^ 2 + (a.y - b.y) ^ 2 := by
    by_contra hle
    have hx : a.x = b.x := by nlinarith [sq_nonneg (a.x - b.x), sq_nonneg (a.y - b.y)]
    have hy : a.y = b.y := by nlinarith [sq_nonneg (a.x - b.x), sq_nonneg (a.y - b.y)]
    rw [hx, hy] at ha
    exact hne (Point.ext hx hy (by nlinarith))
  have hmixed : a.x * b.x + a.y * b.y + 1 < a.z * b.z := by
    refine lt_of_pow_lt_pow_left₀ 2 (by positivity) ?_
    have hsq : (a.z * b.z) ^ 2 = (a.x * b.x + a.y * b.y + 1) ^ 2 + ((a.x - b.x) ^ 2
        + (a.y - b.y) ^ 2) + (a.x * b.y - a.y * b.x) ^ 2 := by
      linear_combination (b.z * b.z) * ha + (1 + a.x * a.x + a.y * a.y) * hb
    nlinarith [sq_nonneg (a.x * b.y - a.y * b.x)]
  linarith

/-- The ends of a segment are a positive distance apart. -/
theorem Segment.dist_pos (h : Segment s l r) : 0 < s.dist l r := by
  obtain ⟨-, -, -, hleft⟩ := exists_normalize h.left
  obtain ⟨-, -, -, hright⟩ := exists_normalize h.right
  have hne := h.distinct
  generalize hl : s.normalize l = a at hleft hne
  generalize hr : s.normalize r = b at hright hne
  cases s with
  | euclidean =>
    have ha : a.z = 1 := hleft
    have hb : b.z = 1 := hright
    have hpos := Point.plane_pos (ha.trans hb.symm) hne
    simpa [dist, hl, hr] using hpos
  | hyperbolic =>
    have hpos := separation_pos hleft hright hne
    have : 0 < √|(a - b).x * (a - b).x + (a - b).y * (a - b).y - (a - b).z * (a - b).z| / 2 := by
      have := abs_pos.mpr hpos.ne'
      positivity
    simpa [dist, hl, hr] using this
  | spherical =>
    have hpos : 0 < (a - b).sqNorm := by
      refine lt_of_le_of_ne (a - b).sqNorm_nonneg fun h0 => hne ?_
      obtain ⟨hx, hy, hz⟩ := Point.eq_zero_of_sqNorm _ h0.symm
      exact Point.ext (sub_eq_zero.mp hx) (sub_eq_zero.mp hy) (sub_eq_zero.mp hz)
    have : 0 < min (√(a - b).sqNorm / 2) 1 := by positivity
    simpa [dist, hl, hr, Scalar.min_real] using this

/-! ### The plane in coordinates -/

section

variable (x y x' y' : ℝ)

theorem normalize_euclidean : normalize .euclidean (⟨x, y, 1⟩ : Point ℝ) = ⟨x, y, 1⟩ :=
  normalize_of_onModel (s := .euclidean) rfl

theorem mid_euclidean :
    mid .euclidean ⟨x, y, 1⟩ ⟨x', y', 1⟩ = ⟨(x + x') / 2, (y + y') / 2, 1⟩ := by
  have hz : (1 : ℝ) + 1 = 2 := by norm_num
  rw [mid, normalize_euclidean, normalize_euclidean]
  ext <;> simp [normalize, Point.charted, Point.chart, Point.scale, hz] <;> ring1

theorem pushTo_euclidean :
    pushTo .euclidean ⟨x, y, 1⟩ = ⟨1, 0, x, 0, 1, y, 0, 0, 1⟩ := by
  simp [pushTo, normalize_euclidean, coupling]

theorem pushFrom_euclidean :
    pushFrom .euclidean ⟨x, y, 1⟩ = ⟨1, 0, -x, 0, 1, -y, 0, 0, 1⟩ := by
  rw [pushFrom, normalize_euclidean, pushTo_euclidean]

theorem dist_euclidean :
    dist .euclidean ⟨x, y, 1⟩ ⟨x', y', 1⟩ = √((x - x') ^ 2 + (y - y') ^ 2) := by
  simp [dist, normalize_euclidean]

variable {x x'}

theorem segment_euclidean (h : x ≠ x') : Segment .euclidean ⟨x, y, 1⟩ ⟨x', y', 1⟩ where
  left := one_pos (α := ℝ)
  right := one_pos (α := ℝ)
  distinct := by
    rw [normalize_euclidean, normalize_euclidean]
    exact fun h0 => h (congrArg Point.x h0)
  notAntipodal h0 := by cases h0

end

end Space

end

end Mosaic
