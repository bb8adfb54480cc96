import Mathlib
import Mosaic.Plane.Orthonormal
import Mosaic.Proofs.Plane.Exact

/-!
# Plane — isometries in exact arithmetic

An isometry takes points of the model to points of the model and keeps their distances
(`Space.IsIsometry`).  In the entries of its matrix this says that its columns are orthonormal for
the form of the model (`Space.Rigid`), and a motion with such columns has not drifted:
`Space.orthonormalize` leaves it as it is (`Rigid.orthonormalize_eq`).
-/

namespace Mosaic

noncomputable section

namespace Space

variable {s : Space} {m n : Motion ℝ} {p q : Point ℝ}

/-- A motion that takes points of the model to such points and keeps their distances. -/
structure IsIsometry (s : Space) (m : Motion ℝ) : Prop where
  onModel : ∀ p, s.OnModel p → s.OnModel (m.apply p)
  dist_eq : ∀ p q, s.OnModel p → s.OnModel q → s.dist (m.apply p) (m.apply q) = s.dist p q

/-- Displacements of the plane are isometries. -/
theorem isIsometry_displacement (x y : ℝ) : IsIsometry .euclidean (Motion.displacement x y) := by
  have himage (p : Point ℝ) (hp : OnModel .euclidean p) :
      (Motion.displacement x y).apply p = ⟨p.x + x, p.y + y, 1⟩ := by
    have hz : p.z = 1 := hp
    ext <;> simp [Motion.displacement, Motion.apply, hz]
  refine ⟨fun p hp => ?_, fun p q hp hq => ?_⟩
  · rw [himage p hp]
    rfl
  · rw [himage p hp, himage q hq]
    obtain ⟨a, b, _⟩ := p
    obtain ⟨c, d, _⟩ := q
    obtain rfl : _ = (1 : ℝ) := hp
    obtain rfl : _ = (1 : ℝ) := hq
    rw [dist_euclidean, dist_euclidean, add_sub_add_right_eq_sub, add_sub_add_right_eq_sub]

theorem originImage_eq (m : Motion ℝ) : m.originImage = m.apply Point.origin := by
  ext <;> simp [Motion.originImage, Motion.apply, Point.origin]

/-! ### The form of a model -/

/-- How the third coordinate counts. -/
def sign : Space → ℝ
  | hyperbolic => -1
  | _ => 1

theorem form_eq (s : Space) (p q : Point ℝ) :
    s.form p q = p.x * q.x + p.y * q.y + s.sign * p.z * q.z := by
  cases s <;> simp [form, sign]

theorem form_comm (s : Space) (p q : Point ℝ) : s.form p q = s.form q p := by
  rw [form_eq, form_eq]
  ring

/-- Points of a curved model have the size that the origin has. -/
theorem OnModel.form_self (hs : s ≠ .euclidean) (h : s.OnModel p) : s.form p p = s.sign := by
  rw [form_eq]
  cases s with
  | euclidean => exact absurd rfl hs
  | hyperbolic =>
    have hd : p.z * p.z - p.x * p.x - p.y * p.y = 1 := h.2
    simp only [sign]
    linarith
  | spherical =>
    have hd : p.x * p.x + p.y * p.y + p.z * p.z = 1 := h
    simp only [sign]
    linarith

/-- The form of the difference of two points of a curved model tells the form of the points. -/
theorem OnModel.form_sub (hs : s ≠ .euclidean) (hp : s.OnModel p) (hq : s.OnModel q) :
    s.form (p - q) (p - q) = 2 * s.sign - 2 * s.form p q := by
  have hp := hp.form_self hs
  have hq := hq.form_self hs
  rw [form_eq] at hp hq
  rw [form_eq, form_eq]
  simp only [Point.sub_x, Point.sub_y, Point.sub_z]
  linear_combination hp + hq

/-! ### Distances in a curved model -/

theorem form_sub_nonneg (hp : OnModel .hyperbolic p) (hq : OnModel .hyperbolic q) :
    0 ≤ form .hyperbolic (p - q) (p - q) := by
  rcases eq_or_ne p q with rfl | hne
  · simp [form_eq]
  · have := separation_pos hp hq hne
    rw [form_eq]
    simp only [sign]
    linarith

/-- The distance in the hyperbolic plane, from the Minkowski form. -/
theorem dist_hyperbolic (hp : OnModel .hyperbolic p) (hq : OnModel .hyperbolic q) :
    dist .hyperbolic p q = 2 * Real.arsinh (√(form .hyperbolic (p - q) (p - q)) / 2) := by
  have hform : (p - q).x * (p - q).x + (p - q).y * (p - q).y - (p - q).z * (p - q).z =
      form .hyperbolic (p - q) (p - q) := by
    rw [form_eq]
    simp only [sign]
    ring
  simp only [dist, normalize_of_onModel hp, normalize_of_onModel hq, hform, Scalar.arsinh_real,
    Scalar.sqrt_real, Scalar.abs_real, abs_of_nonneg (form_sub_nonneg hp hq)]

theorem form_spherical (p : Point ℝ) : form .spherical p p = p.sqNorm := by
  rw [form_eq]
  simp [sign, Point.sqNorm]

/-- Half of a chord of the sphere is a sine. -/
theorem half_chord_mem (hp : OnModel .spherical p) (hq : OnModel .spherical q) :
    √(form .spherical (p - q) (p - q)) / 2 ∈ Set.Icc (-1 : ℝ) 1 := by
  have hp : p.x * p.x + p.y * p.y + p.z * p.z = 1 := hp
  have hq : q.x * q.x + q.y * q.y + q.z * q.z = 1 := hq
  have hle : form .spherical (p - q) (p - q) ≤ 2 ^ 2 := by
    rw [form_spherical]
    simp only [Point.sqNorm, Point.sub_x, Point.sub_y, Point.sub_z]
    nlinarith [sq_nonneg (p.x + q.x), sq_nonneg (p.y + q.y), sq_nonneg (p.z + q.z)]
  have := Real.sqrt_le_iff.mpr ⟨zero_le_two, hle⟩
  have := Real.sqrt_nonneg (form .spherical (p - q) (p - q))
  constructor <;> linarith

/-- The distance on the sphere, from the length of the chord. -/
theorem dist_spherical (hp : OnModel .spherical p) (hq : OnModel .spherical q) :
    dist .spherical p q = 2 * Real.arcsin (√(form .spherical (p - q) (p - q)) / 2) := by
  have hle := (half_chord_mem hp hq).2
  rw [form_spherical] at hle ⊢
  simp only [dist, normalize_of_onModel hp, normalize_of_onModel hq, Scalar.asin_real,
    Scalar.sqrt_real, Scalar.min_real, Scalar.real_one, min_eq_left hle]

/-- Points of a curved model that are equally far apart have equal forms. -/
theorem form_eq_of_dist_eq {p' q' : Point ℝ} (hs : s ≠ .euclidean) (hp : s.OnModel p)
    (hq : s.OnModel q) (hp' : s.OnModel p') (hq' : s.OnModel q')
    (h : s.dist p' q' = s.dist p q) : s.form p' q' = s.form p q := by
  suffices hsub : s.form (p' - q') (p' - q') = s.form (p - q) (p - q) by
    rw [hp'.form_sub hs hq', hp.form_sub hs hq] at hsub
    linarith
  cases s with
  | euclidean => exact absurd rfl hs
  | hyperbolic =>
    rw [dist_hyperbolic hp' hq', dist_hyperbolic hp hq] at h
    have hhalf := Real.arsinh_injective (mul_left_cancel₀ two_ne_zero h)
    exact (Real.sqrt_inj (form_sub_nonneg hp' hq') (form_sub_nonneg hp hq)).mp (by linarith)
  | spherical =>
    rw [dist_spherical hp' hq', dist_spherical hp hq] at h
    have hhalf := Real.injOn_arcsin (half_chord_mem hp' hq') (half_chord_mem hp hq)
      (mul_left_cancel₀ two_ne_zero h)
    rw [form_spherical, form_spherical] at hhalf ⊢
    exact (Real.sqrt_inj (Point.sqNorm_nonneg _) (Point.sqNorm_nonneg _)).mp (by linarith)

/-! ### The columns of an isometry -/

/-- The columns of the motion are orthonormal for the form of the model; in the plane, the first
two are directions and the last one is a point. -/
structure Rigid (s : Space) (m : Motion ℝ) : Prop where
  unitX : s.form m.columnX m.columnX = 1
  unitY : s.form m.columnY m.columnY = 1
  square : s.form m.columnX m.columnY = 0
  plane : s = .euclidean → m.zx = 0 ∧ m.zy = 0 ∧ m.zz = 1
  curved : s ≠ .euclidean → s.form m.originImage m.originImage = s.sign ∧
    s.form m.columnX m.originImage = 0 ∧ s.form m.columnY m.originImage = 0

/-- Of a curved model, the origin and one point on each axis at equal distances from it. -/
theorem exists_basis (hs : s ≠ .euclidean) : ∃ b c : ℝ, b ≠ 0 ∧ b ^ 2 + s.sign * c ^ 2 = s.sign ∧
    s.OnModel ⟨0, 0, 1⟩ ∧ s.OnModel ⟨b, 0, c⟩ ∧ s.OnModel ⟨0, b, c⟩ := by
  cases s with
  | euclidean => exact absurd rfl hs
  | hyperbolic =>
    refine ⟨3 / 4, 5 / 4, by norm_num, by norm_num [sign], ?_⟩
    norm_num [OnModel, Point.depth]
  | spherical =>
    refine ⟨1, 0, one_ne_zero, by norm_num [sign], ?_⟩
    norm_num [OnModel, Point.sqNorm]

theorem IsIsometry.rigid_of_curved (hs : s ≠ .euclidean) (h : s.IsIsometry m) : s.Rigid m := by
  obtain ⟨b, c, hb, hbc, hO, hX, hY⟩ := exists_basis hs
  have hkeeps {p q : Point ℝ} (hp : s.OnModel p) (hq : s.OnModel q) :
      s.form (m.apply p) (m.apply q) = s.form p q :=
    form_eq_of_dist_eq hs hp hq (h.onModel p hp) (h.onModel q hq) (h.dist_eq p q hp hq)
  -- the form of the images of six pairs of points, in terms of the columns
  have hOO := hkeeps hO hO
  have hOX := hkeeps hO hX
  have hOY := hkeeps hO hY
  have hXX := hkeeps hX hX
  have hYY := hkeeps hY hY
  have hXY := hkeeps hX hY
  simp only [form_eq, Motion.apply] at hOO hOX hOY hXX hYY hXY
  have hb2 : b ^ 2 ≠ 0 := pow_ne_zero 2 hb
  refine ⟨?_, ?_, ?_, fun he => absurd he hs, fun _ => ⟨?_, ?_, ?_⟩⟩ <;>
    simp only [form_eq, Motion.columnX, Motion.columnY, Motion.originImage]
  · refine mul_left_cancel₀ hb2 ?_
    linear_combination hXX - 2 * c * hOX + c ^ 2 * hOO
  · refine mul_left_cancel₀ hb2 ?_
    linear_combination hYY - 2 * c * hOY + c ^ 2 * hOO
  · refine mul_left_cancel₀ hb2 ?_
    linear_combination hXY - c * hOX - c * hOY + c ^ 2 * hOO
  · linear_combination hOO
  · refine mul_left_cancel₀ hb ?_
    linear_combination hOX - c * hOO
  · refine mul_left_cancel₀ hb ?_
    linear_combination hOY - c * hOO

theorem IsIsometry.rigid_of_plane (h : IsIsometry .euclidean m) : Rigid .euclidean m := by
  have hz (x y : ℝ) : m.zx * x + m.zy * y + m.zz = 1 := by
    have hmodel : (m.apply ⟨x, y, 1⟩).z = 1 := h.onModel ⟨x, y, 1⟩ rfl
    simpa [Motion.apply] using hmodel
  have himage (x y : ℝ) : m.apply ⟨x, y, 1⟩ =
      ⟨m.xx * x + m.xy * y + m.xz, m.yx * x + m.yy * y + m.yz, 1⟩ := by
    ext
    · simp [Motion.apply]
    · simp [Motion.apply]
    · exact h.onModel ⟨x, y, 1⟩ rfl
  have hdist (x y : ℝ) : (m.xx * x + m.xy * y) ^ 2 + (m.yx * x + m.yy * y) ^ 2 = x ^ 2 + y ^ 2 := by
    have hd := h.dist_eq ⟨x, y, 1⟩ ⟨0, 0, 1⟩ rfl rfl
    rw [himage, himage, dist_euclidean, dist_euclidean,
      Real.sqrt_inj (by positivity) (by positivity)] at hd
    linear_combination hd
  refine ⟨?_, ?_, ?_, fun _ => ?_, fun he => absurd rfl he⟩
  · rw [form_eq]
    simp only [Motion.columnX]
    linear_combination hdist 1 0 + sign .euclidean * m.zx * (hz 1 0 - hz 0 0)
  · rw [form_eq]
    simp only [Motion.columnY]
    linear_combination hdist 0 1 + sign .euclidean * m.zy * (hz 0 1 - hz 0 0)
  · rw [form_eq]
    simp only [Motion.columnX, Motion.columnY]
    linear_combination (hdist 1 1 - hdist 1 0 - hdist 0 1) / 2 +
      sign .euclidean * m.zy * (hz 1 0 - hz 0 0)
  · exact ⟨by linear_combination hz 1 0 - hz 0 0, by linear_combination hz 0 1 - hz 0 0,
      by linear_combination hz 0 0⟩

theorem IsIsometry.rigid (h : s.IsIsometry m) : s.Rigid m := by
  cases s with
  | euclidean => exact h.rigid_of_plane
  | hyperbolic => exact h.rigid_of_curved (nomatch ·)
  | spherical => exact h.rigid_of_curved (nomatch ·)

/-- A motion with orthonormal columns keeps the form of all triples. -/
theorem Rigid.form_apply (hs : s ≠ .euclidean) (h : s.Rigid m) (p q : Point ℝ) :
    s.form (m.apply p) (m.apply q) = s.form p q := by
  obtain ⟨hz, hxz, hyz⟩ := h.curved hs
  have hx := h.unitX
  have hy := h.unitY
  have hxy := h.square
  simp only [form_eq, Motion.columnX, Motion.columnY, Motion.originImage, Motion.apply] at *
  linear_combination p.x * q.x * hx + p.y * q.y * hy + p.z * q.z * hz +
    (p.x * q.y + p.y * q.x) * hxy + (p.x * q.z + p.z * q.x) * hxz + (p.y * q.z + p.z * q.y) * hyz

/-- Rigid motions of a curved model one after the other. -/
theorem Rigid.mul (hs : s ≠ .euclidean) (hm : s.Rigid m) (hn : s.Rigid n) : s.Rigid (m * n) := by
  obtain ⟨hz, hxz, hyz⟩ := hn.curved hs
  have hform := hm.form_apply hs
  exact ⟨(hform _ _).trans hn.unitX, (hform _ _).trans hn.unitY, (hform _ _).trans hn.square,
    fun he => absurd he hs,
    fun _ => ⟨(hform _ _).trans hz, (hform _ _).trans hxz, (hform _ _).trans hyz⟩⟩

/-- A displacement of the plane adds to the image of the origin and to nothing else. -/
theorem Rigid.displacement_mul (h : Rigid .euclidean m) (x y : ℝ) :
    Motion.displacement x y * m = { m with xz := m.xz + x, yz := m.yz + y } := by
  obtain ⟨hx, hy, hz⟩ := h.plane rfl
  ext <;> simp [Motion.displacement, Motion.mul_eq, hx, hy, hz]

theorem Rigid.displaced (h : Rigid .euclidean m) (x y : ℝ) :
    Rigid .euclidean (Motion.displacement x y * m) := by
  rw [h.displacement_mul]
  exact ⟨h.unitX, h.unitY, h.square, h.plane, fun hne => absurd rfl hne⟩

/-- The opposite of a point of the hyperboloid lies on the other sheet. -/
theorem onModel_neg_of_depth (hdepth : p.depth = 1) (hz : p.z ≤ 0) :
    OnModel .hyperbolic ⟨-p.x, -p.y, -p.z⟩ := by
  simp only [Point.depth] at hdepth
  refine ⟨?_, by simp only [Point.depth]; linarith⟩
  have hne : p.z ≠ 0 := fun hzero => by
    rw [hzero] at hdepth
    linarith [mul_self_nonneg p.x, mul_self_nonneg p.y]
  exact neg_pos.mpr (lt_of_le_of_ne hz hne)

/-- A rigid motion of the hyperbolic plane that keeps its sheet is an isometry. -/
theorem Rigid.isIsometry (h : Rigid .hyperbolic m) (hz : 0 < m.zz) : IsIsometry .hyperbolic m := by
  have hcurved : hyperbolic ≠ euclidean := nofun
  have hform := h.form_apply hcurved
  have hdepth (p : Point ℝ) : (m.apply p).depth = p.depth := by
    have hp := hform p p
    simp only [form_eq, sign] at hp
    simp only [Point.depth]
    linarith
  have horigin : OnModel .hyperbolic (m.apply Point.origin) := by
    refine ⟨originImage_eq m ▸ hz, (hdepth _).trans ?_⟩
    simp [Point.depth, Point.origin]
  have honModel (p : Point ℝ) (hp : OnModel .hyperbolic p) : OnModel .hyperbolic (m.apply p) := by
    refine ⟨lt_of_not_ge fun hle => ?_, (hdepth p).trans hp.2⟩
    -- on the other sheet, its opposite would be too close to the image of the origin
    have hopposite := onModel_neg_of_depth ((hdepth p).trans hp.2) hle
    have hnonneg := form_sub_nonneg horigin hopposite
    rw [horigin.form_sub hcurved hopposite] at hnonneg
    have hmixed := hform Point.origin p
    simp only [form_eq, sign, Point.origin, Scalar.real_zero, Scalar.real_one] at hmixed hnonneg
    linarith [hp.1]
  refine ⟨honModel, fun p q hp hq => ?_⟩
  rw [dist_hyperbolic (honModel p hp) (honModel q hq), dist_hyperbolic hp hq,
    (honModel p hp).form_sub hcurved (honModel q hq), hp.form_sub hcurved hq, hform]

theorem IsIsometry.mul (hm : s.IsIsometry m) (hn : s.IsIsometry n) : s.IsIsometry (m * n) := by
  constructor
  · intro p hp
    rw [Motion.mul_apply]
    exact hm.onModel _ (hn.onModel p hp)
  · intro p q hp hq
    rw [Motion.mul_apply, Motion.mul_apply, hm.dist_eq _ _ (hn.onModel p hp) (hn.onModel q hq),
      hn.dist_eq p q hp hq]

theorem isIsometry_one : s.IsIsometry 1 where
  onModel p hp := by rwa [Motion.one_apply]
  dist_eq p q _ _ := by rw [Motion.one_apply, Motion.one_apply]

theorem IsIsometry.onModel_originImage (h : IsIsometry .hyperbolic m) :
    OnModel .hyperbolic m.originImage := by
  rw [originImage_eq]
  refine h.onModel _ ⟨?_, ?_⟩ <;> simp [Point.origin, Point.depth]

/-! ### Motions that have not drifted -/

theorem unit_eq {c : Point ℝ} (h : |s.form c c| = 1) : s.unit c = c := by
  simp [unit, h]

theorem reject_eq {c e : Point ℝ} (h : s.form c e = 0) : s.reject c e = c := by
  ext <;> simp [reject, h, Point.scale]

theorem Rigid.straighten_eq (h : Rigid .euclidean m) : m.straighten = m := by
  obtain ⟨hx, hy, hz⟩ := h.plane rfl
  have hX := h.unitX
  have hY := h.unitY
  have hXY := h.square
  simp only [form_eq, Motion.columnX, Motion.columnY, hx, hy, mul_zero, add_zero] at hX hY hXY
  have hlength : √(m.xx ^ 2 + m.yx ^ 2) = 1 := by
    rw [Real.sqrt_eq_one]
    linear_combination hX
  have hlength' : √(m.xy ^ 2 + m.yy ^ 2) = 1 := by
    rw [Real.sqrt_eq_one]
    linear_combination hY
  have hdot : m.xy * m.xx + m.yy * m.yx = 0 := by linear_combination hXY
  have hulp : (Scalar.ulp : ℝ) < 1 := zero_lt_one
  ext <;> simp [Motion.straighten, hlength, hlength', hdot, hx, hy, hz, hulp]

/-- There is nothing to make right in a rigid motion. -/
theorem Rigid.orthonormalize_eq (h : s.Rigid m) : s.orthonormalize m = m := by
  rcases eq_or_ne s .euclidean with rfl | hs
  · exact h.straighten_eq
  · obtain ⟨hz, hxz, hyz⟩ := h.curved hs
    have hsign : |s.sign| = 1 := by cases s <;> simp [sign]
    have hunitZ : s.unit m.originImage = m.originImage := unit_eq (by rw [hz, hsign])
    have hunitX : s.unit m.columnX = m.columnX := unit_eq (by rw [h.unitX, abs_one])
    have hunitY : s.unit m.columnY = m.columnY := unit_eq (by rw [h.unitY, abs_one])
    have hsquare : s.form m.columnY m.columnX = 0 := (form_comm s _ _).trans h.square
    have heq : s.orthonormalize m =
        Motion.ofColumns (s.unit (s.reject m.columnX (s.unit m.originImage)))
          (s.unit (s.reject (s.reject m.columnY (s.unit m.originImage))
            (s.unit (s.reject m.columnX (s.unit m.originImage))))) (s.unit m.originImage) := by
      cases s with
      | euclidean => exact absurd rfl hs
      | hyperbolic | spherical => rfl
    rw [heq, hunitZ, reject_eq hxz, reject_eq hyz, hunitX, reject_eq hsquare, hunitY]
    rfl

end Space

end

end Mosaic
