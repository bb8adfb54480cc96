import Mathlib
import Mosaic.Proofs.Anchor.WordProblem
import Mosaic.Anchor.Lattice
import Mosaic.Proofs.Plane.Isometry

/-!
# Anchor — the mirrors of the pentagon

In exact arithmetic the mirrors of the sides of a right-angled pentagon are involutions, and those
of sides that follow each other commute (`Lattice.Kaleidoscope`), so that a word of mirrors depends
on the word up to the relations of the pentagon group only (`Kaleidoscope.wordMotion_congr`).
Crossing a side adds its letter to the word and its mirror to the motion, and the two cancel,
whichever sides are crossed (`Kaleidoscope.frame_mul_reflected`).  The pentagon of
`Lattice.ofSpace` is one: its sides are perpendicular where they meet, and apart by the golden
ratio where they do not (`Lattice.kaleidoscope`, `Lattice.lorentz_wall_apart`).
-/

namespace Mosaic

noncomputable section

namespace Lattice

open Word

variable {l : Lattice ℝ} {t : Motion ℝ}

/-! ### Words of mirrors -/

/-- The mirrors of the sides of a right-angled pentagon. -/
structure Kaleidoscope (l : Lattice ℝ) : Prop where
  involutive : ∀ i, l.mirrors.get i * l.mirrors.get i = 1
  commute : ∀ i : Side, Commute (l.mirrors.get i) (l.mirrors.get i.next)
  rigid : ∀ i, Space.Rigid .hyperbolic (l.mirrors.get i)

theorem wordMotion_eq (l : Lattice ℝ) (w : Word) : l.wordMotion w = (w.map l.mirrors.get).prod := by
  rw [List.prod_eq_foldl, List.foldl_map]
  rfl

theorem wordMotion_append (l : Lattice ℝ) (u v : Word) :
    l.wordMotion (u ++ v) = l.wordMotion u * l.wordMotion v := by
  simp only [wordMotion_eq, List.map_append, List.prod_append]

theorem wordMotion_cons (l : Lattice ℝ) (c : Side) (w : Word) :
    l.wordMotion (c :: w) = l.mirrors.get c * l.wordMotion w := by
  simp only [wordMotion_eq, List.map_cons, List.prod_cons]

/-- The placement that is seen from the cell on the other side of each of the given sides, crossed
one after another. -/
def reflected (l : Lattice ℝ) (g : Word) (t : Motion ℝ) : Motion ℝ :=
  g.foldl (fun t i => l.mirrors.get i * t) t

namespace Kaleidoscope

/-- Words that are equivalent in the pentagon group have one motion. -/
theorem wordMotion_congr (hl : l.Kaleidoscope) {u v : Word} (h : Equivalent u v) :
    l.wordMotion u = l.wordMotion v := by
  induction h with
  | rel u v h =>
    cases h with
    | cancel x y c =>
      rw [wordMotion_append, wordMotion_append, wordMotion_cons, wordMotion_cons, ← mul_assoc _ _
        (l.wordMotion y), hl.involutive, one_mul]
    | @swap x y a b h =>
      have hcomm : Commute (l.mirrors.get a) (l.mirrors.get b) := by
        rcases h with rfl | rfl
        · exact hl.commute a
        · exact (hl.commute b).symm
      simp only [wordMotion_append, wordMotion_cons]
      rw [← mul_assoc (l.mirrors.get a), hcomm.eq, mul_assoc]
  | refl u => rfl
  | symm u v _ ih => exact ih.symm
  | trans u v w _ _ ih₁ ih₂ => exact ih₁.trans ih₂

/-- Crossing a side is undone by the letter that is added for it. -/
theorem wordMotion_mul_reflected (hl : l.Kaleidoscope) (w g : Word) (t : Motion ℝ) :
    l.wordMotion (w ++ g) * l.reflected g t = l.wordMotion w * t := by
  induction g generalizing w t with
  | nil => rw [List.append_nil, reflected, List.foldl_nil]
  | cons c g ih =>
    have h := ih (w ++ [c]) (l.mirrors.get c * t)
    rw [List.append_assoc, List.singleton_append] at h
    change l.wordMotion (w ++ c :: g) * l.reflected g (l.mirrors.get c * t) = _
    rw [h, wordMotion_append, wordMotion_eq l [c], List.map_singleton, List.prod_singleton,
      mul_assoc, ← mul_assoc (l.mirrors.get c), hl.involutive, one_mul]

/-- Whichever sides are crossed, the name of the cell and the motion seen from it stand for the same
placement. -/
theorem frame_mul_reflected (hl : l.Kaleidoscope) (w g : Word) (t : Motion ℝ) :
    l.frame (.cell (g.foldl push w).normalForm) * l.reflected g t = l.frame (.cell w) * t := by
  have hpush : Equivalent (w ++ g) (g.foldl push w) := by
    have h := (equivalent_foldl_reflect g w.reverse).reverse
    rw [← reverse_foldl_push] at h
    simpa using h
  change l.wordMotion _ * _ = l.wordMotion w * t
  rw [← hl.wordMotion_mul_reflected w g t,
    hl.wordMotion_congr (hpush.trans (shuffle_normalForm _).equivalent)]

/-- Mirrors take isometries to isometries. -/
theorem rigid_reflected (hl : l.Kaleidoscope) (g : Word) (ht : Space.Rigid .hyperbolic t) :
    Space.Rigid .hyperbolic (l.reflected g t) := by
  induction g generalizing t with
  | nil => exact ht
  | cons c g ih => exact ih ((hl.rigid c).mul (nomatch ·) ht)

end Kaleidoscope

/-! ### The mirrors of the pentagon -/

section Reflection

variable {n m : Point ℝ}

theorem reflection_mul_reflection (h : lorentz n n = 1) : reflection n * reflection n = 1 := by
  simp only [lorentz] at h
  ext <;> simp only [reflection, Motion.mul_eq, Motion.one_eq, Scalar.real_zero, Scalar.real_one]
  · linear_combination 4 * n.x * n.x * h
  · linear_combination 4 * n.x * n.y * h
  · linear_combination -4 * n.x * n.z * h
  · linear_combination 4 * n.x * n.y * h
  · linear_combination 4 * n.y * n.y * h
  · linear_combination -4 * n.y * n.z * h
  · linear_combination 4 * n.x * n.z * h
  · linear_combination 4 * n.y * n.z * h
  · linear_combination -4 * n.z * n.z * h

/-- Reflections in lines that are perpendicular commute. -/
theorem commute_reflection (h : lorentz n m = 0) : Commute (reflection n) (reflection m) := by
  simp only [lorentz] at h
  ext <;> simp only [reflection, Motion.mul_eq, Scalar.real_zero, Scalar.real_one]
  · ring
  · linear_combination 4 * (n.x * m.y - m.x * n.y) * h
  · linear_combination 4 * (m.x * n.z - n.x * m.z) * h
  · linear_combination 4 * (n.y * m.x - m.y * n.x) * h
  · ring
  · linear_combination 4 * (m.y * n.z - n.y * m.z) * h
  · linear_combination 4 * (n.z * m.x - m.z * n.x) * h
  · linear_combination 4 * (n.z * m.y - m.z * n.y) * h
  · ring

theorem rigid_reflection (h : lorentz n n = 1) : Space.Rigid .hyperbolic (reflection n) := by
  simp only [lorentz] at h
  refine ⟨?_, ?_, ?_, (nomatch ·), fun _ => ⟨?_, ?_, ?_⟩⟩ <;>
    simp only [Space.form_eq, Space.sign, reflection, Motion.columnX, Motion.columnY,
      Motion.originImage, Scalar.real_zero, Scalar.real_one]
  · linear_combination 4 * n.x * n.x * h
  · linear_combination 4 * n.y * n.y * h
  · linear_combination 4 * n.x * n.y * h
  · linear_combination 4 * n.z * n.z * h
  · linear_combination -4 * n.x * n.z * h
  · linear_combination -4 * n.y * n.z * h

end Reflection

/-- The direction of a side of the central pentagon. -/
theorem wall_eq (i : Side) : (wall i : Point ℝ) =
    ⟨Real.cosh inradius * Real.cos (2 * Real.pi * i.val / 5),
      Real.cosh inradius * Real.sin (2 * Real.pi * i.val / 5), Real.sinh inradius⟩ := by
  simp only [wall, Scalar.tau]
  rfl

/-- The pentagon has a centre that its sides are away from. -/
theorem exists_inradius : 1 ≤ Real.cos (Real.pi / 4) / Real.sin (Real.pi / 5) ∧
    (inradius : ℝ) = Real.arcosh (Real.cos (Real.pi / 4) / Real.sin (Real.pi / 5)) := by
  have hpi := Real.pi_pos
  have hpos : 0 < Real.sin (Real.pi / 5) :=
    Real.sin_pos_of_pos_of_lt_pi (by positivity) (by linarith)
  have hle : Real.sin (Real.pi / 5) ≤ Real.cos (Real.pi / 4) := by
    rw [Real.cos_pi_div_four, ← Real.sin_pi_div_four]
    exact Real.sin_le_sin_of_le_of_le_pi_div_two (by linarith) (by linarith) (by linarith)
  refine ⟨(one_le_div hpos).mpr hle, ?_⟩
  simp only [inradius]
  rfl

theorem cos_two_fifths : Real.cos (2 * Real.pi / 5) = (Real.goldenRatio - 1) / 2 := by
  have hsquare := Real.goldenRatio_sq
  have hfifth : Real.cos (Real.pi / 5) = Real.goldenRatio / 2 := by
    rw [Real.cos_pi_div_five, Real.goldenRatio]
    ring
  rw [mul_div_assoc, Real.cos_two_mul, hfifth]
  linear_combination hsquare / 2

/-- The hyperbolic cosine of the distance from the centre of the pentagon to its sides. -/
theorem cosh_inradius_sq :
    Real.cosh inradius ^ 2 * (1 - Real.cos (2 * Real.pi / 5)) = 1 := by
  obtain ⟨hone, hinradius⟩ := exists_inradius
  have hsin : Real.sin (Real.pi / 5) ≠ 0 := fun hzero => by norm_num [hzero] at hone
  have hdouble : Real.cos (2 * Real.pi / 5) = 1 - 2 * Real.sin (Real.pi / 5) ^ 2 := by
    rw [mul_div_assoc, Real.cos_two_mul, Real.cos_sq']
    ring
  have hsquare : Real.cos (Real.pi / 4) ^ 2 = 1 / 2 := by
    rw [Real.cos_pi_div_four, div_pow, Real.sq_sqrt zero_le_two]
    norm_num
  rw [hinradius, Real.cosh_arcosh hone, div_pow, hsquare, hdouble]
  field_simp
  ring

/-- The centre of the pentagon is well inside of it. -/
theorem half_le_sinh_inradius : 1 / 2 ≤ Real.sinh inradius := by
  obtain ⟨hone, hinradius⟩ := exists_inradius
  have hnonneg : 0 ≤ Real.sinh inradius :=
    Real.sinh_nonneg_iff.mpr (hinradius ▸ Real.arcosh_nonneg hone)
  have hcosh := cosh_inradius_sq
  have hsheet := Real.cosh_sq (inradius : ℝ)
  rw [cos_two_fifths] at hcosh
  have hgolden : 3 / 2 < Real.goldenRatio := by
    rw [Real.goldenRatio]
    have hroot : 2 < √5 := Real.lt_sqrt_of_sq_lt (by norm_num)
    linarith
  nlinarith

/-- Sides that are `n` turns of the pentagon apart, as their directions from the centre are. -/
theorem lorentz_wall {i j : Side} {n : Nat} (h : j.val = (i.val + n) % 5) :
    lorentz (wall i : Point ℝ) (wall j) =
      Real.cosh inradius ^ 2 * Real.cos (2 * Real.pi * n / 5) - Real.sinh inradius ^ 2 := by
  have hturns : (5 : ℝ) * ((i.val + n) / 5 : ℕ) + j.val = i.val + n := by
    exact_mod_cast h ▸ Nat.div_add_mod (i.val + n) 5
  have hangle : 2 * Real.pi * i.val / 5 - 2 * Real.pi * j.val / 5 =
      ((i.val + n) / 5 : ℕ) * (2 * Real.pi) - 2 * Real.pi * n / 5 := by
    linear_combination -(2 * Real.pi / 5) * hturns
  have hcos := Real.cos_sub (2 * Real.pi * i.val / 5) (2 * Real.pi * j.val / 5)
  rw [hangle, Real.cos_nat_mul_two_pi_sub] at hcos
  rw [wall_eq, wall_eq, hcos]
  simp only [lorentz]
  ring

theorem lorentz_wall_self (i : Side) : lorentz (wall i : Point ℝ) (wall i) = 1 := by
  have hside : i.val = (i.val + 0) % 5 := by omega
  have hsheet := Real.cosh_sq (inradius : ℝ)
  rw [lorentz_wall hside, Nat.cast_zero, mul_zero, zero_div, Real.cos_zero]
  linear_combination hsheet

/-- Sides that follow each other are perpendicular. -/
theorem lorentz_wall_next (i : Side) : lorentz (wall i : Point ℝ) (wall i.next) = 0 := by
  have hcosh := cosh_inradius_sq
  have hsheet := Real.cosh_sq (inradius : ℝ)
  rw [lorentz_wall rfl, Nat.cast_one, mul_one]
  linear_combination hsheet - hcosh

/-- Sides that do not follow each other do not meet. -/
theorem lorentz_wall_apart (i : Side) :
    lorentz (wall i : Point ℝ) (wall i.next.next) = -Real.goldenRatio := by
  have hside : i.next.next.val = (i.val + 2) % 5 := by simp [Side.next]
  have hcosh := cosh_inradius_sq
  have hsheet := Real.cosh_sq (inradius : ℝ)
  have hdouble : Real.cos (2 * Real.pi * (2 : ℕ) / 5) = 2 * Real.cos (2 * Real.pi / 5) ^ 2 - 1 := by
    rw [← Real.cos_two_mul]
    push_cast
    ring_nf
  rw [lorentz_wall hside, hdouble]
  rw [cos_two_fifths] at hcosh ⊢
  linear_combination (-1 - Real.goldenRatio) * hcosh + hsheet

theorem lorentz_comm (p q : Point ℝ) : lorentz p q = lorentz q p := by
  simp only [lorentz]
  ring

/-- The sides of the pentagon face away from each other. -/
theorem lorentz_wall_nonpos {i j : Side} (h : i ≠ j) :
    lorentz (wall i : Point ℝ) (wall j) ≤ 0 := by
  have hapart := neg_nonpos.mpr Real.goldenRatio_pos.le
  have hsides : ∀ i j : Side, i ≠ j → j = i.next ∨ i = j.next ∨ j = i.next.next ∨
      i = j.next.next := by decide
  rcases hsides i j h with rfl | rfl | rfl | rfl
  · exact (lorentz_wall_next i).le
  · exact (lorentz_comm _ _).trans_le (lorentz_wall_next j).le
  · exact (lorentz_wall_apart i).trans_le hapart
  · exact ((lorentz_comm _ _).trans (lorentz_wall_apart j)).trans_le hapart

theorem wall_get (s : Space) (i : Side) : (ofSpace s : Lattice ℝ).walls.get i = wall i := by
  simp [ofSpace, Vector.get, Vector.ofFn]
  rfl

theorem mirror_eq (s : Space) (i : Side) :
    (ofSpace s : Lattice ℝ).mirrors.get i = reflection (wall i) := by
  simp [ofSpace, Vector.get, Vector.ofFn]
  rfl

/-- In exact arithmetic the mirrors are as they should be. -/
theorem kaleidoscope (s : Space) : (ofSpace s : Lattice ℝ).Kaleidoscope where
  involutive i := by rw [mirror_eq]; exact reflection_mul_reflection (lorentz_wall_self i)
  commute i := by rw [mirror_eq, mirror_eq]; exact commute_reflection (lorentz_wall_next i)
  rigid i := by rw [mirror_eq]; exact rigid_reflection (lorentz_wall_self i)

end Lattice

end

end Mosaic
