import Mosaic.Proofs.Anchor.Mirrors

/-!
# Anchor — sides that are crossed

The loop that settles a placement crosses the side that its centre lies farthest beyond, as long as
there is one (`Lattice.cross_eq`).  Over the real numbers the side that all others fall behind is
the one it crosses (`Lattice.farthestSide_eq`), and a placement whose centre was reflected by a word
of mirrors comes back across the same sides when each of them is the farthest in its turn
(`Lattice.cross_wordMotion`).
-/

namespace Mosaic

noncomputable section

namespace Lattice

open Word

variable {l : Lattice ℝ} {t : Motion ℝ} {p : Point ℝ} {g w : Word} {fuel : Nat}

/-- The loop that settles a placement crosses some sides, as many as it may at most. -/
theorem cross_eq (l : Lattice ℝ) (fuel : Nat) (w : Word) (t : Motion ℝ) :
    ∃ g : Word, g.length ≤ fuel ∧ l.cross fuel w t = (g.foldl push w, l.reflected g t) := by
  induction fuel generalizing w t with
  | zero => exact ⟨[], Nat.le_refl _, rfl⟩
  | succ fuel ih =>
    unfold cross
    dsimp only
    split
    · obtain ⟨g, hlength, hg⟩ := ih (w.push (l.farthestSide (l.space.normalize t.originImage)).1)
        (l.mirrors.get (l.farthestSide (l.space.normalize t.originImage)).1 * t)
      exact ⟨_ :: g, Nat.succ_le_succ hlength, hg⟩
    · exact ⟨[], Nat.zero_le _, rfl⟩

/-! ### The farthest side -/

/-- The one of two sides that a point lies farther beyond, the first one if it is a draw. -/
def farther (l : Lattice ℝ) (p : Point ℝ) (best : Side × ℝ) (i : Side) : Side × ℝ :=
  if best.2 < lorentz (l.walls.get i) p then (i, lorentz (l.walls.get i) p) else best

theorem farthestSide_foldl (l : Lattice ℝ) (p : Point ℝ) : l.farthestSide p =
    (List.finRange 5).foldl (l.farther p) (Side.first, -Scalar.infinity) := rfl

/-- Once the search has come to a side that all others fall behind, it stays there. -/
theorem foldl_farther_eq {i : Side} (sides : List Side) {best : Side × ℝ}
    (h : ∀ j ≠ i, lorentz (l.walls.get j) p < lorentz (l.walls.get i) p)
    (hbest : best = (i, lorentz (l.walls.get i) p) ∨
      i ∈ sides ∧ best.2 < lorentz (l.walls.get i) p) :
    sides.foldl (l.farther p) best = (i, lorentz (l.walls.get i) p) := by
  induction sides generalizing best with
  | nil =>
    rcases hbest with rfl | ⟨hmem, -⟩
    · rfl
    · cases hmem
  | cons j sides ih =>
    refine ih ?_
    unfold farther
    rcases eq_or_ne j i with rfl | hj
    · rcases hbest with rfl | ⟨-, hlt⟩
      · exact .inl (if_neg (lt_irrefl _))
      · exact .inl (if_pos hlt)
    · rcases hbest with rfl | ⟨hmem, hlt⟩
      · exact .inl (if_neg (h j hj).not_gt)
      · refine .inr ⟨(List.mem_cons.mp hmem).resolve_left hj.symm, ?_⟩
        split
        · exact h j hj
        · exact hlt

/-- A side that a point lies farther beyond than all others is the farthest one. -/
theorem farthestSide_eq {i : Side} (hpos : -Scalar.infinity < lorentz (l.walls.get i) p)
    (h : ∀ j ≠ i, lorentz (l.walls.get j) p < lorentz (l.walls.get i) p) :
    l.farthestSide p = (i, lorentz (l.walls.get i) p) :=
  foldl_farther_eq _ h (.inr ⟨List.mem_finRange i, hpos⟩)

/-- A point lies no farther beyond the farthest side than a bound for all sides. -/
theorem farthestSide_le {b : ℝ} (hb : -Scalar.infinity ≤ b)
    (h : ∀ j, lorentz (l.walls.get j) p ≤ b) : (l.farthestSide p).2 ≤ b := by
  rw [farthestSide_foldl]
  refine List.foldlRecOn _ _ (motive := fun best : Side × ℝ => best.2 ≤ b) hb fun _ hbest j _ => ?_
  unfold farther
  split
  · exact h j
  · exact hbest

/-! ### Words of mirrors, seen from the pentagon -/

/-- Reflection in a line, seen from another one. -/
theorem lorentz_reflection (n m p : Point ℝ) :
    lorentz m ((reflection n).apply p) = lorentz m p - 2 * lorentz m n * lorentz n p := by
  simp only [lorentz, reflection, Motion.apply, Scalar.real_zero, Scalar.real_one]
  ring

/-- How far beyond a side the centre lies after it is reflected by a word of mirrors. -/
def beyond (g : Word) (i : Side) : ℝ :=
  lorentz (wall i) ((ofSpace .hyperbolic : Lattice ℝ).wordMotion g).originImage

theorem beyond_nil (i : Side) : beyond [] i = -Real.sinh inradius := by
  rw [beyond, Space.originImage_eq, wall_eq]
  change lorentz _ ((1 : Motion ℝ).apply _) = _
  rw [Motion.one_apply]
  simp [lorentz, Point.origin]

theorem beyond_cons (j : Side) (g : Word) (i : Side) :
    beyond (j :: g) i = beyond g i - 2 * lorentz (wall i : Point ℝ) (wall j) * beyond g j := by
  simp only [beyond, Space.originImage_eq]
  rw [wordMotion_cons, Motion.mul_apply, mirror_eq, lorentz_reflection]

/-- A mirror takes the centre to the other side of its line. -/
theorem beyond_cons_self (i : Side) (g : Word) : beyond (i :: g) i = -beyond g i := by
  rw [beyond_cons, lorentz_wall_self]
  ring

/-- Reflected away from the pentagon, the centre lies no farther beyond the other sides. -/
theorem beyond_cons_le {i j : Side} (hij : j ≠ i) (h : beyond g i ≤ 0) :
    beyond (i :: g) j ≤ beyond g j := by
  rw [beyond_cons]
  nlinarith [lorentz_wall_nonpos hij]

/-- Words of mirrors are isometries. -/
theorem isIsometry_wordMotion (g : Word) :
    Space.IsIsometry .hyperbolic ((ofSpace .hyperbolic : Lattice ℝ).wordMotion g) := by
  induction g with
  | nil => exact Space.isIsometry_one
  | cons i g ih =>
    rw [wordMotion_cons, mirror_eq]
    refine Space.IsIsometry.mul ((rigid_reflection (lorentz_wall_self i)).isIsometry ?_) ih
    simp only [reflection, Scalar.real_one]
    nlinarith [mul_self_nonneg (wall i : Point ℝ).z]

/-- Each letter is the side that the centre lies farthest beyond after the letters behind it. -/
def Straight : Word → Prop
  | [] => True
  | i :: g => Scalar.tolerance < beyond (i :: g) i ∧
      (∀ j ≠ i, beyond (i :: g) j < beyond (i :: g) i) ∧ Straight g

/-- A reflected centre comes back across the sides of its word. -/
theorem cross_wordMotion (hg : Straight g) (hfuel : g.length ≤ fuel) :
    let l : Lattice ℝ := ofSpace .hyperbolic
    l.cross fuel w (l.wordMotion g) = (g.foldl push w, 1) := by
  intro l
  have hbeyond (g : Word) (i : Side) :
      lorentz (l.walls.get i) (l.space.normalize (l.wordMotion g).originImage) = beyond g i := by
    rw [wall_get, beyond]
    congr 1
    exact Space.normalize_of_onModel (isIsometry_wordMotion g).onModel_originImage
  have htolerance : (0 : ℝ) < Scalar.tolerance := by
    simp only [Scalar.tolerance]
    norm_num
  have hinfinity : -(Scalar.infinity : ℝ) < 0 := neg_neg_of_pos (pow_pos two_pos 1024)
  induction g generalizing w fuel with
  | nil =>
    have hle : (l.farthestSide (l.space.normalize (l.wordMotion []).originImage)).2 ≤ 0 := by
      refine farthestSide_le hinfinity.le fun j => ?_
      rw [hbeyond, beyond_nil]
      linarith [half_le_sinh_inradius]
    cases fuel with
    | zero => rfl
    | succ fuel => exact if_neg (hle.trans htolerance.le).not_gt
  | cons i g ih =>
    obtain ⟨hlt, hfar, hg⟩ := hg
    obtain ⟨fuel, rfl⟩ := Nat.exists_eq_add_of_le' (Nat.one_le_of_lt hfuel)
    have hside : l.farthestSide (l.space.normalize (l.wordMotion (i :: g)).originImage) =
        (i, beyond (i :: g) i) := by
      rw [farthestSide_eq (i := i)]
      · rw [hbeyond]
      · rw [hbeyond]
        exact hinfinity.trans (htolerance.trans hlt)
      · intro j hj
        rw [hbeyond, hbeyond]
        exact hfar j hj
    have hback : l.mirrors.get i * l.wordMotion (i :: g) = l.wordMotion g := by
      rw [wordMotion_cons, ← mul_assoc, (kaleidoscope _).involutive, one_mul]
    rw [cross, hside]
    dsimp only
    rw [if_pos hlt, hback]
    exact ih hg (Nat.le_of_succ_le_succ hfuel)

/-- Reflected in the side `2` and then in the side `0`, which do not meet, the centre comes back
across `0` and then across `2`. -/
theorem straight_across : Straight [0, 2] := by
  have hsinh := half_le_sinh_inradius
  have hgolden := Real.goldenRatio_pos
  have hnil (i : Side) : beyond [] i < 0 := by
    rw [beyond_nil]
    linarith
  have hown : beyond [2] 2 = Real.sinh inradius := by
    rw [beyond_cons_self, beyond_nil, neg_neg]
  have hother (j : Side) (hj : j ≠ 2) : beyond [2] j < 0 :=
    (beyond_cons_le hj (hnil 2).le).trans_lt (hnil j)
  have hopposite : beyond [0, 2] 0 = Real.sinh inradius * (1 + 2 * Real.goldenRatio) := by
    have hapart : lorentz (wall 0 : Point ℝ) (wall 2) = -Real.goldenRatio := lorentz_wall_apart 0
    rw [beyond_cons_self, beyond_cons, beyond_nil, beyond_nil, hapart]
    ring
  have htolerance : (Scalar.tolerance : ℝ) < 1 / 2 := by
    simp only [Scalar.tolerance]
    norm_num
  have hfirst : Real.sinh inradius < beyond [0, 2] 0 := by
    rw [hopposite]
    nlinarith
  refine ⟨by linarith, fun j hj => ?_, hown ▸ by linarith, fun j hj => ?_, trivial⟩
  · refine (beyond_cons_le hj (hother 0 (by decide)).le).trans_lt (lt_of_le_of_lt ?_ hfirst)
    rcases eq_or_ne j 2 with rfl | hj
    · exact hown.le
    · linarith [hother j hj]
  · rw [hown]
    linarith [hother j hj]

end Lattice

end

end Mosaic
