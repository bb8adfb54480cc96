import Mosaic.Proofs.Anchor.Crossing

/-!
# Anchor — settling keeps the placement

Over the real numbers a placement lies where it lay before it is settled: the frame of its cell
times its offset is the same motion (`Lattice.settle_keeps_placement`).  In the hyperbolic plane
that is a fact about mirrors and words (`Kaleidoscope.frame_mul_reflected`); in the plane the number
of the square that is added to the name of the cell is taken off the offset, as long as there is one
(`Lattice.Within`).
-/

namespace Mosaic

noncomputable section

namespace Lattice

open Word

variable {l : Lattice ℝ} {s : Space} {t : Motion ℝ}

/-! ### Squares of the plane -/

/-- The number of the square of a coordinate, if there were no end of numbers. -/
def squareNumber (c : ℝ) : ℤ := ⌊c + 0.261⌋

/-- The square that contains the coordinate `c`, seen from the square `x`, is not past an end of the
range, and neither is the way back. -/
structure Within (x : Int64) (c : ℝ) : Prop where
  way : -2 ^ 63 < (squareOf c).toInt
  goal_lo : -2 ^ 63 ≤ x.toInt + (squareOf c).toInt
  goal_hi : x.toInt + (squareOf c).toInt < 2 ^ 63

theorem Within.toInt_add {x : Int64} {c : ℝ} (h : Within x c) :
    (x + squareOf c).toInt = x.toInt + (squareOf c).toInt := by
  rw [Int64.toInt_add, Int.bmod_eq_of_le h.goal_lo h.goal_hi]

theorem Within.toInt_neg {x : Int64} {c : ℝ} (h : Within x c) :
    (-squareOf c).toInt = -(squareOf c).toInt := by
  have hway := h.way
  have hlt := Int64.toInt_lt (squareOf c)
  rw [Int64.toInt_neg, Int.bmod_eq_of_le (by omega) (by omega)]

theorem toInt_squareOf {c : ℝ} (hlo : -2 ^ 63 ≤ squareNumber c) (hhi : squareNumber c < 2 ^ 63) :
    (squareOf c).toInt = squareNumber c := by
  have htruncate : Exact.truncate ((squareNumber c : ℤ) : ℝ) = squareNumber c := by
    unfold Exact.truncate
    split
    · exact Int.floor_intCast _
    · exact Int.ceil_intCast _
  have hmin : Int64.minValue.toInt ≤ squareNumber c := hlo
  have hmax : squareNumber c ≤ Int64.maxValue.toInt := Int.le_of_lt_add_one hhi
  change (Exact.toInt64 ((squareNumber c : ℤ) : ℝ)).toInt = _
  rw [Exact.toInt64, htruncate, max_eq_left hmin, min_eq_left hmax,
    Int64.toInt_ofInt_of_le hlo hhi]

theorem squareOf_eq {c : ℝ} {n : Int64} (h : squareNumber c = n.toInt) : squareOf c = n :=
  Int64.toInt_inj.mp ((toInt_squareOf (h ▸ n.le_toInt) (h ▸ n.toInt_lt)).trans h)

/-- What is left of a coordinate lies in the base square. -/
theorem sub_squareNumber (c : ℝ) :
    -0.261 ≤ c - squareNumber c ∧ c - squareNumber c < 0.739 := by
  have hle := Int.floor_le (c + 0.261)
  have hlt := Int.lt_floor_add_one (c + 0.261)
  unfold squareNumber
  constructor <;> linarith

/-- Displacements of the plane add up. -/
theorem displacement_mul_displacement (x y x' y' : ℝ) :
    Motion.displacement x y * Motion.displacement x' y' =
      Motion.displacement (x + x') (y + y') := by
  ext <;> simp [Motion.displacement, Motion.mul_eq, add_comm]

theorem settle_grid (hl : l.space = .euclidean) (ht : Space.Rigid .euclidean t) {x y : Int64}
    (hx : Within x t.xz) (hy : Within y t.yz) :
    l.settle (.grid x y) t = ⟨.grid (x + squareOf t.xz) (y + squareOf t.yz),
      Motion.displacement (-((squareOf t.xz).toInt : ℝ)) (-((squareOf t.yz).toInt : ℝ)) * t⟩ := by
  obtain ⟨-, -, hz⟩ := ht.plane rfl
  have hmotion : (gridMotion (-squareOf t.xz) (-squareOf t.yz) : Motion ℝ) =
      Motion.displacement (-((squareOf t.xz).toInt : ℝ)) (-((squareOf t.yz).toInt : ℝ)) := by
    unfold gridMotion
    rw [hx.toInt_neg, hy.toInt_neg]
    exact congrArg₂ Motion.displacement (Int.cast_neg _) (Int.cast_neg _)
  simp only [settle, hl, hz, div_one, hmotion, (ht.displaced _ _).orthonormalize_eq]

theorem settle_cell {w w' : Word} {t' : Motion ℝ} (h : l.cross maxCrossings w t = (w', t')) :
    l.settle (.cell w) t = ⟨.cell w'.normalForm, l.space.orthonormalize t'⟩ := by
  simp only [settle, h]

end Lattice

/-- The cell is one of the lattice of the space, and squares are not numbered past the ends of the
range on the way to the cell of the placement. -/
def AnchorKey.Admits (s : Space) (t : Motion ℝ) : AnchorKey → Prop
  | .grid x y => s = .euclidean ∧ Lattice.Within x t.xz ∧ Lattice.Within y t.yz
  | .cell _ => s = .hyperbolic
  | .globe => s = .spherical

namespace Lattice

/-- **Settling keeps the placement.** In exact arithmetic the frame of the cell times the offset is
the motion it was before, for every isometry and every cell of the lattice of its space.  In the
hyperbolic plane that does not depend on the sides that the loop crosses, nor on whether it comes to
its end.  In the plane the centre of the offset lies in the base square, as long as there is a
number for the square. -/
theorem settle_keeps_placement {key : AnchorKey} (ht : s.IsIsometry t) (hkey : key.Admits s t) :
    let l : Lattice ℝ := ofSpace s
    let place := l.settle key t
    l.frame place.key * place.offset = l.frame key * t ∧
    (s = .euclidean →
      -2 ^ 63 ≤ squareNumber t.xz → squareNumber t.xz < 2 ^ 63 →
      -2 ^ 63 ≤ squareNumber t.yz → squareNumber t.yz < 2 ^ 63 →
      place.offset.zz = 1 ∧
      -0.261 ≤ place.offset.xz ∧ place.offset.xz < 0.739 ∧
      -0.261 ≤ place.offset.yz ∧ place.offset.yz < 0.739) ∧
    (s = .hyperbolic → ∀ w : Word,
      (∀ fuel, ∃ g : Word, g.length ≤ fuel ∧
        l.cross fuel w t = (g.foldl Word.push w, l.reflected g t)) ∧
      ∀ g : Word, l.frame (.cell (g.foldl Word.push w).normalForm) *
        s.orthonormalize (l.reflected g t) = l.frame (.cell w) * t) := by
  intro l place
  have hrigid := ht.rigid
  have hmirrors : l.Kaleidoscope := kaleidoscope s
  have hcells (hs : s = .hyperbolic) (w g : Word) :
      l.frame (.cell (g.foldl Word.push w).normalForm) * s.orthonormalize (l.reflected g t) =
        l.frame (.cell w) * t := by
    subst hs
    rw [(hmirrors.rigid_reflected g hrigid).orthonormalize_eq, hmirrors.frame_mul_reflected]
  refine ⟨?_, fun hs hxlo hxhi hylo hyhi => ?_,
    fun hs w => ⟨fun fuel => l.cross_eq fuel w t, hcells hs w⟩⟩
  · cases key with
    | grid x y =>
      obtain ⟨rfl, hx, hy⟩ := hkey
      have hplace := settle_grid (l := l) rfl hrigid hx hy
      rw [show place = _ from hplace, ← mul_assoc]
      simp only [frame, gridMotion, displacement_mul_displacement, hx.toInt_add, hy.toInt_add]
      congr 2
      · exact (congrArg (· + _) (Int.cast_add _ _)).trans (add_neg_cancel_right _ _)
      · exact (congrArg (· + _) (Int.cast_add _ _)).trans (add_neg_cancel_right _ _)
    | cell w =>
      obtain ⟨g, -, hg⟩ := l.cross_eq maxCrossings w t
      rw [show place = _ from settle_cell hg]
      exact hcells hkey w g
    | globe =>
      change l.frame .globe * s.orthonormalize t = _
      rw [hrigid.orthonormalize_eq]
  · subst hs
    cases key with
    | grid x y =>
      obtain ⟨-, hx, hy⟩ := hkey
      have hplace := settle_grid (l := l) rfl hrigid hx hy
      rw [show place = _ from hplace, hrigid.displacement_mul, toInt_squareOf hxlo hxhi,
        toInt_squareOf hylo hyhi]
      have hxbase := sub_squareNumber t.xz
      have hybase := sub_squareNumber t.yz
      exact ⟨(hrigid.plane rfl).2.2, hxbase.1, hxbase.2, hybase.1, hybase.2⟩
    | cell w => cases hkey
    | globe => cases hkey

/-- From the pentagon across the side `4`, a centre that lies across the sides `0` and `2` in turn:
the letters `4` and `0` change places in the name of its cell. -/
theorem settle_across : (ofSpace .hyperbolic : Lattice ℝ).settle (.cell [4])
    ((ofSpace .hyperbolic).wordMotion [0, 2]) = ⟨.cell [0, 4, 2], 1⟩ := by
  have hname : Word.normalForm [4, 0, 2] = [0, 4, 2] := by decide
  rw [settle_cell (cross_wordMotion straight_across (by decide))]
  exact congrArg₂ Placement.mk (congrArg AnchorKey.cell hname)
    Space.isIsometry_one.rigid.orthonormalize_eq

/-- In the plane, from the square `(1, 1)` by a displacement of `(5.3, -2.2)`, and in the hyperbolic
plane across two sides. -/
theorem settle_keeps_placement_plane_pentagons :
    (let l : Lattice ℝ := ofSpace .euclidean
     let t : Motion ℝ := Motion.displacement 5.3 (-2.2)
     let place := l.settle (.grid 1 1) t
     place.key = .grid 6 (-1) ∧
     l.frame (.grid 6 (-1)) * place.offset = l.frame (.grid 1 1) * t ∧
     -0.261 ≤ place.offset.xz ∧ place.offset.xz < 0.739) ∧
    (let l : Lattice ℝ := ofSpace .hyperbolic
     let t : Motion ℝ := l.wordMotion [0, 2]
     let place := l.settle (.cell [4]) t
     place.key = .cell [0, 4, 2] ∧
     l.frame (.cell [0, 4, 2]) * place.offset = l.frame (.cell [4]) * t) := by
  constructor
  · intro l t place
    have hsquareX : squareNumber t.xz = 5 := by
      change ⌊(5.3 : ℝ) + 0.261⌋ = 5
      rw [Int.floor_eq_iff]
      norm_num
    have hsquareY : squareNumber t.yz = -2 := by
      change ⌊(-2.2 : ℝ) + 0.261⌋ = -2
      rw [Int.floor_eq_iff]
      norm_num
    have hx : squareOf t.xz = 5 := squareOf_eq hsquareX
    have hy : squareOf t.yz = -2 := squareOf_eq hsquareY
    have hisometry : Space.IsIsometry .euclidean t := Space.isIsometry_displacement _ _
    have hkey : AnchorKey.Admits .euclidean t (.grid 1 1) :=
      ⟨rfl, by constructor <;> rw [hx] <;> decide, by constructor <;> rw [hy] <;> decide⟩
    obtain ⟨hkeeps, hbase, -⟩ := settle_keeps_placement hisometry hkey
    obtain ⟨-, hlo, hhi, -⟩ := hbase rfl (by rw [hsquareX]; norm_num) (by rw [hsquareX]; norm_num)
      (by rw [hsquareY]; norm_num) (by rw [hsquareY]; norm_num)
    have hplace : place.key = .grid 6 (-1) := by
      have hgrid := settle_grid (l := l) rfl hisometry.rigid hkey.2.1 hkey.2.2
      rw [show place = _ from hgrid, hx, hy]
      decide
    exact ⟨hplace, hplace ▸ hkeeps, hlo, hhi⟩
  · intro l t place
    have hkey : place.key = .cell [0, 4, 2] := congrArg Placement.key settle_across
    have hadmits : AnchorKey.Admits .hyperbolic t (.cell [4]) := rfl
    obtain ⟨hkeeps, -⟩ := settle_keeps_placement (isIsometry_wordMotion [0, 2]) hadmits
    exact ⟨hkey, hkey ▸ hkeeps⟩

end Lattice

end

end Mosaic
