import Mosaic.Proofs.Scalar.Double
import Mosaic.Tiling.Valence

/-!
# Proofs — Tiling — turns

An angle is reduced to a single turn by one turn after the other, in doubles.  Those between four
and eight, such as a turn, lie one `grain` apart, and up to `farthest` all lie at most `2 ^ 53`
grains apart.  That is little more than a turn, so that most of a turn is left after rounding
(`turn_taken`) and every round brings the angle nearer (`foldWithin_of_near`).  Beyond `farthest`
doubles lie more than two turns apart, so that a turn that is taken is lost in rounding
(`turn_lost`), and no number of rounds is enough (`foldWithin_of_far`).
-/

namespace Mosaic

/-! ### Loops -/

section Loop

variable {α : Type} {p : α → Bool} {f : α → α} {P : α → Prop}

/-- A loop ends where its guard fails if its rounds keep `P` and lower `μ`, all but the last one. -/
theorem applyWhile_ends (μ : α → Nat)
    (hstep : ∀ a, P a → p a = true → P (f a) ∧ (p (f a) = true → μ (f a) < μ a)) {fuel : Nat}
    {a : α} (ha : P a) (hfuel : μ a + 1 < fuel) :
    ∃ b, applyWhile p f fuel a = some b ∧ P b ∧ p b = false := by
  induction fuel generalizing a with
  | zero => exact absurd hfuel (Nat.not_lt_zero _)
  | succ fuel ih =>
      rw [applyWhile]
      cases hp : p a with
      | false => exact ⟨a, rfl, ha, hp⟩
      | true =>
          obtain ⟨hb, hlt⟩ := hstep a ha hp
          cases hp' : p (f a) with
          | true => exact ih hb (by have := hlt hp'; omega)
          | false =>
              obtain ⟨fuel, rfl⟩ := Nat.exists_eq_succ_of_ne_zero (n := fuel) (by omega)
              exact ⟨f a, by simp [applyWhile, hp'], hb, hp'⟩

/-- A loop whose guard holds again after every round does not end. -/
theorem applyWhile_endless (hstep : ∀ a, P a → p a = true ∧ P (f a)) {a : α} (ha : P a)
    (fuel : Nat) : applyWhile p f fuel a = none := by
  induction fuel generalizing a with
  | zero => rfl
  | succ fuel ih =>
      rw [applyWhile, if_pos (hstep a ha).1]
      exact ih (hstep a ha).2

end Loop

open Double

/-! ### Turns and grains -/

/-- The distance between the doubles from four to eight, counted in least positive doubles.  Too
large a number to be computed with. -/
@[irreducible] def grain : Nat := 2 ^ 1024

/-- The greatest angle that is not too large to take a turn from it: `2 ^ 56`. -/
def farthest : Float := 72057594037927936

theorem grain_pos : 0 < grain := by
  unfold grain
  positivity

theorem two_pow_mul_grain (k : Nat) : 2 ^ k * grain = 2 ^ (k + 1024) := by
  unfold grain
  rw [pow_add]

theorem magnitude_eq_grain {m k : Nat} {e : Int} (h : (e + 1074).toNat = k + 1024) :
    magnitude m e = m * (2 ^ k * grain) := by
  rw [magnitude, h, two_pow_mul_grain]

/-- A full turn in the smallest units of a double. -/
theorem units_tau : (Scalar.tau : Float).isFinite = true ∧
    units Scalar.tau = 7074237752028440 * grain := by
  have h : (Scalar.tau : Float).toModel.unpack =
      .finite .positive 7074237752028440 (-50) (by decide) := rfl
  have hunits : units Scalar.tau = magnitude 7074237752028440 (-50) := congrArg worth h
  refine ⟨isFinite_of_unpack h rfl, ?_⟩
  rw [hunits, magnitude_eq_grain (k := 0) rfl]
  push_cast
  ring

/-- The farthest angle in the smallest units of a double. -/
theorem units_farthest : farthest.isFinite = true ∧ units farthest = 2 ^ 106 * grain := by
  have h : farthest.toModel.unpack = .finite .positive (2 ^ 52) 4 (by decide) := rfl
  have hunits : units farthest = magnitude (2 ^ 52) 4 := congrArg worth h
  refine ⟨isFinite_of_unpack h rfl, ?_⟩
  rw [hunits, magnitude_eq_grain (k := 54) rfl]
  push_cast
  ring

theorem units_zero : (0 : Float).isFinite = true ∧ units 0 = 0 :=
  ⟨rfl, congrArg worth (rfl : (0 : Float).toModel.unpack = .zero .positive)⟩

/-- Numbers that are not too large lie close together. -/
theorem spacing_le_grain {n k : Nat} (hk : 53 ≤ k) (h : n < 2 ^ k * grain) :
    spacing n ≤ 2 ^ (k - 53) * grain := by
  rw [two_pow_mul_grain] at *
  exact (spacing_le h).trans_eq (congrArg _ (by omega))

/-- Numbers that are not too small lie on a grid. -/
theorem grain_dvd_spacing {n k : Nat} (hk : 52 ≤ k) (h : 2 ^ k * grain ≤ n) :
    2 ^ (k - 52) * grain ∣ spacing n := by
  rw [two_pow_mul_grain] at *
  exact (dvd_of_eq (congrArg _ (by omega))).trans (two_pow_dvd_spacing h)

/-! ### One turn -/

section Turn

variable {A M T : Int}

/-- Where a turn is taken from an angle that is not too large, at least `2 ^ 51` grains of it are
taken. -/
theorem turn_taken (hT : 3 * 2 ^ 51 * grain ≤ T) (hA : T < A) (hle : A ≤ 2 ^ 106 * grain)
    (h : Rounded (A - T) M) : 0 ≤ M ∧ M + 2 ^ 51 * grain ≤ A := by
  have hpos := grain_pos
  have hspacing : spacing (A - T).natAbs ≤ 2 ^ 53 * grain :=
    spacing_le_grain (k := 106) (by decide) (by omega)
  have hnear := h.near
  refine ⟨(h.between (by omega)).1, ?_⟩
  rcases abs_cases (M - (A - T)) with ⟨habs, hsign⟩ | ⟨habs, hsign⟩ <;> omega

/-- An angle that is too large stays as it is when a turn is taken from it. -/
theorem turn_lost (hT : 0 < T ∧ T < 2 ^ 53 * grain) (hA : 2 ^ 106 * grain < A)
    (hself : (spacing A.natAbs : Int) ∣ A) (h : Rounded (A - T) M) : M = A := by
  -- The first angle that is too large is more than two turns away from the last that is not.
  have hnext : 2 ^ 106 * grain + 2 ^ 54 * grain ≤ A := by
    have hdvd : ((2 ^ 54 * grain : Nat) : Int) ∣ A - 2 ^ 106 * grain := by
      refine Int.dvd_sub ((Int.natCast_dvd_natCast.mpr ?_).trans hself) ⟨2 ^ 52, ?_⟩
      · exact grain_dvd_spacing (k := 106) (by decide) (by omega)
      · push_cast
        ring
    have := Int.le_of_dvd (by omega) hdvd
    push_cast at this
    omega
  have hle : (A - T).natAbs ≤ A.natAbs := by omega
  have hspacing : 2 ^ 54 * grain ≤ spacing (A - T).natAbs :=
    Nat.le_of_dvd (spacing_pos _) (grain_dvd_spacing (k := 106) (by decide) (by omega))
  refine h.eq_of_near ((Int.natCast_dvd_natCast.mpr (spacing_dvd_spacing hle)).trans hself) ?_
  rw [sub_sub_cancel, abs_of_pos hT.1]
  omega

end Turn

section Angle

variable {a : Float}

theorem tau_ge : 3 * 2 ^ 51 * grain ≤ units Scalar.tau := by
  rw [units_tau.2]
  omega

theorem tau_pos_lt : 0 < units Scalar.tau ∧ units Scalar.tau < 2 ^ 53 * grain := by
  have := grain_pos
  rw [units_tau.2]
  omega

/-- The sign of a double. -/
theorem lt_zero_iff (ha : a.isFinite = true) : a < 0 ↔ units a < 0 := by
  rw [lt_iff ha units_zero.1, units_zero.2]

/-- An angle that is not too far, in the smallest units. -/
theorem abs_le_farthest_iff (ha : a.isFinite = true) :
    a.abs ≤ farthest ↔ |units a| ≤ 2 ^ 106 * grain := by
  rw [le_iff (units_abs ha).1 units_farthest.1, (units_abs ha).2, units_farthest.2]

/-- Taking a turn from an angle that is not too large. -/
theorem sub_tau (ha : a.isFinite = true) (hlt : Scalar.tau < a)
    (hle : units a ≤ 2 ^ 106 * grain) : (a - Scalar.tau).isFinite = true ∧
      0 ≤ units (a - Scalar.tau) ∧ units (a - Scalar.tau) + 2 ^ 51 * grain ≤ units a := by
  obtain ⟨M, hM, hunits⟩ := units_sub ha units_tau.1
  have hturn := turn_taken tau_ge ((lt_iff units_tau.1 ha).mp hlt) hle hM
  obtain ⟨hfinite, rfl⟩ := hunits (by have := natAbs_units_lt a; omega)
  exact ⟨hfinite, hturn⟩

/-- Adding a turn to an angle that is not too large. -/
theorem add_tau (ha : a.isFinite = true) (hlt : a < 0) (hge : -(2 ^ 106 * grain) ≤ units a) :
    (a + Scalar.tau).isFinite = true ∧
      (0 ≤ units (a + Scalar.tau) ∧ units (a + Scalar.tau) ≤ 2 ^ 106 * grain ∨
        units (a + Scalar.tau) ≤ 0 ∧ units a + 2 ^ 51 * grain ≤ units (a + Scalar.tau)) := by
  have hneg := (lt_zero_iff ha).mp hlt
  obtain ⟨M, hM, hunits⟩ := units_add ha units_tau.1
  by_cases hfar : units Scalar.tau < -units a
  · have hturn := turn_taken tau_ge hfar (by omega) (neg_add' (units a) _ ▸ hM.neg)
    obtain ⟨hfinite, rfl⟩ := hunits (by have := natAbs_units_lt a; omega)
    exact ⟨hfinite, .inr (by omega)⟩
  · -- What is left of the turn is not negative, and less than two turns.
    have hbetween := hM.between (by omega)
    have htau := tau_pos_lt
    have hover : 2 ^ 54 * grain ≤ overflow :=
      (two_pow_mul_grain 54).trans_le (two_pow_le_overflow (by decide))
    obtain ⟨hfinite, rfl⟩ := hunits (by omega)
    exact ⟨hfinite, .inl (by omega)⟩

/-- Taking a turn from an angle that is too large. -/
theorem sub_tau_of_far (ha : a.isFinite = true) (hlt : 2 ^ 106 * grain < units a) :
    (a - Scalar.tau).isFinite = true ∧ units (a - Scalar.tau) = units a := by
  obtain ⟨M, hM, hunits⟩ := units_sub ha units_tau.1
  obtain rfl := turn_lost tau_pos_lt hlt (stored_of_isFinite ha).rounded.dvd hM
  exact hunits (natAbs_units_lt a)

/-- Adding a turn to an angle that is too large. -/
theorem add_tau_of_far (ha : a.isFinite = true) (hlt : units a < -(2 ^ 106 * grain)) :
    (a + Scalar.tau).isFinite = true ∧ units (a + Scalar.tau) = units a := by
  obtain ⟨M, hM, hunits⟩ := units_add ha units_tau.1
  have hneg : -M = -units a :=
    turn_lost tau_pos_lt (by omega) (stored_of_isFinite ha).rounded.neg.dvd
      (neg_add' (units a) _ ▸ hM.neg)
  obtain rfl := neg_inj.mp hneg
  exact hunits (natAbs_units_lt a)

/-! ### Rounds -/

/-- The angle with turns added to it while it is negative, in less than `m` rounds, and then with
turns taken from it while it is more than one, in less than `n`. -/
def foldWithin (m n : Nat) (a : Float) : Option Float :=
  (applyWhile (· < 0) (· + Scalar.tau) m a).bind (applyWhile (Scalar.tau < ·) (· - Scalar.tau) n)

theorem foldAngle_eq : foldAngle a = foldWithin maxTurns maxTurns a := rfl

/-- How many rounds the angle may take, if it is not too large. -/
def roundsLeft (a : Float) : Nat := (units a).natAbs / (2 ^ 51 * grain)

/-- An angle that gets smaller by a good part of a turn needs fewer rounds. -/
theorem roundsLeft_lt {b : Float} (h : (units b).natAbs + 2 ^ 51 * grain ≤ (units a).natAbs) :
    roundsLeft b < roundsLeft a := by
  have hpos : 0 < 2 ^ 51 * grain := Nat.mul_pos (Nat.two_pow_pos 51) grain_pos
  calc roundsLeft b < roundsLeft b + 1 := Nat.lt_succ_self _
    _ = ((units b).natAbs + 2 ^ 51 * grain) / (2 ^ 51 * grain) := (Nat.add_div_right _ hpos).symm
    _ ≤ roundsLeft a := Nat.div_le_div_right h

/-- There are enough rounds for every angle that is not too far. -/
theorem roundsLeft_le (h : |units a| ≤ 2 ^ 106 * grain) : roundsLeft a ≤ 2 ^ 55 := by
  refine Nat.div_le_of_le_mul ?_
  rw [Int.abs_eq_natAbs] at h
  omega

/-- Negative angles that are not too large come into the first turn or above it. -/
theorem addTurns_of_near (ha : a.isFinite = true) (hnear : |units a| ≤ 2 ^ 106 * grain) {m : Nat}
    (hm : 2 ^ 55 + 1 < m) : ∃ b, applyWhile (· < 0) (· + Scalar.tau) m a = some b ∧
      b.isFinite = true ∧ 0 ≤ units b ∧ units b ≤ 2 ^ 106 * grain := by
  obtain ⟨b, hb, ⟨hfinite, hle⟩, hstop⟩ : ∃ b, applyWhile (· < 0) (· + Scalar.tau) m a = some b ∧
      (b.isFinite = true ∧ |units b| ≤ 2 ^ 106 * grain) ∧ decide (b < 0) = false := by
    refine applyWhile_ends roundsLeft (fun x ⟨hx, hle⟩ hlt => ?_) ⟨ha, hnear⟩
      (Nat.lt_of_le_of_lt (Nat.succ_le_succ (roundsLeft_le hnear)) hm)
    have hlt := of_decide_eq_true hlt
    have hneg := (lt_zero_iff hx).mp hlt
    obtain ⟨hfinite, hturn⟩ := add_tau hx hlt (abs_le.mp hle).1
    refine ⟨⟨hfinite, ?_⟩, fun hlt' => roundsLeft_lt ?_⟩
    · rw [abs_le] at hle ⊢
      omega
    · have := (lt_zero_iff hfinite).mp (of_decide_eq_true hlt')
      omega
  rw [decide_eq_false_iff_not, lt_zero_iff hfinite, not_lt] at hstop
  exact ⟨b, hb, hfinite, hstop, (abs_le.mp hle).2⟩

/-- Angles that are neither negative nor too large come into the first turn. -/
theorem takeTurns_of_near (ha : a.isFinite = true) (hpos : 0 ≤ units a)
    (hnear : units a ≤ 2 ^ 106 * grain) {n : Nat} (hn : 2 ^ 55 + 1 < n) :
    ∃ b, applyWhile (Scalar.tau < ·) (· - Scalar.tau) n a = some b ∧ 0 ≤ b ∧ b ≤ Scalar.tau := by
  obtain ⟨b, hb, ⟨hfinite, hle, -⟩, hstop⟩ : ∃ b,
      applyWhile (Scalar.tau < ·) (· - Scalar.tau) n a = some b ∧
      (b.isFinite = true ∧ 0 ≤ units b ∧ units b ≤ 2 ^ 106 * grain) ∧
      decide (Scalar.tau < b) = false := by
    have hrounds := roundsLeft_le ((abs_of_nonneg hpos).trans_le hnear)
    refine applyWhile_ends roundsLeft (fun x ⟨hx, hnonneg, hle⟩ hlt => ?_) ⟨ha, hpos, hnear⟩
      (Nat.lt_of_le_of_lt (Nat.succ_le_succ hrounds) hn)
    obtain ⟨hfinite, hturn⟩ := sub_tau hx (of_decide_eq_true hlt) hle
    exact ⟨⟨hfinite, hturn.1, by omega⟩, fun _ => roundsLeft_lt (by omega)⟩
  rw [decide_eq_false_iff_not, lt_iff units_tau.1 hfinite, not_lt,
    ← le_iff hfinite units_tau.1] at hstop
  exact ⟨b, hb, (le_iff units_zero.1 hfinite).mpr (units_zero.2.symm ▸ hle), hstop⟩

/-- **Angles that are not too large** are reduced to the first turn. -/
theorem foldWithin_of_near (ha : a.isFinite = true) (h : a.abs ≤ farthest) {m n : Nat}
    (hm : 2 ^ 55 + 1 < m) (hn : 2 ^ 55 + 1 < n) :
    ∃ b, foldWithin m n a = some b ∧ 0 ≤ b ∧ b ≤ Scalar.tau := by
  obtain ⟨b, hb, hfinite, hpos, hle⟩ := addTurns_of_near ha ((abs_le_farthest_iff ha).mp h) hm
  obtain ⟨c, hc, hrange⟩ := takeTurns_of_near hfinite hpos hle hn
  exact ⟨c, by rw [foldWithin, hb, Option.bind_some, hc], hrange⟩

/-- **Angles that are too large** are not reduced in any number of rounds. -/
theorem foldWithin_of_far (ha : a.isFinite = true) (h : ¬ a.abs ≤ farthest) (m n : Nat) :
    foldWithin m n a = none := by
  rw [abs_le_farthest_iff ha, not_le] at h
  rcases lt_abs.mp h with hpos | hneg
  · have htake : applyWhile (Scalar.tau < ·) (· - Scalar.tau) n a = none := by
      refine applyWhile_endless (P := fun x => x.isFinite = true ∧ 2 ^ 106 * grain < units x)
        (fun x ⟨hx, hlt⟩ => ?_) ⟨ha, hpos⟩ n
      obtain ⟨hfinite, hunits⟩ := sub_tau_of_far hx hlt
      have := tau_pos_lt
      exact ⟨decide_eq_true ((lt_iff units_tau.1 hx).mpr (by omega)), hfinite, hunits.symm ▸ hlt⟩
    have hstop : ¬ a < 0 := fun hlt => by
      have := (lt_zero_iff ha).mp hlt
      omega
    cases m with
    | zero => rfl
    | succ m =>
        have hadd : applyWhile (· < 0) (· + Scalar.tau) (m + 1) a = some a :=
          if_neg (by simpa using hstop)
        rw [foldWithin, hadd, Option.bind_some, htake]
  · have hadd : applyWhile (· < 0) (· + Scalar.tau) m a = none := by
      refine applyWhile_endless (P := fun x => x.isFinite = true ∧ units x < -(2 ^ 106 * grain))
        (fun x ⟨hx, hlt⟩ => ?_) ⟨ha, by omega⟩ m
      obtain ⟨hfinite, hunits⟩ := add_tau_of_far hx hlt
      exact ⟨decide_eq_true ((lt_zero_iff hx).mpr (by omega)), hfinite, hunits.symm ▸ hlt⟩
    rw [foldWithin, hadd, Option.bind_none]

/-- There are rounds enough for every angle that is not too large. -/
theorem foldAngle_of_near (h : a.abs ≤ farthest) :
    ∃ b, foldAngle a = some b ∧ 0 ≤ b ∧ b ≤ Scalar.tau :=
  foldWithin_of_near (isFinite_of_abs_le units_farthest.1 h) h (by decide) (by decide)

/-- An angle that is not too far is folded. -/
theorem isSome_foldAngle (h : a.abs ≤ farthest) : (foldAngle a).isSome = true := by
  obtain ⟨b, hb, -⟩ := foldAngle_of_near h
  exact Option.isSome_iff_exists.mpr ⟨b, hb⟩

theorem zero_abs_le_farthest : (0 : Float).abs ≤ farthest := by
  rw [abs_le_farthest_iff units_zero.1, units_zero.2, abs_zero]
  exact Int.mul_nonneg (by decide) (Int.natCast_nonneg _)

end Angle

end Mosaic
