import Mathlib

/-!
# Proofs — Scalar — rounding

What the arithmetic of doubles stores for an exact result.  Numbers are counted in least positive
doubles, so every finite double, and every sum of two, is an integer: `m * 2 ^ e` is
`magnitude m e` of them.  The doubles with as many binary digits as `n` lie `spacing n` apart.

An exact mantissa is shifted until it fits, with two bits to say what has been shifted out
(`Shifted`), and rounded by them; the mantissa that this makes may be one digit too long once more
(`carry_spec`).  What is stored is canonical, and it is a nearest multiple of the spacing
(`round_spec`).
-/

namespace Mosaic.Double

open Float.Model (Format UnpackedFloat totalExponent)
open Float.Model.UnpackedFloat

/-! ### Shifts -/

/-- The mantissa `em` is what is left of `n` after `d` shifts, and `r` is what has been shifted
out: its two bits say where `r` lies between nothing and a whole unit. -/
structure Shifted (n d : Nat) (em : ExtendedMantissa) (r : Nat) : Prop where
  lt : r < 2 ^ d
  eq : n = em.mantissa * 2 ^ d + r
  round : em.roundBit = true ↔ 2 ^ d ≤ 2 * r
  sticky : em.stickyBit = false → r = 0 ∨ 2 * r = 2 ^ d

theorem Shifted.shiftRightOne {n d r : Nat} {em : ExtendedMantissa} (h : Shifted n d em r) :
    Shifted n (d + 1) em.shiftRightOne (em.mantissa % 2 * 2 ^ d + r) := by
  have hr := h.lt
  have hpow : 2 ^ (d + 1) = 2 * 2 ^ d := by rw [Nat.pow_succ, Nat.mul_comm]
  have hm : em.mantissa = em.mantissa / 2 * 2 + em.mantissa % 2 := by omega
  constructor
  case lt =>
    rcases Nat.mod_two_eq_zero_or_one em.mantissa with hb | hb <;> rw [hb] <;> omega
  case eq =>
    rw [h.eq]
    nth_rewrite 1 [hm]
    simp only [ExtendedMantissa.shiftRightOne]
    rw [hpow]
    ring
  case round =>
    simp only [ExtendedMantissa.shiftRightOne, bne_iff_ne, ne_eq]
    rcases Nat.mod_two_eq_zero_or_one em.mantissa with hb | hb <;> rw [hb] <;> simp <;> omega
  case sticky =>
    simp only [ExtendedMantissa.shiftRightOne, Bool.or_eq_false_iff]
    rintro ⟨hround, hsticky⟩
    have hlt : ¬ 2 ^ d ≤ 2 * r := fun hle => by
      rw [h.round.mpr hle] at hround
      cases hround
    have hpos : 0 < 2 ^ d := Nat.two_pow_pos d
    have hzero : r = 0 := (h.sticky hsticky).resolve_right (by omega)
    rcases Nat.mod_two_eq_zero_or_one em.mantissa with hb | hb <;> rw [hb] <;> omega

theorem shifted (n d : Nat) :
    ∃ r, Shifted n d ((⟨n, false, false⟩ : ExtendedMantissa) >>> d) r := by
  induction d with
  | zero =>
      exact ⟨0, by decide, by simp [HShiftRight.hShiftRight, Nat.repeat],
        by simp [HShiftRight.hShiftRight, Nat.repeat], fun _ => .inl rfl⟩
  | succ d ih =>
      obtain ⟨r, h⟩ := ih
      exact ⟨_, h.shiftRightOne⟩

/-- Rounding moves a mantissa by half a unit at most. -/
theorem Shifted.near {n d r : Nat} {em : ExtendedMantissa} (h : Shifted n d em r) :
    2 * (em.roundedMantissa * 2 ^ d) ≤ 2 * n + 2 ^ d ∧
    2 * n ≤ 2 * (em.roundedMantissa * 2 ^ d) + 2 ^ d ∧
    em.mantissa ≤ em.roundedMantissa ∧ em.roundedMantissa ≤ em.mantissa + 1 := by
  obtain ⟨m, round, sticky⟩ := em
  obtain ⟨hr, hn, hround, hsticky⟩ := h
  simp only at hn hround hsticky
  simp only [ExtendedMantissa.roundedMantissa]
  have hsucc : (m + 1) * 2 ^ d = m * 2 ^ d + 2 ^ d := by ring
  cases round <;> cases sticky
  · simp [ExtendedMantissa.accuracy, Accuracy.roundToNearestEven] at *
    omega
  · simp [ExtendedMantissa.accuracy, Accuracy.roundToNearestEven] at *
    omega
  · simp [ExtendedMantissa.accuracy, Accuracy.roundToNearestEven] at *
    rcases Nat.mod_two_eq_zero_or_one m with hb | hb <;> rw [hb] <;> simp [hsucc] <;> omega
  · simp [ExtendedMantissa.accuracy, Accuracy.roundToNearestEven] at *
    omega

/-! ### Rounding -/

/-- A mantissa and an exponent as a double stores them, if the exponent is not too large: the
mantissa is as long as it may be, or the exponent is the least one. -/
structure Canonical (m : Nat) (e : Int) : Prop where
  pos : 0 < m
  lt : m < 2 ^ 53
  least : -1074 ≤ e
  full : 2 ^ 52 ≤ m ∨ e = -1074

/-- The number `m * 2 ^ e`, counted in least positive doubles. -/
def magnitude (m : Nat) (e : Int) : Nat := m * 2 ^ (e + 1074).toNat

/-- How far apart doubles are that have as many binary digits as `n`. -/
def spacing (n : Nat) : Nat := 2 ^ (n.log2 - 52)

/-- The number `m` is a nearest one to `n` among the multiples of the spacing of `n`. -/
structure Nearest (n m : Nat) : Prop where
  dvd : spacing n ∣ m
  le : 2 * m ≤ 2 * n + spacing n
  ge : 2 * n ≤ 2 * m + spacing n

theorem log2_mono {n n' : Nat} (h : n ≤ n') : n.log2 ≤ n'.log2 := by
  rcases Nat.eq_zero_or_pos n with rfl | hn
  · exact Nat.zero_le _
  · exact (Nat.le_log2 (Nat.lt_of_lt_of_le hn h).ne').mpr ((Nat.log2_self_le hn.ne').trans h)

theorem log2_mul_two_pow {n : Nat} (hn : 0 < n) (s : Nat) : (n * 2 ^ s).log2 = n.log2 + s := by
  have hpos : 0 < 2 ^ s := Nat.two_pow_pos s
  rw [Nat.log2_eq_iff (Nat.mul_pos hn hpos).ne', Nat.pow_add, Nat.add_right_comm, Nat.pow_add]
  exact ⟨Nat.mul_le_mul_right _ (Nat.log2_self_le hn.ne'),
    Nat.mul_lt_mul_of_pos_right Nat.lt_log2_self hpos⟩

theorem spacing_pos (n : Nat) : 0 < spacing n := Nat.two_pow_pos _

theorem spacing_dvd_spacing {n n' : Nat} (h : n ≤ n') : spacing n ∣ spacing n' :=
  Nat.pow_dvd_pow 2 (Nat.sub_le_sub_right (log2_mono h) 52)

theorem spacing_le {n k : Nat} (h : n < 2 ^ k) : spacing n ≤ 2 ^ (k - 53) := by
  refine Nat.pow_le_pow_right (by decide) ?_
  rcases Nat.eq_zero_or_pos n with rfl | hn
  · exact Nat.zero_le _
  · have := (Nat.log2_lt hn.ne').mpr h
    omega

theorem two_pow_dvd_spacing {n k : Nat} (h : 2 ^ k ≤ n) : 2 ^ (k - 52) ∣ spacing n := by
  refine Nat.pow_dvd_pow 2 (Nat.sub_le_sub_right ?_ 52)
  exact (Nat.le_log2 (Nat.lt_of_lt_of_le (Nat.two_pow_pos k) h).ne').mpr h

theorem spacing_le_max (n : Nat) : spacing n ≤ max n 1 := by
  rcases Nat.eq_zero_or_pos n with rfl | hn
  · exact le_max_right ..
  · exact ((Nat.pow_le_pow_right (by decide) (Nat.sub_le ..)).trans
      (Nat.log2_self_le hn.ne')).trans (le_max_left ..)

/-- The exponent that the number `n * 2 ^ e` gets. -/
def target (n : Nat) (e : Int) : Int := max (n.log2 + e - 52) (-1074)

theorem targetExponent_eq (n : Nat) (e : Int) :
    Format.binary64.targetExponent (totalExponent n e) = target n e := by
  have hbits : (Format.binary64.mantissaBits : Int) = 53 := by decide
  have hleast : Format.binary64.minExponent = -1074 := by decide
  rw [Format.targetExponent, totalExponent, hbits, hleast, target]
  congr 1
  ring

theorem spacing_magnitude {n : Nat} {e : Int} (hn : 0 < n) (he : -1074 ≤ e) :
    spacing (magnitude n e) = 2 ^ (target n e + 1074).toNat := by
  rw [spacing, magnitude, log2_mul_two_pow hn, target]
  congr 1
  omega

theorem shiftToTargetExponent_eq (n : Nat) (e : Int) :
    shiftToTargetExponent Format.binary64 n e .exact =
      ((⟨n, false, false⟩ : ExtendedMantissa) >>> (target n e - e).toNat,
        e + (target n e - e).toNat) := by
  rw [shiftToTargetExponent, targetExponent_eq]
  rfl

/-- A mantissa that fits stays as it is. -/
theorem shiftToTargetExponent_of_lt {q : Nat} {t : Int} (hpos : 0 < q) (hq : q < 2 ^ 53)
    (ht : -1074 ≤ t) :
    shiftToTargetExponent Format.binary64 q t .exact = (⟨q, false, false⟩, t) := by
  have hlog : q.log2 < 53 := (Nat.log2_lt hpos.ne').mpr hq
  have hzero : (target q t - t).toNat = 0 := by
    rw [target]
    omega
  rw [shiftToTargetExponent_eq, hzero]
  exact congrArg (Prod.mk _) (Int.add_zero t)

/-- A mantissa that rounding has made one digit too long is halved. -/
theorem shiftToTargetExponent_of_eq {t : Int} (ht : -1074 ≤ t) :
    shiftToTargetExponent Format.binary64 (2 ^ 53) t .exact = (⟨2 ^ 52, false, false⟩, t + 1) := by
  have hone : (target (2 ^ 53) t - t).toNat = 1 := by
    rw [target, Nat.log2_two_pow]
    omega
  rw [shiftToTargetExponent_eq, hone]
  rfl

/-- What is stored for a rounded mantissa is worth as much. -/
theorem carry_spec (s : Sign) {q : Nat} {t : Int} (hpos : 0 < q) (hle : q ≤ 2 ^ 53)
    (hleast : -1074 ≤ t) (hfull : 2 ^ 52 ≤ q ∨ t = -1074) :
    let x := shiftToTargetExponent Format.binary64 q t .exact
    ∃ m' e' hm, (if h : x.1.mantissa = 0 then zero s
        else finite s x.1.mantissa x.2 (Nat.pos_of_ne_zero h)) = finite s m' e' hm ∧
      Canonical m' e' ∧ magnitude m' e' = magnitude q t := by
  intro x
  rcases Nat.lt_or_eq_of_le hle with hlt | rfl
  · have hx : x = (⟨q, false, false⟩, t) := shiftToTargetExponent_of_lt hpos hlt hleast
    generalize x = y at hx
    subst hx
    exact ⟨q, t, hpos, dif_neg hpos.ne', ⟨hpos, hlt, hleast, hfull⟩, rfl⟩
  · have hx : x = (⟨2 ^ 52, false, false⟩, t + 1) := shiftToTargetExponent_of_eq hleast
    generalize x = y at hx
    subst hx
    refine ⟨2 ^ 52, t + 1, by decide, dif_neg (Nat.two_pow_pos 52).ne',
      ⟨by decide, by decide, by omega, .inl le_rfl⟩, ?_⟩
    rw [magnitude, magnitude, ← Nat.pow_add, ← Nat.pow_add]
    congr 1
    omega

section Target

variable {n r : Nat} {e : Int} {em : ExtendedMantissa}

/-- A mantissa that has been shifted to the exponent that it gets fits. -/
theorem Shifted.fits (h : Shifted n (target n e - e).toNat em r) (hn : 0 < n) :
    em.mantissa < 2 ^ 53 := by
  have hlt : n < 2 ^ 53 * 2 ^ (target n e - e).toNat := by
    rw [← Nat.pow_add, ← Nat.log2_lt hn.ne', target]
    omega
  have := h.eq
  exact Nat.lt_of_mul_lt_mul_right (a := 2 ^ (target n e - e).toNat) (by omega)

/-- It is full, too, unless the exponent is the least one. -/
theorem Shifted.full (h : Shifted n (target n e - e).toNat em r) (hn : 0 < n)
    (hle : e ≤ target n e) : 2 ^ 52 ≤ em.mantissa ∨ target n e = -1074 := by
  by_cases hleast : target n e = -1074
  · exact .inr hleast
  · have hge : 2 ^ 52 * 2 ^ (target n e - e).toNat ≤ n := by
      rw [← Nat.pow_add, ← Nat.le_log2 hn.ne']
      rw [target] at *
      omega
    have := h.eq
    have := h.lt
    refine .inl (Nat.le_of_lt_succ
      (Nat.lt_of_mul_lt_mul_right (a := 2 ^ (target n e - e).toNat) ?_))
    rw [Nat.succ_mul]
    omega

/-- Rounding it leaves something of a number that is a whole one. -/
theorem Shifted.rounded_pos (h : Shifted n (target n e - e).toNat em r) (hn : 0 < n)
    (he : -1074 ≤ e) (hle : e ≤ target n e) : 0 < em.roundedMantissa := by
  obtain ⟨-, hupper, hge, -⟩ := h.near
  rcases h.full hn hle with hfull | hleast
  · omega
  · have hzero : (target n e - e).toNat = 0 := by omega
    rw [hzero] at hupper
    omega

/-- Rounding it gives a nearest number. -/
theorem Shifted.nearest (h : Shifted n (target n e - e).toNat em r) (hn : 0 < n)
    (he : -1074 ≤ e) (hle : e ≤ target n e) :
    Nearest (magnitude n e) (magnitude em.roundedMantissa (target n e)) := by
  have hsplit : 2 ^ (target n e + 1074).toNat =
      2 ^ (target n e - e).toNat * 2 ^ (e + 1074).toNat := by
    rw [← Nat.pow_add]
    congr 1
    omega
  have hspacing := spacing_magnitude hn he
  obtain ⟨hlower, hupper, -, -⟩ := h.near
  refine ⟨?_, ?_, ?_⟩
  · rw [hspacing]
    exact Nat.dvd_mul_left _ _
  · rw [hspacing, magnitude, magnitude, hsplit]
    have := Nat.mul_le_mul_right (2 ^ (e + 1074).toNat) hlower
    linarith
  · rw [hspacing, magnitude, magnitude, hsplit]
    have := Nat.mul_le_mul_right (2 ^ (e + 1074).toNat) hupper
    linarith

end Target

/-- A number is brought to its exponent and then rounded. -/
theorem roundWithAccuracy_spec (s : Sign) {n : Nat} {e : Int} (hn : 0 < n) (he : -1074 ≤ e)
    (hle : e ≤ target n e) :
    ∃ m' e' hm, roundWithAccuracy Format.binary64 s n e .exact = .finite s m' e' hm ∧
      Canonical m' e' ∧ Nearest (magnitude n e) (magnitude m' e') := by
  obtain ⟨r, hr⟩ := shifted n (target n e - e).toNat
  have hexp : e + (target n e - e).toNat = target n e := by omega
  rw [roundWithAccuracy, shiftToTargetExponent_eq]
  simp only [hexp]
  generalize (⟨n, false, false⟩ : ExtendedMantissa) >>> (target n e - e).toNat = em at *
  obtain ⟨-, -, hge, hsucc⟩ := hr.near
  have hfit := hr.fits hn
  obtain ⟨m', e', hm, heq, hcanonical, hmagnitude⟩ :=
    carry_spec s (hr.rounded_pos hn he hle) (by omega) (he.trans hle)
      ((hr.full hn hle).imp_left (Nat.le_trans · hge))
  exact ⟨m', e', hm, heq, hcanonical, hmagnitude ▸ hr.nearest hn he hle⟩

/-- **Rounding** a number gives a nearest double. -/
theorem round_spec (s : Sign) {n : Nat} {e : Int} (hn : 0 < n) (he : -1074 ≤ e) :
    ∃ m' e' hm, round Format.binary64 s n e = .finite s m' e' hm ∧
      Canonical m' e' ∧ Nearest (magnitude n e) (magnitude m' e') := by
  have hleast : -1074 ≤ target n e := by rw [target]; omega
  rw [UnpackedFloat.round, targetExponent_eq]
  simp only [decreaseExponent, Nat.shiftLeft_eq]
  generalize hd : (e - target n e).toNat = d
  have hpos : 0 < n * 2 ^ d := Nat.mul_pos hn (Nat.two_pow_pos d)
  have htarget : target (n * 2 ^ d) (e - d) = target n e := by
    rw [target, target, log2_mul_two_pow hn]
    congr 1
    omega
  have hmagnitude : magnitude (n * 2 ^ d) (e - d) = magnitude n e := by
    rw [magnitude, magnitude, Nat.mul_assoc, ← Nat.pow_add]
    congr 2
    omega
  have := roundWithAccuracy_spec s hpos (e := e - d) (by omega) (by rw [htarget]; omega)
  rwa [hmagnitude] at this

end Mosaic.Double
