import Mathlib
import Mosaic.Proofs.Scalar.Rounding
import Mosaic.Scalar.Double

/-!
# Proofs — Scalar — double

Finite doubles as the integers that they stand for (`units`): how they compare (`lt_iff`,
`le_iff`), and that sums and differences are the exact ones, rounded (`units_add`, `units_sub`),
as long as these do not overflow.
-/

namespace Mosaic.Double

open Float.Model (Format UnpackedFloat)
open Float.Model.UnpackedFloat

/-! ### Bit patterns -/

theorem exponentBias_eq : Format.binary64.exponentBias = 1023 := by decide

/-- A pattern of bits for a full mantissa. -/
theorem unpack_normal (s : Sign) {x m : Nat} (hx : 0 < x) (hx' : x < 2047) (hm : 2 ^ 52 ≤ m)
    (hm' : m < 2 ^ 53) :
    unpack Format.binary64
      (packComponents Format.binary64 s (BitVec.ofNat 11 x) (BitVec.ofNat 52 m)) =
      .finite s m (x - 1075) (by omega) := by
  have hones : BitVec.ofNat 11 x ≠ -1#11 := fun h => by
    have := congrArg BitVec.toNat h
    simp at this
    omega
  have hzero : BitVec.ofNat 11 x ≠ 0#11 := fun h => by
    have := congrArg BitVec.toNat h
    simp at this
    omega
  have hmantissa : (1#1 ++ BitVec.ofNat 52 m).toNat = m := by
    rw [BitVec.toNat_append, BitVec.toNat_ofNat, BitVec.toNat_ofNat,
      ← Nat.shiftLeft_add_eq_or_of_lt (Nat.mod_lt _ (by decide)), Nat.shiftLeft_eq]
    omega
  have hexponent : ((BitVec.ofNat 11 x).toNat : Int) - (((1023 : Nat) : Int) + ((52 : Nat) : Int)) =
      x - 1075 := by
    rw [BitVec.toNat_ofNat]
    omega
  simp only [unpack, unpackExponent_packComponents, unpackMantissa_packComponents,
    unpackSign_packComponents, hones, hzero, Sign.ofBitVec_toBitVec, if_false, exponentBias_eq,
    hmantissa, hexponent]

theorem unpack_subnormal (s : Sign) {m : Nat} (hm : 0 < m) (hm' : m < 2 ^ 52) :
    unpack Format.binary64 (packComponents Format.binary64 s 0#11 (BitVec.ofNat 52 m)) =
      .finite s m (-1074) hm := by
  have hne : BitVec.ofNat 52 m ≠ 0#52 := fun h => by
    have := congrArg BitVec.toNat h
    simp at this
    omega
  have hmantissa : (BitVec.ofNat 52 m).toNat = m := by
    rw [BitVec.toNat_ofNat]
    omega
  simp [unpack, unpackExponent_packComponents, unpackMantissa_packComponents,
    unpackSign_packComponents, hne, Sign.ofBitVec_toBitVec, hmantissa, exponentBias_eq]

/-- A double stores what it is packed from. -/
theorem unpack_pack {s : Sign} {m : Nat} {e : Int} (h : Canonical m e) (he : e ≤ 971)
    (hm : 0 < m) :
    unpack Format.binary64 (pack Format.binary64 (.finite s m e hm)) = .finite s m e hm := by
  have hleast := h.least
  have hlt := h.lt
  unfold pack
  simp only [exponentBias_eq]
  rw [if_neg (by omega)]
  by_cases hfull : 2 ^ 52 ≤ m
  · have hlog : m.log2 = 52 := (Nat.log2_eq_iff hm.ne').mpr ⟨hfull, hlt⟩
    rw [if_pos (by rw [hlog]; decide), unpack_normal s (by omega) (by omega) hfull hlt]
    congr 1
    omega
  · have hlog : m.log2 < 52 := (Nat.log2_lt hm.ne').mpr (by omega)
    rw [if_neg (by rw [show Format.binary64.mantissaBits = 53 by decide]; omega),
      unpack_subnormal s hm (by omega)]
    congr 1
    exact (h.full.resolve_left hfull).symm

/-- What a double stores is canonical. -/
theorem canonical_of_unpack {b : BitVec Format.binary64.numBits} {s : Sign} {m : Nat} {e : Int}
    {hm : 0 < m} (h : unpack Format.binary64 b = .finite s m e hm) :
    Canonical m e ∧ e ≤ 971 := by
  have hx : (unpackExponent b).toNat < 2 ^ 11 := (unpackExponent b).isLt
  have hv : (unpackMantissa b).toNat < 2 ^ 52 := (unpackMantissa b).isLt
  unfold unpack at h
  simp only [exponentBias_eq] at h
  split at h
  · split at h <;> cases h
  · rename_i hones
    have hones' : (unpackExponent b).toNat ≠ 2047 := fun heq =>
      hones (BitVec.eq_of_toNat_eq (by rw [heq]; rfl))
    split at h
    · rename_i hzero
      split at h
      · cases h
      · cases h
        refine ⟨⟨hm, by omega, ?_, .inr ?_⟩, ?_⟩ <;> simp [hzero]
    · rename_i hzero
      have hzero' : (unpackExponent b).toNat ≠ 0 := fun heq =>
        hzero (BitVec.eq_of_toNat_eq (by rw [heq]; rfl))
      cases h
      have hmantissa : (1#1 ++ unpackMantissa b).toNat = 2 ^ 52 + (unpackMantissa b).toNat := by
        rw [BitVec.toNat_append, ← Nat.shiftLeft_add_eq_or_of_lt hv, Nat.shiftLeft_eq]
        rfl
      refine ⟨⟨hm, ?_, by omega, .inl ?_⟩, by omega⟩
      · rw [hmantissa]
        omega
      · rw [hmantissa]
        omega

/-! ### Order -/

/-- A finite number in the form in which doubles store it. -/
def Stored : UnpackedFloat → Prop
  | .finite _ m e _ => Canonical m e
  | .zero _ => True
  | _ => False

/-- A finite number, counted in least positive doubles. -/
def worth : UnpackedFloat → Int
  | .finite s m e _ => s.apply (magnitude m e)
  | _ => 0

theorem Canonical.magnitude_pos {m : Nat} {e : Int} (h : Canonical m e) : 0 < magnitude m e :=
  Nat.mul_pos h.pos (Nat.two_pow_pos _)

/-- Of two doubles the one with the greater exponent is the greater one. -/
theorem Canonical.magnitude_lt {m m' : Nat} {e e' : Int} (h : Canonical m e) (h' : Canonical m' e')
    (he : e < e') : magnitude m e < magnitude m' e' := by
  have hleast := h.least
  have hfull : 2 ^ 52 ≤ m' := h'.full.resolve_right (by omega)
  calc magnitude m e < 2 ^ 53 * 2 ^ (e + 1074).toNat :=
        Nat.mul_lt_mul_of_pos_right h.lt (Nat.two_pow_pos _)
    _ = 2 ^ 52 * 2 ^ ((e + 1074).toNat + 1) := by ring
    _ ≤ 2 ^ 52 * 2 ^ (e' + 1074).toNat :=
        Nat.mul_le_mul_left _ (Nat.pow_le_pow_right (by decide) (by omega))
    _ ≤ magnitude m' e' := Nat.mul_le_mul_right _ hfull

theorem compare_magnitude {m m' : Nat} {e e' : Int} (h : Canonical m e) (h' : Canonical m' e') :
    (compare e e').then (compare m m') = compare (magnitude m e : Int) (magnitude m' e') := by
  rcases lt_trichotomy e e' with he | rfl | he
  · rw [compare_lt_iff_lt.mpr he, compare_lt_iff_lt.mpr (Int.ofNat_lt.mpr (h.magnitude_lt h' he))]
    rfl
  · have hpos : 0 < 2 ^ (e + 1074).toNat := Nat.two_pow_pos _
    rw [compare_eq_iff_eq.mpr rfl, Ordering.then]
    have hmul : ∀ {n n' : Nat}, n < n' → (magnitude n e : Int) < magnitude n' e := fun h =>
      Int.ofNat_lt.mpr (Nat.mul_lt_mul_of_pos_right h hpos)
    rcases lt_trichotomy m m' with hm | rfl | hm
    · rw [compare_lt_iff_lt.mpr hm, compare_lt_iff_lt.mpr (hmul hm)]
    · rw [compare_eq_iff_eq.mpr rfl, compare_eq_iff_eq.mpr rfl]
    · rw [compare_gt_iff_gt.mpr hm, compare_gt_iff_gt.mpr (hmul hm)]
  · rw [compare_gt_iff_gt.mpr he, compare_gt_iff_gt.mpr (Int.ofNat_lt.mpr (h'.magnitude_lt h he))]
    rfl

theorem compare_neg (a b : Int) : compare (-a) (-b) = (compare a b).swap := by
  rcases lt_trichotomy a b with h | rfl | h
  · rw [compare_lt_iff_lt.mpr h, compare_gt_iff_gt.mpr (neg_lt_neg h)]
    rfl
  · rw [compare_eq_iff_eq.mpr rfl, compare_eq_iff_eq.mpr rfl]
    rfl
  · rw [compare_gt_iff_gt.mpr h, compare_lt_iff_lt.mpr (neg_lt_neg h)]
    rfl

/-- Doubles are compared as the numbers that they stand for. -/
theorem compare_spec {x y : UnpackedFloat} (hx : Stored x) (hy : Stored y) :
    x.compare y = some (compare (worth x) (worth y)) := by
  have hpos : ∀ {m e}, Canonical m e → (0 : Int) < magnitude m e :=
    fun h => Int.ofNat_lt.mpr h.magnitude_pos
  rcases x with s | _ | s | ⟨s, m, e, hm⟩ <;> rcases y with s' | _ | s' | ⟨s', m', e', hm'⟩ <;>
    first | exact hx.elim | exact hy.elim | skip
  · rfl
  · have := hpos hy
    cases s'
    · exact congrArg some (compare_gt_iff_gt.mpr (show -(magnitude m' e' : Int) < 0 by omega)).symm
    · exact congrArg some (compare_lt_iff_lt.mpr this).symm
  · have := hpos hx
    cases s
    · exact congrArg some (compare_lt_iff_lt.mpr (show -(magnitude m e : Int) < 0 by omega)).symm
    · exact congrArg some (compare_gt_iff_gt.mpr this).symm
  · have h₁ := hpos hx
    have h₂ := hpos hy
    cases s <;> cases s'
    · exact congrArg some ((congrArg _ (compare_magnitude hx hy)).trans (compare_neg _ _).symm)
    · have h : -(magnitude m e : Int) < magnitude m' e' := by omega
      exact congrArg some (compare_lt_iff_lt.mpr h).symm
    · have h : -(magnitude m' e' : Int) < magnitude m e := by omega
      exact congrArg some (compare_gt_iff_gt.mpr h).symm
    · exact congrArg some (compare_magnitude hx hy)

/-! ### Sums and differences -/

/-- The number `m` is a nearest one to `n` among the multiples of the spacing of `n`. -/
structure Rounded (n m : Int) : Prop where
  dvd : (spacing n.natAbs : Int) ∣ m
  near : 2 * |m - n| ≤ spacing n.natAbs

/-- A multiple of the spacing of a number that is less than half of it away is what the number is
rounded to. -/
theorem Rounded.eq_of_near {n m k : Int} (h : Rounded n m) (hdvd : (spacing n.natAbs : Int) ∣ k)
    (hnear : 2 * |k - n| < spacing n.natAbs) : m = k := by
  have hlt : |m - k| < spacing n.natAbs := by
    have := h.near
    have := abs_sub_le m n k
    rw [abs_sub_comm n k] at this
    linarith
  exact sub_eq_zero.mp (Int.eq_zero_of_abs_lt_dvd (Int.dvd_sub h.dvd hdvd) hlt)

/-- Rounding keeps the sign. -/
theorem Rounded.between {n m : Int} (h : Rounded n m) (hn : 0 ≤ n) : 0 ≤ m ∧ m ≤ 2 * n := by
  obtain ⟨k, rfl⟩ := Int.eq_ofNat_of_zero_le hn
  have hnear : 2 * |m - k| ≤ spacing k := h.near
  have hspacing := spacing_le_max k
  rcases abs_cases (m - k) with ⟨habs, hsign⟩ | ⟨habs, hsign⟩ <;> omega

theorem Nearest.rounded {n m : Nat} (h : Nearest n m) (s : Sign) :
    Rounded (s.apply n) (s.apply m) := by
  have hdvd : (spacing n : Int) ∣ m := Int.natCast_dvd_natCast.mpr h.dvd
  have hle := h.le
  have hge := h.ge
  have hnear : 2 * |(m : Int) - n| ≤ spacing n := by
    rcases abs_cases ((m : Int) - n) with ⟨habs, -⟩ | ⟨habs, -⟩ <;> omega
  cases s
  · refine ⟨?_, ?_⟩
    · change (spacing (-(n : Int)).natAbs : Int) ∣ -m
      rw [Int.natAbs_neg, Int.natAbs_natCast]
      exact (Int.dvd_neg).mpr hdvd
    · change 2 * |-(m : Int) - -n| ≤ spacing (-(n : Int)).natAbs
      rw [Int.natAbs_neg, Int.natAbs_natCast, ← neg_sub', abs_neg]
      exact hnear
  · exact ⟨hdvd, hnear⟩

/-- A double is its own rounding. -/
theorem Canonical.nearest {m : Nat} {e : Int} (h : Canonical m e) :
    Nearest (magnitude m e) (magnitude m e) := by
  have hlog : m.log2 < 53 := (Nat.log2_lt h.pos.ne').mpr h.lt
  refine ⟨?_, Nat.le_add_right _ _, Nat.le_add_right _ _⟩
  rw [spacing_magnitude h.pos h.least]
  refine (Nat.pow_dvd_pow 2 ?_).trans (Nat.dvd_mul_left _ _)
  have := h.least
  rw [target]
  omega

theorem normalize_spec {n e : Int} (he : -1074 ≤ e) (z : Sign) :
    Stored (normalize Format.binary64 n e z) ∧
      Rounded (n * 2 ^ (e + 1074).toNat) (worth (normalize Format.binary64 n e z)) := by
  have hround : ∀ (s : Sign) (k : Nat), 0 < k → s.apply k = n →
      Stored (round Format.binary64 s k e) ∧
        Rounded (n * 2 ^ (e + 1074).toNat) (worth (round Format.binary64 s k e)) := by
    intro s k hk hn
    obtain ⟨m', e', hm, heq, hcanonical, hnearest⟩ := round_spec s hk he
    rw [heq]
    refine ⟨hcanonical, ?_⟩
    have := hnearest.rounded s
    have hmul : s.apply (magnitude k e) = n * 2 ^ (e + 1074).toNat := by
      rw [← hn, magnitude]
      cases s <;> simp [Sign.apply]
    rwa [hmul] at this
  unfold UnpackedFloat.normalize
  rcases lt_trichotomy n 0 with hn | rfl | hn
  · rw [compare_lt_iff_lt.mpr hn]
    exact hround .negative (-n).toNat (by omega) (by simp only [Sign.apply]; omega)
  · refine ⟨trivial, ?_⟩
    rw [Int.zero_mul]
    exact ⟨Int.dvd_zero _, by simp [worth]⟩
  · rw [compare_gt_iff_gt.mpr hn]
    exact hround .positive n.toNat (by omega) (by simp only [Sign.apply]; omega)

/-- A number is worth the same with a smaller exponent. -/
theorem apply_decreaseExponent (s : Sign) (m : Nat) {e e₀ : Int} (he : e₀ ≤ e)
    (h₀ : -1074 ≤ e₀) :
    s.apply (decreaseExponent m e e₀).1 * 2 ^ (e₀ + 1074).toNat = s.apply (magnitude m e) := by
  have hpow : (decreaseExponent m e e₀).1 * 2 ^ (e₀ + 1074).toNat = magnitude m e := by
    rw [decreaseExponent, Nat.shiftLeft_eq, magnitude, Nat.mul_assoc, ← Nat.pow_add]
    congr 2
    omega
  rw [← hpow]
  cases s <;> simp [Sign.apply]

theorem Rounded.neg {n m : Int} (h : Rounded n m) : Rounded (-n) (-m) := by
  refine ⟨?_, ?_⟩
  · rw [Int.natAbs_neg]
    exact (Int.dvd_neg).mpr h.dvd
  · rw [Int.natAbs_neg, ← neg_sub', abs_neg]
    exact h.near

/-- What is stored is its own rounding. -/
theorem Stored.rounded {x : UnpackedFloat} (hx : Stored x) : Rounded (worth x) (worth x) := by
  rcases x with s | _ | s | ⟨s, m, e, hm⟩
  · exact hx.elim
  · exact hx.elim
  · exact ⟨Int.dvd_zero _, by simp [worth]⟩
  · exact (Canonical.nearest hx).rounded s

/-- The sum of two finite numbers, or their difference, brought to the smaller exponent. -/
theorem normalize_min (s s' : Sign) (σ : Int) {m m' : Nat} {e e' n : Int} (h : Canonical m e)
    (h' : Canonical m' e')
    (hn : n = s.apply (decreaseExponent m e (min e e')).1 +
      σ * s'.apply (decreaseExponent m' e' (min e e')).1) (z : Sign) :
    Stored (normalize Format.binary64 n (min e e') z) ∧
      Rounded (s.apply (magnitude m e) + σ * s'.apply (magnitude m' e'))
        (worth (normalize Format.binary64 n (min e e') z)) := by
  have hleast : -1074 ≤ min e e' := le_min h.least h'.least
  have := normalize_spec (n := n) hleast z
  rwa [hn, add_mul, mul_assoc, apply_decreaseExponent s m (min_le_left e e') hleast,
    apply_decreaseExponent s' m' (min_le_right e e') hleast, ← hn] at this

theorem worth_neg (s : Sign) (m : Nat) (e : Int) (hm : 0 < m) :
    worth (.finite (-s) m e hm) = -worth (.finite s m e hm) := by
  cases s
  · exact (neg_neg _).symm
  · rfl

/-- Of two zeros only the sign of the result is in question. -/
theorem stored_zero (s : Sign) (b : Bool) : Stored (if b then zero s else zero .positive) ∧
    Rounded 0 (worth (if b then zero s else zero .positive)) := by
  cases b <;> exact ⟨trivial, (Stored.rounded trivial : Rounded (worth (zero s)) _)⟩

/-- The difference of two doubles is rounded. -/
theorem sub_spec {x y : UnpackedFloat} (hx : Stored x) (hy : Stored y) :
    Stored (sub Format.binary64 x y) ∧
      Rounded (worth x - worth y) (worth (sub Format.binary64 x y)) := by
  rcases x with s | _ | s | ⟨s, m, e, hm⟩ <;> rcases y with s' | _ | s' | ⟨s', m', e', hm'⟩ <;>
    first | exact hx.elim | exact hy.elim | skip
  · exact stored_zero s (s == -s')
  · have hneg : Stored (finite (-s') m' e' hm') := hy
    refine ⟨hneg, ?_⟩
    have := hneg.rounded
    nth_rewrite 1 [worth_neg] at this
    rwa [← zero_sub] at this
  · refine ⟨hx, ?_⟩
    rw [show worth (finite s m e hm) - worth (zero s') = worth (finite s m e hm) from sub_zero _]
    exact hx.rounded
  · have h := normalize_min s s' (-1) hx hy rfl .positive
    simp only [Int.neg_mul, Int.one_mul, ← sub_eq_add_neg] at h
    exact h

/-- The sum of two doubles is rounded. -/
theorem add_spec {x y : UnpackedFloat} (hx : Stored x) (hy : Stored y) :
    Stored (add Format.binary64 x y) ∧
      Rounded (worth x + worth y) (worth (add Format.binary64 x y)) := by
  rcases x with s | _ | s | ⟨s, m, e, hm⟩ <;> rcases y with s' | _ | s' | ⟨s', m', e', hm'⟩ <;>
    first | exact hx.elim | exact hy.elim | skip
  · exact stored_zero s (s == s')
  · refine ⟨hy, ?_⟩
    rw [show worth (zero s) + worth (finite s' m' e' hm') = worth (finite s' m' e' hm') from
      zero_add _]
    exact hy.rounded
  · refine ⟨hx, ?_⟩
    rw [show worth (finite s m e hm) + worth (zero s') = worth (finite s m e hm) from add_zero _]
    exact hx.rounded
  · have h := normalize_min s s' 1 hx hy rfl .positive
    simp only [Int.one_mul] at h
    exact h

/-! ### Doubles -/

/-- The power of two that no double reaches, counted in least positive doubles. -/
def overflow : Nat := 2 ^ 2098

theorem overflow_pos : 0 < overflow := by
  unfold overflow
  positivity

theorem overflow_le_two_pow {k : Nat} (h : 2098 ≤ k) : overflow ≤ 2 ^ k := by
  rw [overflow]
  gcongr
  decide

theorem two_pow_le_overflow {k : Nat} (h : k ≤ 2098) : 2 ^ k ≤ overflow := by
  rw [overflow]
  gcongr
  decide

/-- A finite double, counted in least positive doubles. -/
def units (a : Float) : Int := worth a.toModel.unpack

theorem stored_of_isFinite {a : Float} (ha : a.isFinite = true) : Stored a.toModel.unpack := by
  change a.toModel.unpack.isFinite = true at ha
  generalize hx : a.toModel.unpack = x at *
  rcases x with s | _ | s | ⟨s, m, e, hm⟩
  · cases ha
  · cases ha
  · trivial
  · exact (canonical_of_unpack hx).1

theorem Stored.isFinite {x : UnpackedFloat} (hx : Stored x) : x.isFinite = true := by
  rcases x with s | _ | s | ⟨s, m, e, hm⟩
  · exact hx.elim
  · exact hx.elim
  · rfl
  · rfl

theorem isFinite_of_unpack {a : Float} {x : UnpackedFloat} (h : a.toModel.unpack = x)
    (hx : x.isFinite = true) : a.isFinite = true := by
  change a.toModel.unpack.isFinite = true
  rwa [h]

theorem natAbs_apply (s : Sign) (n : Nat) : (s.apply n).natAbs = n := by
  cases s
  · exact Int.natAbs_neg n
  · rfl

/-- A double whose exponent is too large is too large. -/
theorem Canonical.exponent_le {m : Nat} {e : Int} (h : Canonical m e)
    (hlt : magnitude m e < overflow) : e ≤ 971 := by
  refine Int.not_lt.mp fun he => Nat.not_le_of_lt hlt ?_
  calc overflow ≤ 2 ^ (52 + (e + 1074).toNat) := overflow_le_two_pow (by omega)
    _ = 2 ^ 52 * 2 ^ (e + 1074).toNat := Nat.pow_add ..
    _ ≤ magnitude m e := Nat.mul_le_mul_right _ (h.full.resolve_right (by omega))

/-- What is not too large is stored in full. -/
theorem unpack_pack_of_lt {x : UnpackedFloat} (hx : Stored x) (hlt : (worth x).natAbs < overflow) :
    (Float.Model.pack x).unpack = x := by
  change unpack Format.binary64 (pack Format.binary64 x) = x
  rcases x with s | _ | s | ⟨s, m, e, hm⟩
  · exact hx.elim
  · exact hx.elim
  · exact unpack_packedZero
  · change (s.apply (magnitude m e)).natAbs < overflow at hlt
    rw [natAbs_apply] at hlt
    exact unpack_pack hx (Canonical.exponent_le hx hlt) hm

/-- **Doubles are compared** as the numbers that they stand for. -/
theorem lt_iff {a b : Float} (ha : a.isFinite = true) (hb : b.isFinite = true) :
    a < b ↔ units a < units b := by
  change decide (a.toModel < b.toModel) = true ↔ _
  rw [decide_eq_true_iff]
  change (a.toModel.unpack.compare b.toModel.unpack == some .lt) = true ↔ _
  rw [compare_spec (stored_of_isFinite ha) (stored_of_isFinite hb), beq_iff_eq, Option.some.injEq,
    compare_lt_iff_lt]
  rfl

theorem le_iff {a b : Float} (ha : a.isFinite = true) (hb : b.isFinite = true) :
    a ≤ b ↔ units a ≤ units b := by
  change decide (a.toModel ≤ b.toModel) = true ↔ _
  rw [decide_eq_true_iff]
  change (a.toModel.unpack.compare b.toModel.unpack).any (·.isLE) = true ↔ _
  rw [compare_spec (stored_of_isFinite ha) (stored_of_isFinite hb), Option.any_some]
  exact Std.isLE_compare

/-- A finite result that has been packed. -/
theorem units_of_unpack {a : Float} {x : UnpackedFloat} (hx : Stored x)
    (ha : a.toModel = Float.Model.pack x) (hlt : (worth x).natAbs < overflow) :
    a.isFinite = true ∧ units a = worth x := by
  have hunpack : a.toModel.unpack = x := ha ▸ unpack_pack_of_lt hx hlt
  exact ⟨isFinite_of_unpack hunpack hx.isFinite, congrArg worth hunpack⟩

/-- **Differences** of doubles are rounded. -/
theorem units_sub {a b : Float} (ha : a.isFinite = true) (hb : b.isFinite = true) :
    ∃ n, Rounded (units a - units b) n ∧
      (n.natAbs < overflow → (a - b).isFinite = true ∧ units (a - b) = n) := by
  obtain ⟨hstored, hrounded⟩ := sub_spec (stored_of_isFinite ha) (stored_of_isFinite hb)
  exact ⟨_, hrounded, units_of_unpack hstored rfl⟩

/-- **Sums** of doubles are rounded. -/
theorem units_add {a b : Float} (ha : a.isFinite = true) (hb : b.isFinite = true) :
    ∃ n, Rounded (units a + units b) n ∧
      (n.natAbs < overflow → (a + b).isFinite = true ∧ units (a + b) = n) := by
  obtain ⟨hstored, hrounded⟩ := add_spec (stored_of_isFinite ha) (stored_of_isFinite hb)
  exact ⟨_, hrounded, units_of_unpack hstored rfl⟩

/-- Doubles are bounded. -/
theorem natAbs_units_lt (a : Float) : (units a).natAbs < overflow := by
  unfold units
  generalize hx : a.toModel.unpack = x
  rcases x with s | _ | s | ⟨s, m, e, hm⟩
  · exact overflow_pos
  · exact overflow_pos
  · exact overflow_pos
  · obtain ⟨h, he⟩ := canonical_of_unpack hx
    change (s.apply (magnitude m e)).natAbs < overflow
    rw [natAbs_apply]
    calc magnitude m e < 2 ^ 53 * 2 ^ (e + 1074).toNat :=
          Nat.mul_lt_mul_of_pos_right h.lt (Nat.two_pow_pos _)
      _ = 2 ^ (53 + (e + 1074).toNat) := (Nat.pow_add ..).symm
      _ ≤ overflow := two_pow_le_overflow (by omega)

/-- A double without its sign. -/
theorem units_abs {a : Float} (ha : a.isFinite = true) :
    a.abs.isFinite = true ∧ units a.abs = |units a| := by
  have hstored := stored_of_isFinite ha
  obtain ⟨habs, hworth⟩ : Stored a.toModel.unpack.abs ∧
      worth a.toModel.unpack.abs = |worth a.toModel.unpack| := by
    generalize a.toModel.unpack = x at *
    rcases x with s | _ | s | ⟨s, m, e, hm⟩
    · exact hstored.elim
    · exact hstored.elim
    · exact ⟨trivial, rfl⟩
    · refine ⟨hstored, ?_⟩
      change (magnitude m e : Int) = |s.apply (magnitude m e)|
      rw [Int.abs_eq_natAbs, natAbs_apply]
  have hlt : (worth a.toModel.unpack.abs).natAbs < overflow := by
    rw [hworth, Int.natAbs_abs]
    exact natAbs_units_lt a
  have := units_of_unpack habs (a := a.abs) rfl hlt
  exact ⟨this.1, this.2.trans hworth⟩

/-- What is not greater than a finite double, apart from its sign, is finite. -/
theorem isFinite_of_abs_le {a b : Float} (hb : b.isFinite = true) (h : a.abs ≤ b) :
    a.isFinite = true := by
  have hstored := stored_of_isFinite hb
  have hle := of_decide_eq_true h
  change ((Float.Model.pack a.toModel.unpack.abs).unpack.compare b.toModel.unpack).any
    (·.isLE) = true at hle
  refine isFinite_of_unpack rfl ?_
  generalize b.toModel.unpack = y at *
  generalize a.toModel.unpack = x at *
  rcases x with s | _ | s | ⟨s, m, e, hm⟩
  case infinity =>
    have hinf : (Float.Model.pack (infinity s).abs).unpack = infinity .positive := by
      cases s <;> rfl
    rw [hinf] at hle
    rcases y with s' | _ | s' | ⟨s', m, e, hm⟩
    · exact hstored.elim
    · exact hstored.elim
    · cases hle
    · cases s' <;> cases hle
  case notANumber =>
    have hnan : (Float.Model.pack UnpackedFloat.notANumber.abs).unpack = notANumber := rfl
    rw [hnan] at hle
    cases hle
  case zero => rfl
  case finite => rfl

end Mosaic.Double
