import Mathlib.Algebra.GCDMonoid.Finset
import Mathlib.Algebra.GCDMonoid.Nat
import Mathlib.Data.Int.GCD
import Mathlib.Data.Int.ModEq
import Mosaic.Cyclic

/-!
# Cyclic — indices as remainders

An index around a polygon stands for a remainder: two indices agree when the positions they were
made from are congruent (`cyclicIndex_eq_iff`).
-/

namespace Mosaic

variable {a b : Int} {n m : Nat}

theorem cyclicIndex_cast (a : Int) (hn : 0 < n) : (cyclicIndex a n : Int) = a % n :=
  Int.toNat_of_nonneg (Int.emod_nonneg a (by omega))

theorem cyclicIndex_lt (a : Int) (hn : 0 < n) : cyclicIndex a n < n := by
  have := Int.emod_lt_of_pos a (b := n) (by omega)
  have := cyclicIndex_cast a hn
  omega

/-- Indices are counted up to full turns. -/
theorem cyclicIndex_modEq (a : Int) (hn : 0 < n) : (cyclicIndex a n : Int) ≡ a [ZMOD n] := by
  rw [cyclicIndex_cast a hn]
  exact Int.mod_modEq a n

/-- Numbers have the same index if and only if they differ by full turns. -/
theorem cyclicIndex_eq_iff (hn : 0 < n) :
    cyclicIndex a n = cyclicIndex b n ↔ a ≡ b [ZMOD n] := by
  rw [← Int.natCast_inj, cyclicIndex_cast a hn, cyclicIndex_cast b hn]
  rfl

theorem cyclicIndex_of_lt {i : Nat} (hi : i < n) : cyclicIndex i n = i := by
  have h := cyclicIndex_cast i (Nat.zero_lt_of_lt hi)
  rw [Int.emod_eq_of_lt (by omega) (by omega)] at h
  exact Int.natCast_inj.mp h

/-- An equivalence of the integers that relates those a period apart relates all that are congruent
modulo the period. -/
theorem equivalence_of_modEq {R : Int → Int → Prop} (hR : Equivalence R) {p : Int}
    (hp : ∀ z, R z (z + p)) {z z' : Int} (h : z ≡ z' [ZMOD p]) : R z z' := by
  have hnat : ∀ (n : Nat) (z : Int), R z (z + p * n) := by
    intro n
    induction n with
    | zero =>
        intro z
        simpa using hR.refl z
    | succ n ih =>
        intro z
        rw [Nat.cast_succ, mul_add, mul_one, ← add_assoc]
        exact hR.trans (ih z) (hp _)
  obtain ⟨k, hk⟩ := Int.modEq_iff_dvd.mp h
  obtain ⟨n, rfl | rfl⟩ := Int.eq_nat_or_neg k
  · obtain rfl : z' = z + p * n := by omega
    exact hnat n z
  · obtain rfl : z = z' + p * n := by
      rw [mul_neg] at hk
      omega
    exact hR.symm (hnat n z')

/-- What does not tell integers apart that are `a` or `b` apart, does not tell those apart that are
their greatest common divisor apart. -/
theorem shift_gcd {R : Int → Int → Prop} (hR : Equivalence R) {a b : Nat}
    (ha : ∀ z, R z (z + a)) (hb : ∀ z, R z (z + b)) (z : Int) : R z (z + (Nat.gcd a b : Nat)) := by
  have hmod (z z' : Int) (n : Nat) : z ≡ z + n * z' [ZMOD n] := Int.modEq_iff_dvd.mpr (by simp)
  rw [Nat.gcd_eq_gcd_ab, ← add_assoc]
  exact hR.trans (equivalence_of_modEq hR ha (hmod z (Nat.gcdA a b) a))
    (equivalence_of_modEq hR hb (hmod _ (Nat.gcdB a b) b))

/-- An equivalence that is kept by several shifts is kept by their greatest common divisor. -/
theorem shift_finset_gcd {ι : Type} {R : Int → Int → Prop} (hR : Equivalence R) {s : Finset ι}
    {q : ι → Nat} (h : ∀ i ∈ s, ∀ z, R z (z + q i)) (z : Int) : R z (z + (s.gcd q : Nat)) := by
  classical
  induction s using Finset.induction_on generalizing z with
  | empty => simpa using hR.refl z
  | insert i s _ ih =>
      rw [Finset.gcd_insert]
      exact shift_gcd hR (h i (Finset.mem_insert_self i s))
        (ih fun j hj => h j (Finset.mem_insert_of_mem hj)) z

end Mosaic
