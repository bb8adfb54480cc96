import Mosaic.Proofs.Scalar.Double
import Mosaic.Proofs.Scalar.Whole

/-!
# Proofs — Scalar — zero

Doubles have two zeros, which are equal but not the same.  A sum that begins with the positive one
never is the negative one, because that is only the sum of two negative zeros.  So a sum that equals
zero is zero (`PlainZero`), and a walk that has covered no angle may as well begin anew.
-/

namespace Mosaic

/-- A number that is zero if it equals zero. -/
def PlainZero {α : Type} [Scalar α] (x : α) : Prop := (x == 0) = true → x = 0

/-- Sums of numbers that are zero if they equal zero are such numbers again, whatever is added. -/
class PlainSums (α : Type) [Scalar α] : Prop where
  add : ∀ {x : α}, PlainZero x → ∀ y, PlainZero (x + y)

theorem PlainZero.zero {α : Type} [Scalar α] : PlainZero (0 : α) := fun _ => rfl

instance : PlainSums Whole := ⟨fun _ _ h => eq_of_beq (α := Int) h⟩

namespace Double

open Float.Model (Format UnpackedFloat)
open Float.Model.UnpackedFloat

/-- Only a zero is stored as one. -/
theorem eq_zero_of_unpack_pack {z : UnpackedFloat} {s : Sign}
    (hz : ∀ s m e hm, z = .finite s m e hm → Canonical m e)
    (h : (Float.Model.pack z).unpack = .zero s) : ∃ s', z = .zero s' := by
  rcases z with s' | _ | s' | ⟨s', m, e, hm⟩
  · cases s' <;> cases h
  · cases h
  · exact ⟨s', rfl⟩
  · change unpack Format.binary64 (pack Format.binary64 (.finite s' m e hm)) = .zero s at h
    by_cases he : e ≤ 971
    · rw [unpack_pack (hz s' m e hm rfl) he hm] at h
      cases h
    · -- What is too large is stored as an infinity.
      have hinfinite : pack Format.binary64 (.finite s' m e hm) =
          packedInfinity Format.binary64 s' := by
        unfold pack
        simp only [exponentBias_eq]
        exact if_pos (by simp; omega)
      rw [hinfinite] at h
      cases s' <;> cases h

/-- A number that is brought to an exponent is a zero only with the sign that it is given then. -/
theorem normalize_eq_zero {n e : Int} {z s : Sign} (he : -1074 ≤ e)
    (h : normalize Format.binary64 n e z = .zero s) : s = z := by
  have hround {s' : Sign} {k : Nat} (hk : 0 < k) : round Format.binary64 s' k e ≠ .zero s := by
    obtain ⟨m', e', hm, heq, -⟩ := round_spec s' hk he
    rw [heq]
    exact UnpackedFloat.noConfusion
  unfold UnpackedFloat.normalize at h
  rcases lt_trichotomy n 0 with hn | rfl | hn
  · rw [compare_lt_iff_lt.mpr hn] at h
    exact absurd h (hround (by omega))
  · cases h
    rfl
  · rw [compare_gt_iff_gt.mpr hn] at h
    exact absurd h (hround (by omega))

/-- A sum is the negative zero only if both numbers are. -/
theorem add_eq_zero {x y : UnpackedFloat} {s : Sign} (hx : Stored x) (hy : Stored y)
    (h : add Format.binary64 x y = .zero s) (hne : x ≠ .zero .negative) : s = .positive := by
  rcases x with s₁ | _ | s₁ | ⟨s₁, m₁, e₁, hm₁⟩ <;>
    rcases y with s₂ | _ | s₂ | ⟨s₂, m₂, e₂, hm₂⟩ <;>
    first | exact hx.elim | exact hy.elim | skip
  · cases s₁
    · exact absurd rfl hne
    · cases s₂ <;> cases h <;> rfl
  · cases h
  · cases h
  · exact normalize_eq_zero (le_min hx.least hy.least) h

/-- Numbers that are not finite do not add up to a zero. -/
theorem stored_of_add_eq_zero {a b : Float} {s : Sign} (h : (a + b).toModel.unpack = .zero s) :
    Stored a.toModel.unpack ∧ Stored b.toModel.unpack := by
  have hcanonical {c : Float} {s : Sign} {m : Nat} {e : Int} {hm : 0 < m}
      (hc : c.toModel.unpack = .finite s m e hm) : Canonical m e := (canonical_of_unpack hc).1
  change (Float.Model.pack (add Format.binary64 a.toModel.unpack b.toModel.unpack)).unpack = _ at h
  have hnumber (hz : add Format.binary64 a.toModel.unpack b.toModel.unpack = .notANumber) :
      False := by
    rw [hz] at h
    cases h
  have hfinite {s' : Sign}
      (hz : add Format.binary64 a.toModel.unpack b.toModel.unpack = .infinity s') : False := by
    rw [hz] at h
    cases s' <;> cases h
  generalize hx : a.toModel.unpack = x at *
  generalize hy : b.toModel.unpack = y at *
  rcases x with s₁ | _ | s₁ | ⟨s₁, m₁, e₁, hm₁⟩ <;> rcases y with s₂ | _ | s₂ | ⟨s₂, m₂, e₂, hm₂⟩
  case infinity.infinity =>
    by_cases heq : (s₁ == s₂) = true
    · exact (hfinite (if_pos heq)).elim
    · exact (hnumber (if_neg heq)).elim
  case zero.zero => exact ⟨trivial, trivial⟩
  case zero.finite => exact ⟨trivial, hcanonical hy⟩
  case finite.zero => exact ⟨hcanonical hx, trivial⟩
  case finite.finite => exact ⟨hcanonical hx, hcanonical hy⟩
  all_goals first | exact (hnumber rfl).elim | exact (hfinite rfl).elim

/-- A double that equals zero is one of the two zeros. -/
theorem unpack_of_beq_zero {a : Float} (h : (a == 0) = true) : ∃ s, a.toModel.unpack = .zero s := by
  change a.toModel.unpack.beq (.zero .positive) = true at h
  generalize a.toModel.unpack = x at *
  rcases x with s | _ | s | ⟨s, m, e, hm⟩
  · cases s <;> cases h
  · cases h
  · exact ⟨s, rfl⟩
  · cases s <;> cases h

instance : PlainSums Float := by
  refine ⟨fun {x} hx y h => ?_⟩
  obtain ⟨s, hs⟩ := unpack_of_beq_zero h
  obtain ⟨hx', hy'⟩ := stored_of_add_eq_zero hs
  obtain ⟨s', hs'⟩ := eq_zero_of_unpack_pack (fun _ _ _ _ heq => by
    have hstored := (add_spec hx' hy').1
    rwa [heq] at hstored) hs
  have hne : x.toModel.unpack ≠ .zero .negative := by
    intro hneg
    have hzero : (x == 0) = true := by
      change x.toModel.unpack.beq (.zero .positive) = true
      rw [hneg]
      rfl
    rw [hx hzero] at hneg
    cases hneg
  rw [add_eq_zero hx' hy' hs' hne] at hs'
  change Float.ofModel (Float.Model.pack
    (add Format.binary64 x.toModel.unpack y.toModel.unpack)) = 0
  rw [hs']
  rfl

end Double

end Mosaic
