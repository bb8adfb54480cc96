import Mathlib.Algebra.Order.BigOperators.Group.List
import Mathlib.Algebra.Order.Group.Nat
import Mathlib.Data.Int.ModEq
import Mosaic.Proofs.Descent
import Mosaic.Proofs.Tiling.WellFormed
import Mosaic.Scalar.Double
import Mosaic.Tiling.Period

/-!
# Tiling — the greatest periods that gluings respect

A family of periods is admissible when gluings respect it: edges a period apart are glued to edges a
period apart, and the partner of an edge is glued back to a copy of it (`Tiling.Admissible`).

Refining periods never narrows them below an admissible family, and it fails only where there is
none below them; a pass that narrows nothing has found the periods admissible (`Tiling.Refines`).
So what refining leaves is the greatest admissible family (`refinePeriods_greatest`).  It raises no
period and makes none zero, also when it fails (`Narrows`).
-/

namespace Mosaic

/-- The period of shape `i` in a list of periods. -/
def periodOf (ps : Array Nat) (i : Nat) : Nat := (ps[i]?).getD 0

/-- As many periods, each a positive divisor of the other one. -/
structure Narrower (ps qs : Array Nat) : Prop where
  size : ps.size = qs.size
  dvd : ∀ i, periodOf ps i ∣ periodOf qs i
  pos : ∀ i < ps.size, 0 < periodOf ps i

namespace Narrower

variable {ps qs rs : Array Nat}

theorem refl (h : ∀ i < ps.size, 0 < periodOf ps i) : Narrower ps ps :=
  ⟨rfl, fun _ => dvd_rfl, h⟩

theorem self (h : Narrower ps qs) : Narrower ps ps := .refl h.pos

theorem trans (h : Narrower ps qs) (h' : Narrower qs rs) : Narrower ps rs :=
  ⟨h.size.trans h'.size, fun i => (h.dvd i).trans (h'.dvd i), h.pos⟩

/-- Narrower cycle lengths are not longer. -/
theorem le (h : Narrower ps qs) (hqs : ∀ i < qs.size, 0 < periodOf qs i) {i : Nat}
    (hi : i < qs.size) : periodOf ps i ≤ periodOf qs i := Nat.le_of_dvd (hqs i hi) (h.dvd i)

/-- Cycle lengths that are narrower than each other are equal. -/
theorem antisymm (h : Narrower ps qs) (h' : Narrower qs ps) : ps = qs := by
  refine Array.ext h.size fun i hps hqs => ?_
  have heq := Nat.dvd_antisymm (h.dvd i) (h'.dvd i)
  simpa [periodOf, hps, hqs] using heq

theorem forall₂_le (h : Narrower ps qs) (hqs : ∀ i < qs.size, 0 < periodOf qs i) :
    List.Forall₂ (· ≤ ·) ps.toList qs.toList := by
  refine List.forall₂_iff_get.mpr ⟨h.size, fun i hi hi' => ?_⟩
  have hle := h.le hqs (i := i) hi'
  rw [Array.length_toList] at hi hi'
  simpa [periodOf, hi, hi'] using hle

end Narrower

/-- Of two lists the one below the other, only equal ones have the same sum. -/
theorem eq_of_forall₂_le {l l' : List Nat} (h : List.Forall₂ (· ≤ ·) l l')
    (hsum : l.sum = l'.sum) : l = l' := by
  induction h with
  | nil => rfl
  | @cons a b l l' hab hl ih =>
      have hle := hl.sum_le_sum
      simp only [List.sum_cons] at hsum
      obtain rfl : a = b := by omega
      rw [ih (by omega)]

/-- The sum of the periods of all shapes. -/
def totalOf (ps : Array Nat) : Nat := ps.foldl (· + ·) 0

theorem totalOf_eq_sum (ps : Array Nat) : totalOf ps = ps.toList.sum := by
  rw [totalOf, ← Array.foldl_toList, List.sum_eq_foldl]

namespace Narrower

variable {ps qs : Array Nat}

/-- Narrower cycle lengths have no greater sum. -/
theorem totalOf_le (h : Narrower ps qs) (hqs : ∀ i < qs.size, 0 < periodOf qs i) :
    totalOf ps ≤ totalOf qs := by
  rw [totalOf_eq_sum, totalOf_eq_sum]
  exact (h.forall₂_le hqs).sum_le_sum

/-- Narrowing lowers the sum, unless it changes nothing. -/
theorem eq_of_totalOf (h : Narrower ps qs) (hqs : ∀ i < qs.size, 0 < periodOf qs i)
    (hsum : totalOf ps = totalOf qs) : ps = qs := by
  rw [totalOf_eq_sum, totalOf_eq_sum] at hsum
  exact Array.toList_inj.mp (eq_of_forall₂_le (h.forall₂_le hqs) hsum)

end Narrower

/-- One cycle length is reduced, the others stay. -/
theorem periodOf_modify {ps : Array Nat} {i j : Nat} (hi : i < ps.size) (d : Int) :
    periodOf (ps.modify j (reduceGcd · d)) i =
      if j = i then reduceGcd (periodOf ps i) d else periodOf ps i := by
  simp only [periodOf, Array.getElem?_modify, Array.getElem?_eq_getElem hi]
  split <;> rfl

theorem periodOf_of_le {ps : Array Nat} {i : Nat} (hi : ps.size ≤ i) : periodOf ps i = 0 := by
  rw [periodOf, Array.getElem?_eq_none hi, Option.getD_none]

/-- Divisors of the periods remain so if what a period is narrowed to is a multiple of them. -/
theorem dvd_periodOf_modify {ps : Array Nat} {c : Nat → Nat} {i : Nat} {d : Int}
    (h : ∀ j, c j ∣ periodOf ps j) (hd : (c i : Int) ∣ d) (j : Nat) :
    c j ∣ periodOf (ps.modify i (reduceGcd · d)) j := by
  rcases Nat.lt_or_ge j ps.size with hj | hj
  · rw [periodOf_modify hj]
    split
    · rename_i hij
      subst hij
      exact Nat.dvd_gcd (h _) (Int.natCast_dvd.mp hd)
    · exact h j
  · rw [periodOf_of_le (by rwa [Array.size_modify])]
    exact dvd_zero _

/-- The period of one shape is narrowed. -/
theorem narrower_modify {ps : Array Nat} (h : ∀ i < ps.size, 0 < periodOf ps i) (j : Nat)
    (d : Int) : Narrower (ps.modify j (reduceGcd · d)) ps := by
  refine ⟨Array.size_modify, fun i => ?_, fun i hi => ?_⟩
  · rcases Nat.lt_or_ge i ps.size with hi | hi
    · rw [periodOf_modify hi]
      split
      · exact Nat.gcd_dvd_left _ _
      · exact dvd_rfl
    · rw [periodOf_of_le hi]
      exact dvd_zero _
  · rw [Array.size_modify] at hi
    rw [periodOf_modify hi]
    split
    · exact Nat.gcd_pos_of_pos_left _ (h i hi)
    · exact h i hi

namespace Tiling

variable {α : Type}

/-- Every edge is glued, and to an edge that there is. -/
def Partnered (t : Tiling α) : Prop :=
  ∀ i < t.shapes.size, ∀ k < (t.shape i).size, k < (t.shape i).connections.size ∧
    ((t.shape i).connection k).shape < t.shapes.size ∧
    ((t.shape i).connection k).edge < (t.shape ((t.shape i).connection k).shape).size

theorem WellFormed.partnered {t : Tiling α} (ht : t.WellFormed) : t.Partnered := fun _ hi _ hk =>
  ⟨ht.connections_size _ (shape_mem hi) ▸ hk, ht.target_shape_lt hi hk, ht.target_edge_lt hi hk⟩

/-- The shapes have corners, and each is declared to repeat around itself a number of times that
divides the number of its corners. -/
def Repetitive (t : Tiling α) : Prop :=
  ∀ s ∈ t.shapes, 0 < s.size ∧ s.repeatCount ∣ s.size

/-- The gluing of the edge that a gluing leads to. -/
def back (t : Tiling α) (c : Connection) : Connection := (t.shape c.shape).connection c.edge

/-- Gluings of shape `i` respect the periods `c`: edges a period apart are glued to edges a period
apart, and an edge is glued to one that is glued back to a copy of it. -/
structure RespectsAt (t : Tiling α) (c : Nat → Nat) (i : Nat) : Prop where
  periodic : ∀ k < (t.shape i).size, ∀ k' < (t.shape i).size, k ≡ k' [MOD c i] →
    ((t.shape i).connection k).shape = ((t.shape i).connection k').shape ∧
    ((t.shape i).connection k).edge ≡ ((t.shape i).connection k').edge
      [MOD c ((t.shape i).connection k).shape]
  back : ∀ k < (t.shape i).size, (t.back ((t.shape i).connection k)).shape = i ∧
    (t.back ((t.shape i).connection k)).edge ≡ k [MOD c i]

/-- A family of positive periods, each a divisor of the stride of its shape, that all gluings
respect. -/
structure Admissible (t : Tiling α) (c : Nat → Nat) : Prop where
  pos : ∀ i < t.shapes.size, 0 < c i
  dvd : ∀ i < t.shapes.size, c i ∣ (t.shape i).stride
  respects : ∀ i < t.shapes.size, t.RespectsAt c i

/-- The periods that refining begins with. -/
def strides (t : Tiling α) : Array Nat := t.shapes.map (·.stride)

theorem periodOf_strides {t : Tiling α} {i : Nat} (hi : i < t.shapes.size) :
    periodOf t.strides i = (t.shape i).stride := by
  simp [periodOf, strides, shape, hi]

/-! ### Outcomes of a refinement -/

/-- What becomes of the periods `ps`: they are narrowed, but not below an admissible family, and `Q`
holds of what they are narrowed to; or no admissible family lies below them. -/
inductive Refined (t : Tiling α) (ps : Array Nat) (Q : Array Nat → Prop) :
    EStateM.Result (Inconsistency α) (Array Nat) Unit → Prop where
  | ok {qs : Array Nat} (narrower : Narrower qs ps)
      (above : ∀ c, t.Admissible c → (∀ i, c i ∣ periodOf ps i) → ∀ i, c i ∣ periodOf qs i)
      (holds : Q qs) : Refined t ps Q (.ok () qs)
  | error {e : Inconsistency α} {qs : Array Nat}
      (none : ∀ c, t.Admissible c → ¬ ∀ i, c i ∣ periodOf ps i) : Refined t ps Q (.error e qs)

/-- A computation that refines the periods `ps` and all narrower ones.  It finds `Q` of periods that
it does not narrow. -/
def Refines (t : Tiling α) (ps : Array Nat) (x : Refinement α Unit) (Q : Array Nat → Prop) : Prop :=
  ∀ qs, Narrower qs ps → Refined t qs (fun rs => rs = qs → Q qs) (x qs)

variable {t : Tiling α} {ps : Array Nat}

/-- What holds of the refined lengths may be weakened. -/
theorem Refined.mono {Q R : Array Nat → Prop}
    {x : EStateM.Result (Inconsistency α) (Array Nat) Unit} (h : Refined t ps Q x)
    (hQR : ∀ qs, Q qs → R qs) : Refined t ps R x := by
  cases h with
  | ok hn ha hQ => exact .ok hn ha (hQR _ hQ)
  | error h => exact .error h

/-- What becomes of narrower periods, becomes of periods that are narrowed to them. -/
theorem Refined.widen {Q : Array Nat → Prop} {qs : Array Nat}
    {x : EStateM.Result (Inconsistency α) (Array Nat) Unit} (hn : Narrower qs ps)
    (ha : ∀ c, t.Admissible c → (∀ i, c i ∣ periodOf ps i) → ∀ i, c i ∣ periodOf qs i)
    (h : Refined t qs Q x) : Refined t ps Q x := by
  cases h with
  | ok hn' ha' hQ => exact .ok (hn'.trans hn) (fun c hc hle => ha' c hc (ha c hc hle)) hQ
  | error h => exact .error fun c hc hle => h c hc (ha c hc hle)

namespace Refines

variable {x y : Refinement α Unit} {Q R : Array Nat → Prop}

/-- Refinements one after the other. -/
theorem bind (hx : t.Refines ps x Q) (hy : t.Refines ps y R) :
    t.Refines ps (x >>= fun _ => y) fun qs => Q qs ∧ R qs := by
  intro qs hqs
  have hx' := hx qs hqs
  change Refined t qs _ (EStateM.bind x (fun _ => y) qs)
  unfold EStateM.bind
  cases hxqs : x qs with
  | error e rs =>
      rw [hxqs] at hx'
      cases hx' with
      | error h => exact .error h
  | ok u rs =>
      rw [hxqs] at hx'
      cases hx' with
      | ok hn ha hs =>
          dsimp only
          refine Refined.widen hn ha ?_
          generalize hyrs : y rs = z
          have hy' := hyrs ▸ hy rs (hn.trans hqs)
          cases hy' with
          | error h => exact .error h
          | ok hn' ha' hs' =>
              refine .ok hn' ha' ?_
              -- Periods that are the same in the end have not been narrowed on the way.
              rintro rfl
              obtain rfl := hn.antisymm hn'
              exact ⟨hs rfl, hs' rfl⟩

/-- Refinements for each item of a list. -/
theorem forM {l : List Nat} {f : Nat → Refinement α Unit} {Q : Nat → Array Nat → Prop}
    (h : ∀ k ∈ l, t.Refines ps (f k) (Q k)) :
    t.Refines ps (l.forM f) fun qs => ∀ k ∈ l, Q k qs := by
  induction l with
  | nil =>
      intro qs hqs
      exact .ok hqs.self (fun _ _ hle => hle) fun _ k hk => by cases hk
  | cons k l ih =>
      intro qs hqs
      change Refined t qs _ ((f k >>= fun _ => l.forM f) qs)
      refine (bind (h k (by simp)) (ih fun k' hk' => h k' (by simp [hk'])) qs hqs).mono ?_
      intro rs h heq k' hk'
      obtain ⟨hk, hl⟩ := h heq
      rcases List.mem_cons.mp hk' with rfl | hk'
      · exact hk
      · exact hl k' hk'

end Refines

/-! ### Comparing edges -/

/-- Narrowing a period to a distance that every admissible period divides. -/
theorem narrow_refined {j : Nat} {d : Int} {Q : Prop} (hps : Narrower ps ps)
    (h : ∀ c, t.Admissible c → (∀ i, c i ∣ periodOf ps i) → (c j : Int) ∣ d)
    (hQ : (j < ps.size → (periodOf ps j : Int) ∣ d) → Q) :
    Refined t ps (fun qs => qs = ps → Q) (narrow j d ps) := by
  refine .ok (narrower_modify hps.pos j d) (fun c hc hle => dvd_periodOf_modify hle (h c hc hle))
    fun heq => hQ fun hj => ?_
  have hgcd := periodOf_modify (j := j) hj d
  rw [if_pos rfl] at hgcd
  rw [show ps.modify j (reduceGcd · d) = ps from heq] at hgcd
  exact Int.natCast_dvd.mpr (hgcd ▸ Nat.gcd_dvd_right _ _)

theorem periodAt_eq (i : Nat) : (periodAt i : Refinement α Nat) ps = .ok (periodOf ps i) ps := rfl

/-- What the comparison of a gluing with the one a period before comes to. -/
theorem comparePeriodic_eq (i k : Nat) : t.comparePeriodic i k ps =
    if ((t.shape i).connection k).shape ≠ ((t.shape i).connection (k - periodOf ps i)).shape then
      .error (.periodMismatch i k) ps
    else narrow ((t.shape i).connection k).shape (((t.shape i).connection k).edge -
      ((t.shape i).connection (k - periodOf ps i)).edge) ps := by
  simp only [comparePeriodic, bind, EStateM.bind, periodAt_eq]
  split <;> rfl

/-- What the comparison of a gluing with the one that leads back comes to. -/
theorem compareBack_eq (i k : Nat) : t.compareBack i k ps =
    if (t.back ((t.shape i).connection k)).shape ≠ i then .error (.asymmetric i k) ps
    else narrow i ((k : Int) - (t.back ((t.shape i).connection k)).edge) ps := by
  rw [compareBack]
  change (if (t.back ((t.shape i).connection k)).shape ≠ i then _ else _ : Refinement α Unit) ps = _
  split <;> rfl

section

variable (hps : ps.size = t.shapes.size) {i : Nat}
include hps

/-- Comparing an edge with the one a period before it. -/
theorem comparePeriodic_refines {k : Nat} (hi : i < t.shapes.size) (hk : k < (t.shape i).size)
    (hfirst : periodOf ps i ≤ k) (hpos : 0 < periodOf ps i) :
    t.Refines ps (t.comparePeriodic i k) fun qs =>
      ((t.shape i).connection k).shape = ((t.shape i).connection (k - periodOf qs i)).shape ∧
      (((t.shape i).connection k).shape < t.shapes.size →
        (periodOf qs ((t.shape i).connection k).shape : Int) ∣
          ((t.shape i).connection k).edge - ((t.shape i).connection (k - periodOf qs i)).edge) := by
  intro qs hqs
  have hle : periodOf qs i ≤ k := (Nat.le_of_dvd hpos (hqs.dvd i)).trans hfirst
  -- An admissible period divides the present one, so it does not tell the two edges apart.
  have hcopy : ∀ c, t.Admissible c → (∀ i, c i ∣ periodOf qs i) →
      k ≡ k - periodOf qs i [MOD c i] := fun c _ hbelow =>
    ((Nat.modEq_iff_dvd' (Nat.sub_le _ _)).mpr (by
      rw [Nat.sub_sub_self hle]
      exact hbelow i)).symm
  rw [comparePeriodic_eq]
  split
  · rename_i hne
    refine .error fun c hc hbelow => hne ?_
    exact ((hc.respects i hi).periodic k hk _ (by omega) (hcopy c hc hbelow)).1
  · rename_i heq
    refine narrow_refined hqs.self (fun c hc hbelow => ?_) fun hdvd => ⟨not_ne_iff.mp heq, ?_⟩
    · exact ((hc.respects i hi).periodic k hk _ (by omega) (hcopy c hc hbelow)).2.symm.dvd
    · rwa [← hps, ← hqs.size]

/-- Comparing an edge with the one that its partner is glued to. -/
theorem compareBack_refines {k : Nat} (hi : i < t.shapes.size) (hk : k < (t.shape i).size) :
    t.Refines ps (t.compareBack i k) fun qs =>
      (t.back ((t.shape i).connection k)).shape = i ∧
      (periodOf qs i : Int) ∣ k - (t.back ((t.shape i).connection k)).edge := by
  intro qs hqs
  rw [compareBack_eq]
  split
  · rename_i hne
    exact .error fun c hc _ => hne ((hc.respects i hi).back k hk).1
  · rename_i heq
    refine narrow_refined hqs.self (fun c hc _ => ?_) fun hdvd => ⟨not_ne_iff.mp heq, ?_⟩
    · exact ((hc.respects i hi).back k hk).2.dvd
    · exact hdvd (by rwa [hqs.size, hps])

end

/-- What the comparisons of all edges of shape `i` have found of the periods. -/
structure ComparedAt (t : Tiling α) (ps : Array Nat) (i : Nat) : Prop where
  periodic : ∀ k < (t.shape i).size, periodOf ps i ≤ k →
    ((t.shape i).connection k).shape = ((t.shape i).connection (k - periodOf ps i)).shape ∧
    (((t.shape i).connection k).shape < t.shapes.size →
      (periodOf ps ((t.shape i).connection k).shape : Int) ∣
        ((t.shape i).connection k).edge - ((t.shape i).connection (k - periodOf ps i)).edge)
  back : ∀ k < (t.shape i).size, (t.back ((t.shape i).connection k)).shape = i ∧
    (periodOf ps i : Int) ∣ k - (t.back ((t.shape i).connection k)).edge

/-- All edges of a shape have been compared. -/
theorem refineShape_refines (hps : ps.size = t.shapes.size) {i : Nat} (hi : i < t.shapes.size) :
    t.Refines ps (t.refineShape i) fun qs => t.ComparedAt qs i := by
  intro qs hqs
  have hsize : qs.size = t.shapes.size := hqs.size.trans hps
  have hpos : 0 < periodOf qs i := hqs.pos i (by rwa [hsize])
  have hperiodic := Refines.forM (l := List.range' (periodOf qs i)
    ((t.shape i).size - periodOf qs i)) fun k hk => by
      obtain ⟨hle, hlt⟩ := List.mem_range'_1.mp hk
      exact comparePeriodic_refines hsize hi (by omega) hle hpos
  have hback := Refines.forM (l := List.range (t.shape i).size) fun k hk =>
    compareBack_refines hsize hi (List.mem_range.mp hk)
  refine (hperiodic.bind hback qs hqs.self).mono fun rs h heq => ?_
  obtain ⟨h, h'⟩ := h heq
  refine ⟨fun k hk hle => ?_, fun k hk => ?_⟩
  · exact h k (List.mem_range'_1.mpr ⟨hle, by omega⟩)
  · exact h' k (List.mem_range.mpr hk)

/-- Edges a period apart have been compared one by one, so all copies of an edge agree. -/
theorem ComparedAt.respectsAt {i : Nat} (h : t.ComparedAt ps i) (ht : t.Partnered)
    (hi : i < t.shapes.size) : t.RespectsAt (periodOf ps) i := by
  have hfirst : ∀ k < (t.shape i).size,
      ((t.shape i).connection k).shape = ((t.shape i).connection (k % periodOf ps i)).shape ∧
      ((t.shape i).connection k).edge ≡ ((t.shape i).connection (k % periodOf ps i)).edge
        [MOD periodOf ps ((t.shape i).connection k).shape] := by
    intro k
    induction k using Nat.strong_induction_on with
    | _ k ih =>
        intro hk
        rcases Nat.eq_zero_or_pos (periodOf ps i) with hzero | hpos
        · rw [hzero, Nat.mod_zero]
          exact ⟨rfl, rfl⟩
        rcases Nat.lt_or_ge k (periodOf ps i) with hlt | hle
        · rw [Nat.mod_eq_of_lt hlt]
          exact ⟨rfl, rfl⟩
        · obtain ⟨hshape, hedge⟩ := h.periodic k hk hle
          obtain ⟨hshape', hedge'⟩ := ih (k - periodOf ps i) (by omega) (by omega)
          rw [Nat.mod_eq_sub_mod hle]
          refine ⟨hshape.trans hshape', ?_⟩
          rw [← hshape] at hedge'
          exact (Nat.modEq_iff_dvd.mpr (hedge (ht i hi k hk).2.1)).symm.trans hedge'
  constructor
  case periodic =>
    intro k hk k' hk' hmod
    obtain ⟨hshape, hedge⟩ := hfirst k hk
    obtain ⟨hshape', hedge'⟩ := hfirst k' hk'
    rw [show k % periodOf ps i = k' % periodOf ps i from hmod] at hshape hedge
    have heq := hshape.trans hshape'.symm
    rw [← heq] at hedge'
    exact ⟨heq, hedge.trans hedge'.symm⟩
  case back =>
    intro k hk
    obtain ⟨hshape, hdvd⟩ := h.back k hk
    exact ⟨hshape, Nat.modEq_iff_dvd.mpr hdvd⟩

/-- Periods that have been compared everywhere are admissible. -/
theorem admissible_of_comparedAt (ht : t.Partnered) (hps : Narrower ps t.strides)
    (h : ∀ i < t.shapes.size, t.ComparedAt ps i) : t.Admissible (periodOf ps) where
  pos i hi := hps.pos i (by rwa [hps.size, strides, Array.size_map])
  dvd i hi := hps.dvd i |>.trans (by rw [periodOf_strides hi])
  respects i hi := (h i hi).respectsAt ht hi

/-! ### Passes -/

/-- A pass compares all shapes, and tells the sum of the cycle lengths. -/
theorem refinePass_eq : t.refinePass ps =
    match (List.range t.shapes.size).forM t.refineShape ps with
    | .ok () qs => .ok (totalOf qs) qs
    | .error e qs => .error e qs := by
  simp only [refinePass, bind, EStateM.bind]
  cases (List.range t.shapes.size).forM t.refineShape ps <;> rfl

/-- The next pass is the last one if the sum is what it was. -/
theorem refineFrom_succ (fuel : Nat) (last : Option Nat) : t.refineFrom (fuel + 1) last ps =
    match (List.range t.shapes.size).forM t.refineShape ps with
    | .ok () qs =>
      if last = some (totalOf qs) then .ok () qs else t.refineFrom fuel (some (totalOf qs)) qs
    | .error e qs => .error e qs := by
  rw [refineFrom]
  change EStateM.bind _ _ ps = _
  rw [EStateM.bind, refinePass_eq]
  cases (List.range t.shapes.size).forM t.refineShape ps with
  | ok u qs =>
      dsimp only
      split <;> rfl
  | error e qs => rfl

/-- Passes that may be made after one that has not left the sum of the one before it. -/
theorem totalOf_lt_fuel {qs : Array Nat} {last : Option Nat} {fuel : Nat}
    (hle : totalOf qs ≤ totalOf ps) (hlast : ∀ n ∈ last, n = totalOf ps)
    (hne : last ≠ some (totalOf qs))
    (hfuel : totalOf ps + (if last.isSome then 1 else 2) ≤ fuel + 1) : totalOf qs + 1 ≤ fuel := by
  cases last with
  | none =>
      simp only [Option.isSome_none, Bool.false_eq_true, if_false] at hfuel
      omega
  | some n =>
      obtain rfl := hlast n rfl
      have hne' : totalOf ps ≠ totalOf qs := fun h => hne (congrArg some h)
      simp only [Option.isSome_some, if_true] at hfuel
      omega

/-- Passes end before the fuel does: each of them but the last lowers the sum of the periods. -/
theorem refineFrom_refined (hsize : ps.size = t.shapes.size) (fuel : Nat) :
    ∀ (last : Option Nat) {qs : Array Nat}, Narrower qs ps → (∀ n ∈ last, n = totalOf qs) →
      totalOf qs + (if last.isSome then 1 else 2) ≤ fuel →
      Refined t qs (fun rs => ∀ i < t.shapes.size, t.ComparedAt rs i)
        (t.refineFrom fuel last qs) := by
  induction fuel with
  | zero =>
      intro last qs hqs hlast hfuel
      split at hfuel <;> omega
  | succ fuel ih =>
      intro last qs hqs hlast hfuel
      have hpass := Refines.forM (l := List.range t.shapes.size) (f := t.refineShape)
        (fun i hi => refineShape_refines hsize (List.mem_range.mp hi)) qs hqs
      rw [refineFrom_succ]
      cases hres : (List.range t.shapes.size).forM t.refineShape qs with
      | error e rs =>
          rw [hres] at hpass
          cases hpass with
          | error h => exact .error h
      | ok u rs =>
          rw [hres] at hpass
          cases hpass with
          | ok hn ha hsame =>
              have hle := hn.totalOf_le hqs.pos
              dsimp only
              split
              · rename_i hlast'
                have heq := hn.eq_of_totalOf hqs.pos (hlast _ hlast')
                refine .ok hn ha fun i hi => ?_
                rw [heq]
                exact hsame heq i (List.mem_range.mpr hi)
              · rename_i hlast'
                have hlt := totalOf_lt_fuel hle hlast hlast' hfuel
                exact (ih (some (totalOf rs)) (hn.trans hqs) (by simp) hlt).widen hn ha

theorem foldl_add_eq (l : List (Shape α)) (f : Shape α → Nat) (n : Nat) :
    l.foldl (fun n s => n + f s) n = n + (l.map f).sum := by
  induction l generalizing n with
  | nil => rfl
  | cons s l ih => rw [List.foldl_cons, ih, List.map_cons, List.sum_cons, Nat.add_assoc]

/-- The bound is greater than the sum of the cycle lengths that are declared. -/
theorem totalOf_strides_le (t : Tiling α) : totalOf t.strides + 2 ≤ t.refineBound := by
  rw [totalOf_eq_sum, refineBound, ← Array.foldl_toList, foldl_add_eq, strides, Array.toList_map,
    Nat.add_comm]
  refine Nat.add_le_add_left (List.sum_le_sum fun s _ => ?_) 2
  exact (Nat.div_le_self _ _).trans (Nat.le_add_right _ _)

/-- Refining the strides, or periods that have been narrowed already. -/
theorem refinePeriods_narrower (hpos : ∀ i < t.shapes.size, 0 < (t.shape i).stride)
    (hps : Narrower ps t.strides) :
    Refined t ps (fun qs => ∀ i < t.shapes.size, t.ComparedAt qs i) (t.refinePeriods ps) := by
  have hsize : t.strides.size = t.shapes.size := Array.size_map
  refine refineFrom_refined hsize _ none hps (by simp) (Nat.le_trans ?_ (totalOf_strides_le t))
  refine Nat.add_le_add_right (hps.totalOf_le fun i hi => ?_) 2
  rw [hsize] at hi
  rw [periodOf_strides hi]
  exact hpos i hi

theorem strides_narrower (hpos : ∀ i < t.shapes.size, 0 < (t.shape i).stride) :
    Narrower t.strides t.strides := by
  refine .refl fun i hi => ?_
  rw [show t.strides.size = t.shapes.size from Array.size_map] at hi
  rw [periodOf_strides hi]
  exact hpos i hi

/-- Refinement ends with all edges compared, or with gluings that do not agree. -/
theorem refinePeriods_refined (hpos : ∀ i < t.shapes.size, 0 < (t.shape i).stride) :
    Refined t t.strides (fun qs => ∀ i < t.shapes.size, t.ComparedAt qs i)
      (t.refinePeriods t.strides) := refinePeriods_narrower hpos (strides_narrower hpos)

theorem Repetitive.stride_pos (ht : t.Repetitive) {i : Nat} (hi : i < t.shapes.size) :
    0 < (t.shape i).stride := by
  obtain ⟨hpos, hdvd⟩ := ht _ (shape_mem hi)
  have hcount := Nat.pos_of_dvd_of_pos hdvd hpos
  exact Nat.div_pos (Nat.max_le.mpr ⟨Nat.le_of_dvd hpos hdvd, hpos⟩)
    (Nat.lt_of_lt_of_le hcount (Nat.le_max_left _ _))

/-- An admissible family lies below the strides. -/
theorem Admissible.dvd_strides {c : Nat → Nat} (hc : t.Admissible c) (i : Nat) :
    c i ∣ periodOf t.strides i := by
  rcases Nat.lt_or_ge i t.shapes.size with hi | hi
  · rw [periodOf_strides hi]
    exact hc.dvd i hi
  · rw [periodOf_of_le (by rwa [strides, Array.size_map])]
    exact dvd_zero _

/-- Edges are glued back to by their partners, up to a copy, when gluings respect the strides. -/
theorem asymmetricEdges_eq_nil (ht : t.WellFormed) (hid : ∀ i < t.shapes.size, (t.shape i).id = i)
    (hmirror : ∀ s ∈ t.shapes, ∀ c ∈ s.connections, c.mirror = false)
    (h : t.Admissible fun i => (t.shape i).stride) : t.asymmetricEdges = [] := by
  rw [asymmetricEdges, List.flatMap_eq_nil_iff]
  intro s hs
  obtain ⟨i, hi⟩ := Array.getElem?_of_mem (Array.mem_toList_iff.mp hs)
  have hlt := (Array.getElem?_eq_some_iff.mp hi).1
  obtain rfl := shape_eq hi
  rw [List.filterMap_eq_nil_iff]
  rintro ⟨c, k⟩ hc
  obtain hk : (t.shape i).connections[k]? = some c := by
    simpa using List.mem_zipIdx_iff_getElem?.mp hc
  have hmem := Array.mem_of_getElem? hk
  have hsize : k < (t.shape i).size :=
    ht.connections_size _ (shape_mem hlt) ▸ (Array.getElem?_eq_some_iff.mp hk).1
  have htarget := ht.target_shape _ (shape_mem hlt) c hmem
  have hedge := ht.target_edge _ (shape_mem hlt) c hmem
  obtain ⟨hshape, hback⟩ := (h.respects i hlt).back k hsize
  have hconnection : (t.shape i).connection k = c := by
    rw [Shape.connection, hk, Option.getD_some]
  rw [hconnection, back] at hshape hback
  have hmax : Nat.max (t.shape i).stride 1 = (t.shape i).stride := Nat.max_eq_left (h.pos i hlt)
  have hcongruent : congruent ((t.shape c.shape).connection c.edge).edge k (t.shape i).stride := by
    rw [congruent, hmax, beq_iff_eq]
    exact Int.emod_eq_zero_of_dvd (Int.modEq_iff_dvd.mp (Int.natCast_modEq_iff.mpr hback).symm)
  refine if_pos ?_
  rw [isSymmetricAt, ht.connection_eq htarget hedge, Option.any_some, hshape, hid i hlt,
    hmirror _ (shape_mem hlt) c hmem,
    hmirror _ (shape_mem htarget) _ (ht.connection_mem htarget hedge), hcongruent]
  simp

/-- Refining leaves strides that gluings respect as they are. -/
theorem refinePeriods_of_admissible (h : t.Admissible fun i => (t.shape i).stride) :
    t.refinePeriods t.strides = .ok () t.strides := by
  have href := refinePeriods_refined (t := t) h.pos
  have hsize : t.strides.size = t.shapes.size := Array.size_map
  generalize t.refinePeriods t.strides = x at href ⊢
  cases href with
  | error hnone => exact absurd h.dvd_strides (hnone _ h)
  | @ok qs hn ha _ =>
      have hn' : Narrower t.strides qs := by
        refine ⟨hn.size.symm, fun i => ?_, fun i hi => ?_⟩
        · rcases Nat.lt_or_ge i t.shapes.size with hi | hi
          · rw [periodOf_strides hi]
            exact ha _ h h.dvd_strides i
          · have hqs : periodOf qs i = 0 := periodOf_of_le (by rwa [hn.size, hsize])
            rw [hqs]
            exact dvd_zero _
        · rw [hsize] at hi
          rw [periodOf_strides hi]
          exact h.pos i hi
      rw [hn.antisymm hn']

/-- **Refining finds the greatest periods that gluings respect.**  It fails exactly when there are
none, and otherwise every admissible family divides what it leaves. -/
theorem refinePeriods_greatest (ht : t.Partnered) (hrep : t.Repetitive) :
    ((∃ e qs, t.refinePeriods.run t.strides = .error e qs) ↔ ¬ ∃ c, t.Admissible c) ∧
    ∀ qs, t.refinePeriods.run t.strides = .ok () qs → qs.size = t.shapes.size ∧
      t.Admissible (periodOf qs) ∧
      ∀ c, t.Admissible c → ∀ i < t.shapes.size, c i ∣ periodOf qs i := by
  have href := refinePeriods_refined (t := t) fun i hi => hrep.stride_pos hi
  rw [EStateM.run]
  generalize t.refinePeriods t.strides = x at href ⊢
  cases href with
  | error h =>
      refine ⟨⟨fun _ ⟨c, hc⟩ => h c hc hc.dvd_strides, fun _ => ⟨_, _, rfl⟩⟩, fun qs hqs => ?_⟩
      cases hqs
  | ok hn ha hcompared =>
      have hadm := admissible_of_comparedAt ht hn hcompared
      refine ⟨⟨?_, fun h => absurd ⟨_, hadm⟩ h⟩, fun qs hqs => ?_⟩
      · rintro ⟨e, qs, h⟩
        cases h
      cases hqs
      refine ⟨hn.size.trans Array.size_map, hadm, fun c hc i _ => ha c hc hc.dvd_strides i⟩

/-- Two squares, edge `k` of the first glued to edge `k` of the second and that one glued to the
opposite edge of the first. -/
def twist : Tiling Float :=
  let square (connections : Array Connection) : Shape Float :=
    { (Shape.empty : Shape Float) with
      vertices := Array.replicate 4 Point.origin
      repeatCount := 1
      connections }
  { (Tiling.empty : Tiling Float) with
    shapes := #[
      square #[⟨1, 0, false⟩, ⟨1, 1, false⟩, ⟨1, 2, false⟩, ⟨1, 3, false⟩],
      square #[⟨0, 2, false⟩, ⟨0, 3, false⟩, ⟨0, 0, false⟩, ⟨0, 1, false⟩]] }

theorem twist_greatest : twist.Partnered ∧ twist.Repetitive ∧
    twist.refinePeriods.run twist.strides = .ok () #[2, 2] ∧
    twist.Admissible (periodOf #[2, 2]) ∧ ¬ twist.Admissible fun _ => 4 := by
  have ht : twist.Partnered := by
    unfold Partnered
    decide
  have hrep : twist.Repetitive := by
    unfold Repetitive
    decide
  have hstrides : twist.strides = #[4, 4] := by simp [strides, twist, Shape.stride, Shape.size]
  have hrun : twist.refinePeriods.run twist.strides = .ok () #[2, 2] := by
    rw [hstrides]
    rfl
  obtain ⟨-, hok⟩ := refinePeriods_greatest ht hrep
  obtain ⟨-, hadm, hgreatest⟩ := hok _ hrun
  refine ⟨ht, hrep, hrun, hadm, fun h => ?_⟩
  have hdvd := hgreatest _ h 0 (by decide)
  revert hdvd
  decide

end Tiling

/-! ### What refining leaves, also when it fails -/

section

variable {α β γ : Type}

/-- Whether it answers or fails, the computation raises no period and makes none zero. -/
def Narrows (x : Refinement α β) : Prop :=
  ∀ ps : Array Nat, (∀ i < ps.size, 0 < periodOf ps i) → Narrower (left (x ps)) ps

theorem Narrows.bind {x : Refinement α β} {f : β → Refinement α γ} (hx : Narrows x)
    (hf : ∀ b, Narrows (f b)) : Narrows (x >>= f) := by
  intro ps hps
  have hfirst := hx ps hps
  change Narrower (left (EStateM.bind x f ps)) ps
  rw [EStateM.bind]
  cases hres : x ps with
  | error e qs =>
      rw [hres] at hfirst
      exact hfirst
  | ok b qs =>
      rw [hres] at hfirst
      exact (hf b qs hfirst.pos).trans hfirst

theorem Narrows.forM {f : Nat → Refinement α Unit} (hf : ∀ k, Narrows (f k)) (l : List Nat) :
    Narrows (l.forM f) := by
  induction l with
  | nil => exact fun ps hps => .refl hps
  | cons k l ih => exact (hf k).bind fun _ => ih

/-- What it leaves when it answers. -/
theorem Narrows.ok {x : Refinement α β} (hx : Narrows x) {ps qs : Array Nat} {b : β}
    (hps : ∀ i < ps.size, 0 < periodOf ps i) (h : x ps = .ok b qs) : Narrower qs ps := by
  have hn := hx ps hps
  rwa [h] at hn

/-- What it leaves when it fails. -/
theorem Narrows.error {x : Refinement α β} (hx : Narrows x) {ps qs : Array Nat}
    {e : Inconsistency α} (hps : ∀ i < ps.size, 0 < periodOf ps i) (h : x ps = .error e qs) :
    Narrower qs ps := by
  have hn := hx ps hps
  rwa [h] at hn

namespace Tiling

/-- The comparison of a gluing with the one a period before makes no cycle length longer. -/
theorem comparePeriodic_narrows (t : Tiling α) (i k : Nat) : Narrows (t.comparePeriodic i k) := by
  intro ps hps
  rw [comparePeriodic_eq]
  split
  · exact .refl hps
  · exact narrower_modify hps _ _

/-- The comparison of a gluing with the one that leads back makes no cycle length longer. -/
theorem compareBack_narrows (t : Tiling α) (i k : Nat) : Narrows (t.compareBack i k) := by
  intro ps hps
  rw [compareBack_eq]
  split
  · exact .refl hps
  · exact narrower_modify hps _ _

theorem refineShape_narrows (t : Tiling α) (i : Nat) : Narrows (t.refineShape i) := by
  refine Narrows.bind (fun ps hps => .refl hps) fun first => ?_
  exact (Narrows.forM (t.comparePeriodic_narrows i) _).bind fun _ =>
    Narrows.forM (t.compareBack_narrows i) _

/-- A pass makes no cycle length longer. -/
theorem refinePass_narrows (t : Tiling α) : Narrows t.refinePass :=
  (Narrows.forM t.refineShape_narrows _).bind fun _ _ hps => .refl hps

theorem refinePeriods_narrows (t : Tiling α) : Narrows t.refinePeriods := by
  suffices h : ∀ fuel last, Narrows (t.refineFrom fuel last) from h _ _
  intro fuel
  induction fuel with
  | zero => exact fun _ _ hps => .refl hps
  | succ fuel ih =>
      intro last
      rw [refineFrom]
      refine t.refinePass_narrows.bind fun total => ?_
      split
      · exact fun _ hps => .refl hps
      · exact ih _

end Tiling

end

end Mosaic
