import Mathlib.Data.Int.ModEq
import Mosaic.Proofs.Tiling.DoubleCover

/-!
# Tiling — symmetric gluings

Gluings are symmetric when every edge is glued to an edge that is glued back to a copy of it, and
both gluings are mirrored or neither is (`Tiling.Symmetric`).  Copies of an edge are a multiple of
the stride of its shape away.  `Tiling.asymmetricEdges` finds none exactly then
(`asymmetricEdges_eq_nil_iff`).

The double cover of a tiling with symmetric gluings has symmetric gluings too
(`Symmetric.doubleCover`): turning a shape around takes the copies of an edge to the copies of its
image, because the stride divides the number of edges.
-/

namespace Mosaic

/-! ### Edges of the mirror image -/

section Reflection

variable {n : Nat} {ap : Bool}

theorem reflectedEdge_lt {e : Nat} (he : e < n) : reflectedEdge n ap e < n := by
  rw [reflectedEdge_eq]
  exact shifted_lt (by omega)

/-- An edge is the image of its image. -/
theorem reflectedEdge_reflectedEdge (hap : ap → 2 ≤ n) {e : Nat} (he : e < n) :
    reflectedEdge n ap (reflectedEdge n ap e) = e := by
  cases ap with
  | false =>
      simp only [reflectedEdge, Bool.false_eq_true, if_false]
      omega
  | true =>
      have hn := hap rfl
      have hlt : reflectedEdge n true e < n := reflectedEdge_lt he
      simp only [reflectedEdge, if_true] at hlt ⊢
      rw [sub_two_mod hn (by omega), sub_two_mod hn (by omega)]
      grind

/-- The mirror image takes the edge before to the edge behind. -/
theorem reflectedEdge_pred (hap : ap → 2 ≤ n) {e : Nat} (he : e < n) :
    reflectedEdge n ap ((e + n - 1) % n) = (reflectedEdge n ap e + 1) % n := by
  have hplace : n - 1 - (e + n - 1) % n = (n - 1 - e + 1) % n := by
    rw [pred_mod he, succ_mod (by omega)]
    split <;> split <;> omega
  rw [reflectedEdge_eq, reflectedEdge_eq, shifted_succ hap (by omega), hplace]

/-- The mirror image takes copies of an edge to copies. -/
theorem reflectedEdge_modEq {d e f : Nat} (hd : d ∣ n) (hap : ap → d = n) (he : e < n) (hf : f < n)
    (h : e ≡ f [MOD d]) : reflectedEdge n ap e ≡ reflectedEdge n ap f [MOD d] := by
  cases ap with
  | false =>
      have hsum : reflectedEdge n false e + e ≡ reflectedEdge n false f + f [MOD d] := by
        have heq : ∀ {e}, e < n → reflectedEdge n false e + e = n - 1 := by
          intro e he
          simp only [reflectedEdge, Bool.false_eq_true, if_false]
          omega
        rw [heq he, heq hf]
      exact Nat.ModEq.add_right_cancel h hsum
  | true =>
      obtain rfl := hap rfl
      rw [Nat.ModEq.eq_of_lt_of_lt h he hf]

end Reflection

/-- A mirror image repeats around itself as the shape does. -/
theorem Shape.stride_reflected {α : Type} [Neg α] (s : Shape α) : s.reflected.stride = s.stride := by
  have hsize : s.reflected.size = s.size := by
    rw [size, reflected_vertices]
    simp [size]
  have hcount : s.reflected.repeatCount = s.repeatCount := by
    unfold reflected
    split <;> rfl
  rw [stride, stride, hsize, hcount]

/-! ### Symmetric gluings -/

namespace Tiling

variable {α : Type} {t : Tiling α}

/-- Every edge is glued to an edge that is glued back to a copy of it, with the same orientation. -/
def Symmetric (t : Tiling α) : Prop := ∀ a e c, t.connection? a e = some c →
  ∃ back, t.connection? c.shape c.edge = some back ∧ back.shape = a ∧ back.mirror = c.mirror ∧
    back.edge ≡ e [MOD (t.shape a).stride]

theorem congruent_iff {i j p : Nat} (hp : 0 < p) : congruent i j p ↔ i ≡ j [MOD p] := by
  have hmax : Nat.max p 1 = p := Nat.max_eq_left hp
  rw [congruent, hmax, beq_iff_eq, ← Int.natCast_modEq_iff, Int.modEq_comm,
    Int.modEq_iff_dvd, Int.dvd_iff_emod_eq_zero]

/-- No edge is found asymmetric exactly when gluings are symmetric. -/
theorem asymmetricEdges_eq_nil_iff (hid : ∀ i < t.shapes.size, (t.shape i).id = i)
    (hpos : ∀ i < t.shapes.size, 0 < (t.shape i).connections.size → 0 < (t.shape i).stride) :
    t.asymmetricEdges = [] ↔ t.Symmetric := by
  have hat : ∀ {a e c}, t.connection? a e = some c → (t.isSymmetricAt (t.shape a) e c ↔
      ∃ back, t.connection? c.shape c.edge = some back ∧ back.shape = a ∧ back.mirror = c.mirror ∧
        back.edge ≡ e [MOD (t.shape a).stride]) := by
    intro a e c hc
    obtain ⟨ha, hce⟩ := connection?_eq_some_iff.mp hc
    have hstride := hpos a ha (Nat.zero_lt_of_lt (Array.getElem?_eq_some_iff.mp hce).1)
    simp only [isSymmetricAt, Option.any_eq_true, Bool.and_eq_true, beq_iff_eq, hid a ha,
      congruent_iff hstride, and_assoc]
  simp only [asymmetricEdges, List.flatMap_eq_nil_iff, List.filterMap_eq_nil_iff]
  constructor
  · intro h a e c hc
    obtain ⟨ha, hce⟩ := connection?_eq_some_iff.mp hc
    have hnone := h (t.shape a) (Array.mem_toList_iff.mpr (shape_mem ha)) (c, e)
      (List.mem_zipIdx_iff_getElem?.mpr (by simpa using hce))
    refine (hat hc).mp ?_
    by_contra hsym
    rw [if_neg hsym] at hnone
    cases hnone
  · intro h s hs
    obtain ⟨a, ha⟩ := Array.getElem?_of_mem (Array.mem_toList_iff.mp hs)
    obtain rfl := shape_eq ha
    rintro ⟨c, e⟩ hce
    have hc : t.connection? a e = some c := by
      refine connection?_eq_some_iff.mpr ⟨(Array.getElem?_eq_some_iff.mp ha).1, ?_⟩
      simpa using List.mem_zipIdx_iff_getElem?.mp hce
    exact if_pos ((hat hc).mpr (h a e c hc))

/-- Shapes have their place in the catalogue as number, as many angles and gluings as vertices, and
a stride that divides that number; an apeirogon has one period and at least one edge besides its
ends. -/
structure Regular (t : Tiling α) : Prop where
  id : ∀ i < t.shapes.size, (t.shape i).id = i
  angles_size : ∀ i < t.shapes.size, (t.shape i).angles.size = (t.shape i).size
  connections_size : ∀ i < t.shapes.size, (t.shape i).connections.size = (t.shape i).size
  stride_dvd : ∀ i < t.shapes.size, (t.shape i).stride ∣ (t.shape i).size
  ends : ∀ i < t.shapes.size, (t.shape i).apeirogonal →
    3 ≤ (t.shape i).size ∧ (t.shape i).stride = (t.shape i).size

namespace Regular

variable (ht : t.Regular)
include ht

theorem stride_pos {i : Nat} (hi : i < t.shapes.size) (hc : 0 < (t.shape i).connections.size) :
    0 < (t.shape i).stride :=
  Nat.pos_of_dvd_of_pos (ht.stride_dvd i hi) (ht.connections_size i hi ▸ hc)

theorem edge_lt {a e : Nat} {c : Connection} (hc : t.connection? a e = some c) :
    a < t.shapes.size ∧ e < (t.shape a).size := by
  obtain ⟨ha, hce⟩ := connection?_eq_some_iff.mp hc
  exact ⟨ha, ht.connections_size a ha ▸ (Array.getElem?_eq_some_iff.mp hce).1⟩

theorem asymmetricEdges_eq_nil (h : t.Symmetric) : t.asymmetricEdges = [] :=
  (asymmetricEdges_eq_nil_iff ht.id fun _ hi => ht.stride_pos hi).mpr h

theorem copyEdge_modEq {a : Nat} (ha : a < t.shapes.size) (image : Bool) {e f : Nat}
    (he : e < (t.shape a).size) (hf : f < (t.shape a).size)
    (h : e ≡ f [MOD (t.shape a).stride]) :
    t.copyEdge image a e ≡ t.copyEdge image a f [MOD (t.shape a).stride] := by
  cases image with
  | false => exact h
  | true => exact reflectedEdge_modEq (ht.stride_dvd a ha) (fun hap => (ht.ends a ha hap).2) he hf h

variable [Neg α]

/-- The gluing of a copy of an edge in the double cover. -/
theorem connection?_doubleCover (hm : t.mirrorCount ≠ 0) {a e : Nat} {c : Connection}
    (hc : t.connection? a e = some c) (htarget : c.shape < t.shapes.size) (image : Bool) :
    t.doubleCover.connection? (t.copy image a) (t.copyEdge image a e) =
      some ⟨t.copy (image ^^ c.mirror) c.shape, t.copyEdge (image ^^ c.mirror) c.shape c.edge,
        false⟩ := by
  obtain ⟨ha, he⟩ := ht.edge_lt hc
  have hcopy : (if image then (t.shape a).reflected else t.shape a).connections[
      t.copyEdge image a e]? = some c := by
    have hce := (connection?_eq_some_iff.mp hc).2
    cases image with
    | false => exact hce
    | true =>
        refine (Shape.getElem?_reflected_connections (fun hap => ?_) (ht.connections_size a ha)
          he).trans hce
        exact Nat.le_of_succ_le (ht.ends a ha hap).1
  rw [connection?, getElem?_doubleCover hm (getElem?_shape ha) image]
  rw [← liftConnection_eq image (ht.angles_size _ htarget)]
  simp [lift, hcopy]

/-- Every edge of the double cover is the copy of an edge. -/
theorem exists_copyEdge (hm : t.mirrorCount ≠ 0) {i k : Nat} {c : Connection}
    (hc : t.doubleCover.connection? i k = some c) : ∃ image a e, i = t.copy image a ∧
      k = t.copyEdge image a e ∧ (t.doubleCover.shape i).stride = (t.shape a).stride ∧
      ∃ c', t.connection? a e = some c' := by
  obtain ⟨hi, hk⟩ := connection?_eq_some_iff.mp hc
  obtain ⟨image, a, s, hs, rfl, hr⟩ := exists_copy hm (getElem?_shape hi)
  obtain rfl := shape_eq hs
  have ha : a < t.shapes.size := (Array.getElem?_eq_some_iff.mp hs).1
  have hsize := ht.connections_size a ha
  have hglued : ∀ {e}, e < (t.shape a).size → ∃ c', t.connection? a e = some c' := by
    intro e he
    have he' : e < (t.shape a).connections.size := hsize ▸ he
    exact ⟨_, connection?_eq_some_iff.mpr ⟨ha, Array.getElem?_eq_getElem he'⟩⟩
  rw [hr] at hk ⊢
  have hlt := (Array.getElem?_eq_some_iff.mp hk).1
  cases image with
  | false =>
      simp only [lift, Array.size_map, Bool.false_eq_true, if_false, hsize] at hlt
      exact ⟨false, a, k, rfl, rfl, rfl, hglued hlt⟩
  | true =>
      have hends : (t.shape a).apeirogonal → 2 ≤ (t.shape a).size := fun hap =>
        Nat.le_of_succ_le (ht.ends a ha hap).1
      have hrsize : (t.shape a).reflected.connections.size = (t.shape a).size := by
        rw [Shape.reflected_connections]
        simp [hsize]
      simp only [lift, Array.size_map, if_true, hrsize] at hlt
      refine ⟨true, a, reflectedEdge (t.shape a).size (t.shape a).apeirogonal k, rfl,
        (reflectedEdge_reflectedEdge hends hlt).symm, ?_, hglued (reflectedEdge_lt hlt)⟩
      exact (t.shape a).stride_reflected

/-- **Symmetric gluings stay symmetric in the double cover.** -/
theorem doubleCover_symmetric (h : t.Symmetric) : t.doubleCover.Symmetric := by
  by_cases hm : t.mirrorCount = 0
  · simp only [Tiling.doubleCover, hm, if_true]
    exact h
  · intro i k c hc
    obtain ⟨image, a, e, rfl, rfl, hstride, c', hc'⟩ := ht.exists_copyEdge hm hc
    obtain ⟨back, hback, hshape, hmirror, hedge⟩ := h a e c' hc'
    obtain ⟨ha, he⟩ := ht.edge_lt hc'
    have htarget := (ht.edge_lt hback).1
    obtain ⟨again, hagain, -⟩ := h _ _ _ hback
    have hedge' := (ht.edge_lt hagain).2
    rw [hshape] at hedge'
    rw [ht.connection?_doubleCover hm hc' htarget] at hc
    cases hc
    -- Back on the first sheet or the second, whichever the edge lies on.
    have hlift := ht.connection?_doubleCover hm hback (hshape ▸ ha) (image ^^ c'.mirror)
    have hsheet : ((image ^^ c'.mirror) ^^ back.mirror) = image := by
      rw [hmirror, Bool.xor_assoc, Bool.xor_self, Bool.xor_false]
    rw [hsheet, hshape] at hlift
    refine ⟨_, hlift, rfl, rfl, ?_⟩
    rw [hstride]
    exact ht.copyEdge_modEq ha image hedge' he hedge

/-- The double cover of symmetric gluings has no asymmetric edges. -/
theorem doubleCover_asymmetricEdges (h : t.Symmetric) : t.doubleCover.asymmetricEdges = [] := by
  by_cases hm : t.mirrorCount = 0
  · simp only [Tiling.doubleCover, hm, if_true]
    exact ht.asymmetricEdges_eq_nil h
  · refine (asymmetricEdges_eq_nil_iff (fun i hi => ?_) fun i hi hc => ?_).mpr
      (ht.doubleCover_symmetric h)
    · obtain ⟨image, a, s, -, -, hr⟩ := exists_copy hm (getElem?_shape hi)
      rw [hr]
      rfl
    · obtain ⟨c, hc⟩ : ∃ c, t.doubleCover.connection? i 0 = some c :=
        ⟨_, connection?_eq_some_iff.mpr ⟨hi, Array.getElem?_eq_getElem hc⟩⟩
      obtain ⟨_, a, e, -, -, hstride, c', hc'⟩ := ht.exists_copyEdge hm hc
      obtain ⟨ha, he⟩ := ht.edge_lt hc'
      rw [hstride]
      exact Nat.pos_of_dvd_of_pos (ht.stride_dvd a ha) (Nat.zero_lt_of_lt he)

end Regular

end Tiling

end Mosaic
