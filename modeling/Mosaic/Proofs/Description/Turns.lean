import Mathlib
import Mosaic.Proofs.Description.Finish
import Mosaic.Proofs.Description.Rounds
import Mosaic.Proofs.Description.Stage
import Mosaic.Proofs.Tiling.Folds
import Mosaic.Proofs.Tiling.Turns

/-!
# Proofs — Description — turns

Which angles a load can reduce to a single turn, in doubles: those up to `farthest`
(`Tiling.foldAngle_ends_iff`).  A load of a description whose angles are all that near ends.  The
tile with one corner shows that every angle that is farther away can be described, and that the load
does not end then.
-/

namespace Mosaic

open Double Drafting Tiling

/-! ### The double cover -/

section Cover

variable {α : Type} [Scalar α] {s : Shape α} {t : Tiling α}

theorem Shape.mem_reflected_angles {a : α} (ha : a ∈ s.reflected.angles) : a ∈ s.angles := by
  rw [reflected_angles] at ha
  rcases Array.mem_append.mp (mem_of_mem_shiftedList ha) with ha | ha
  · exact mem_of_mem_extract (Array.mem_reverse.mp ha)
  · exact mem_of_mem_extract ha

/-- The angles of a double cover are those of the tiling. -/
theorem mem_angles_doubleCover {r : Shape α} (hr : r ∈ t.doubleCover.shapes) {a : α}
    (ha : a ∈ r.angles) : ∃ s ∈ t.shapes, a ∈ s.angles := by
  by_cases hm : t.mirrorCount = 0
  · rw [doubleCover_of_plain hm] at hr
    exact ⟨r, hr, ha⟩
  · obtain ⟨i, hi⟩ := Array.getElem?_of_mem hr
    obtain ⟨image, b, s, hs, -, rfl⟩ := exists_copy hm hi
    refine ⟨s, Array.mem_of_getElem? hs, ?_⟩
    cases image with
    | false => exact ha
    | true => exact Shape.mem_reflected_angles ha

end Cover

/-! ### Loads -/

section Load

variable {α : Type} [Scalar α] {t : Tiling α}

theorem checkEdgeLengths_ne_endlessAngle (i k : Nat) :
    t.checkEdgeLengths ≠ .error (.endlessAngle i k) := by
  intro h
  rw [checkEdgeLengths] at h
  split at h
  · cases h
  · split at h
    · rename_i e he
      cases h
      obtain ⟨s, -, hs⟩ := List.exists_of_findSome?_eq_some he
      obtain ⟨x, -, hx⟩ := List.exists_of_findSome?_eq_some hs
      dsimp only at hx
      split at hx <;> cases hx
    · cases h

/-- What comes after reading ends if the angles can be reduced to a single turn. -/
theorem finish_ends (hzero : (foldAngle (0 : α)).isSome = true)
    (h : ∀ s ∈ t.shapes, ∀ a ∈ s.angles, (foldAngle a).isSome = true) (settings : Settings)
    (i k : Nat) : t.finish settings ≠ .error (.inconsistent (.endlessAngle i k)) := by
  have hfolds : (t.cover settings).Folds := by
    unfold cover
    split
    · refine folds_of_mem hzero fun r hr a ha => ?_
      obtain ⟨s, hs, has⟩ := mem_angles_doubleCover hr ha
      exact h s hs a has
    · exact folds_of_mem hzero h
  intro herror
  obtain ⟨x, hx, hcheck | ⟨u, hvalence⟩⟩ := finish_error herror
  · cases hx
    exact checkEdgeLengths_ne_endlessAngle i k hcheck
  · cases hx
    exact hfolds.analyseValence i k u hvalence

/-- A load ends if the angles that are described can be reduced to a single turn. -/
theorem load_ends (hzero : (foldAngle (0 : α)).isSome = true) {source : String}
    {settings : Settings} {prior : Option (Tiling α)} {rules : Tiling α → Except String Unit}
    (hread : read source settings prior = .ok t)
    (h : ∀ s ∈ t.shapes, ∀ a ∈ s.angles, (foldAngle a).isSome = true) (i k : Nat) :
    load source settings prior rules ≠ .error (.inconsistent (.endlessAngle i k)) := by
  intro herror
  obtain h' | ⟨u, hu, hfinish⟩ | ⟨reason, hreason⟩ := load_error herror
  · cases hread.symm.trans h'
  · cases hread.symm.trans hu
    exact finish_ends hzero h settings i k hfinish
  · cases hreason

end Load

/-! ### The monogon -/

/-- The tile with one edge of unit length, glued to itself, and one corner. -/
def Shape.monogon (v : Point Float) (a : Float) : Shape Float :=
  { (Shape.empty : Shape Float) with
    corners := #[⟨1, a, false⟩]
    vertices := #[v]
    angles := #[a]
    edges := #[.finite 1]
    connections := #[⟨0, 0, false⟩]
    stretchShear := #[(1, 0)]
    repeatCount := 1 }

/-- The combinatorial tiling with this tile alone. -/
def Tiling.monogon (v : Point Float) (a : Float) : Tiling Float :=
  { (Tiling.empty : Tiling Float) with
    geometry := .euclidean
    isCombinatorial := true
    shapes := #[Shape.monogon v a] }

section Monogon

variable {v : Point Float} {a : Float}

/-- A combinatorial tiling takes any angle for a corner. -/
theorem ofCorners_monogon (a : Float) :
    ∃ v b, Shape.ofCorners 0 .euclidean true false #[⟨1, a, false⟩] 1 =
      .ok (Shape.monogon v a, b) := by
  obtain ⟨built, hbuilt, hpolygon⟩ : ∃ built,
      Polygon.ofCorners .euclidean true false #[⟨1, a, false⟩] = .ok built ∧
        built.polygon = Polygon.placeholder .euclidean #[⟨1, a, false⟩] := ⟨_, rfl, rfl⟩
  obtain ⟨v, hv⟩ : ∃ v, built.polygon.vertices = #[v] := by
    refine Array.size_eq_one_iff.mp ?_
    rw [hpolygon]
    exact Array.size_mapIdx
  refine ⟨v, built, ?_⟩
  rw [Shape.ofCorners, hbuilt]
  have hangles : built.polygon.angles = #[a] := by simp [hpolygon, Polygon.placeholder]
  have hedges : built.polygon.edges = #[.finite 1] := by simp [hpolygon, Polygon.placeholder]
  have hglued : Array.ofFn (fun _ : Fin #[v].size => (⟨0, 0, false⟩ : Connection)) =
      #[⟨0, 0, false⟩] :=
    Array.ext Array.size_ofFn fun i _ _ => by simp
  simp only [bind, Except.bind, pure, Except.pure, hv, hangles, hedges]
  simpa [Shape.resetConnections, Shape.monogon, Shape.size, Shape.empty] using hglued

theorem strides_monogon : (Tiling.monogon v a).strides = #[1] := by
  simp [Tiling.strides, Tiling.monogon, Shape.monogon, Shape.stride, Shape.size]

theorem admissible_monogon :
    (Tiling.monogon v a).Admissible fun i => ((Tiling.monogon v a).shape i).stride := by
  have hone {i : Nat} (hi : i < (Tiling.monogon v a).shapes.size) : i = 0 := Nat.lt_one_iff.mp hi
  refine ⟨fun i hi => ?_, fun i hi => dvd_rfl,
    fun i hi => ⟨fun k hk k' hk' _ => ?_, fun k hk => ?_⟩⟩
  · obtain rfl := hone hi
    exact Nat.div_pos le_rfl Nat.one_pos
  · obtain rfl := hone hi
    obtain rfl : k = 0 := Nat.lt_one_iff.mp hk
    obtain rfl : k' = 0 := Nat.lt_one_iff.mp hk'
    exact ⟨rfl, rfl⟩
  · obtain rfl := hone hi
    obtain rfl : k = 0 := Nat.lt_one_iff.mp hk
    exact ⟨rfl, rfl⟩

theorem checkEdgeLengths_monogon : (Tiling.monogon v a).checkEdgeLengths = .ok () := by
  have hzip : (Shape.monogon v a).edges.zip (Shape.monogon v a).connections =
      #[(.finite 1, ⟨0, 0, false⟩)] := by
    simp [Shape.monogon]
  have hlength : (Tiling.monogon v a).lengthMismatch? (Shape.monogon v a) = none := by
    rw [lengthMismatch?, hzip]
    rfl
  have hshapes : (Tiling.monogon v a).shapes.toList = [Shape.monogon v a] := rfl
  rw [checkEdgeLengths, hshapes, List.findSome?_cons, hlength]
  rfl

theorem walkVertex_monogon (h : foldAngle a = none) :
    (Tiling.monogon v a).walkVertex #[1] 0 0 = .error (.endlessAngle 0 0) := by
  have hangle : ((((Tiling.monogon v a).shape 0).angles[0]?).getD 0) = a := rfl
  rw [walkVertex, continueWalk]
  simp only [hangle, h]
  rfl

theorem analyseValence_monogon (h : foldAngle a = none) :
    ∃ t, analyseValence.run (Tiling.monogon v a) = .error (.endlessAngle 0 0) t := by
  have hfrom : (Tiling.monogon v a).walkShapeFrom #[1] 0 [0] #[] = .error (.endlessAngle 0 0) := by
    rw [walkShapeFrom, walkVertex_monogon h]
    rfl
  have hwalks (s : Tiling Float) : (Tiling.monogon v a).walkShapes #[1] [0] s =
      .error (.endlessAngle 0 0) s := by
    have hrange : List.range ((Tiling.monogon v a).shape 0).size = [0] := rfl
    rw [walkShapes, hrange, hfrom]
    rfl
  have hrefine := refinePeriods_of_admissible (admissible_monogon (v := v) (a := a))
  have hfuel : (Tiling.monogon v a).refineBound = 4 + 1 := rfl
  have hrange : List.range (Tiling.monogon v a).shapes.size = [0] := rfl
  rw [strides_monogon] at hrefine
  have hflat : ((Tiling.monogon v a).geometry.isAffine || (Tiling.monogon v a).isStar) = false :=
    rfl
  rw [EStateM.run, analyseValence_eq, strides_monogon, hfuel, settleValence_succ, hrefine]
  simp only [hflat, Bool.false_eq_true, if_false, hrange, hwalks]
  exact ⟨_, rfl⟩

/-- **A monogon** whose angle cannot be reduced is not accepted. -/
theorem finish_monogon (h : foldAngle a = none) (settings : Settings) :
    (Tiling.monogon v a).finish settings = .error (.inconsistent (.endlessAngle 0 0)) := by
  have hcover : (if settings.doubleCover then (Tiling.monogon v a).doubleCover
      else Tiling.monogon v a) = Tiling.monogon v a := by
    split <;> rfl
  obtain ⟨t, ht⟩ := analyseValence_monogon (v := v) h
  rw [finish, checkEdgeLengths_monogon]
  have htree : (Tiling.monogon v a).haveTree = false := rfl
  simp only [hcover, htree, Bool.false_eq_true, if_false, ht]

end Monogon

/-! ### Angles of any size -/

namespace Tiling

/-- **Reducing an angle to a single turn** ends for a finite double just if it is not more than
`2 ^ 56` away from zero.  Beyond that no number of rounds is enough, and the tile with this angle
alone, which a combinatorial tiling accepts, cannot be finished.  A load of a description without
such angles ends, as does all that comes after reading. -/
theorem foldAngle_ends_iff (a : Float) (ha : a.isFinite = true) :
    ((∃ b, foldAngle a = some b ∧ 0 ≤ b ∧ b ≤ Scalar.tau) ↔ a.abs ≤ farthest) ∧
    (¬ a.abs ≤ farthest →
      (∀ m n, foldWithin m n a = none) ∧
      ∃ v b, Shape.ofCorners 0 .euclidean true false #[⟨1, a, false⟩] 1 =
          .ok (Shape.monogon v a, b) ∧
        ∀ settings, (monogon v a).finish settings =
          .error (.inconsistent (.endlessAngle 0 0))) ∧
    ∀ t : Tiling Float, (∀ s ∈ t.shapes, ∀ x ∈ s.angles, x.abs ≤ farthest) →
      ∀ (settings : Settings) (i k : Nat),
        t.finish settings ≠ .error (.inconsistent (.endlessAngle i k)) ∧
        ∀ (source : String) (prior : Option (Tiling Float))
          (rules : Tiling Float → Except String Unit), read source settings prior = .ok t →
          load source settings prior rules ≠ .error (.inconsistent (.endlessAngle i k)) := by
  refine ⟨⟨fun ⟨b, hb, _⟩ => ?_, foldAngle_of_near⟩, fun hfar => ?_, fun t hnear settings i k => ?_⟩
  case refine_1 =>
    by_contra hfar
    rw [foldAngle_eq, foldWithin_of_far ha hfar] at hb
    cases hb
  case refine_2 =>
    have hnone := foldWithin_of_far ha hfar
    obtain ⟨v, b, hb⟩ := ofCorners_monogon a
    exact ⟨hnone, v, b, hb, finish_monogon (hnone maxTurns maxTurns)⟩
  case refine_3 =>
    have hzero := isSome_foldAngle zero_abs_le_farthest
    have hfolds : ∀ s ∈ t.shapes, ∀ x ∈ s.angles, (foldAngle x).isSome = true :=
      fun s hs x hx => isSome_foldAngle (hnear s hs x hx)
    exact ⟨finish_ends hzero hfolds settings i k,
      fun source prior rules hread => load_ends hzero hread hfolds i k⟩

/-- A hundred is near enough, also as an angle of a tile, and `10 ^ 17` is not.  An empty
description has no angles. -/
theorem hundred_folds :
    ((100 : Float).isFinite = true ∧ ∃ b, foldAngle (100 : Float) = some b ∧ 0 ≤ b ∧
      b ≤ Scalar.tau) ∧
    ((1e17 : Float).isFinite = true ∧ ∀ m n, foldWithin m n 1e17 = none) ∧
    (∀ v i k, (monogon v 100).finish .default ≠ .error (.inconsistent (.endlessAngle i k))) ∧
    ∃ t : Tiling Float, read "" .default none = .ok t ∧
      ∀ i k, load "" .default none (fun _ => .ok ()) ≠
        .error (.inconsistent (.endlessAngle i k) : LoadError Float) := by
  obtain ⟨hfolds, -, hloads⟩ := foldAngle_ends_iff 100 rfl
  obtain ⟨-, hendless, -⟩ := foldAngle_ends_iff 1e17 rfl
  have hhundred : (100 : Float).abs ≤ farthest := by decide +kernel
  refine ⟨⟨rfl, hfolds.mpr hhundred⟩, ⟨rfl, (hendless (by decide +kernel)).1⟩, fun v i k => ?_, ?_⟩
  · refine (hloads (monogon v 100) (fun s hs x hx => ?_) .default i k).1
    obtain rfl : s = Shape.monogon v 100 := by simpa [monogon] using hs
    obtain rfl : x = 100 := by simpa [Shape.monogon] using hx
    exact hhundred
  · obtain ⟨t, hread, hshapes⟩ : ∃ t : Tiling Float, read "" .default none = .ok t ∧
        t.shapes = #[] := by
      refine ⟨_, read_ok.mpr ⟨by decide, _, (description_apply ..).trans (if_pos ?_), rfl⟩, rfl⟩
      decide
    have hnear : ∀ s ∈ t.shapes, ∀ x ∈ s.angles, x.abs ≤ farthest := by
      rw [hshapes]
      exact nofun
    exact ⟨t, hread, fun i k => (hloads t hnear .default i k).2 "" none (fun _ => .ok ()) hread⟩

/-- The tile whose only angle is `2 ^ 57` turns can be described, and finishing it does not end. -/
theorem monogon_endless : (905502432259640320 : Float).isFinite = true ∧
    (∃ v b, Shape.ofCorners 0 .euclidean true false #[⟨1, 905502432259640320, false⟩] 1 =
        .ok (Shape.monogon v 905502432259640320, b) ∧
      ∀ settings, (monogon v 905502432259640320).finish settings =
        .error (.inconsistent (.endlessAngle 0 0))) ∧
    ∀ m n, foldWithin m n 905502432259640320 = none := by
  have hnone := foldWithin_of_far (a := 905502432259640320) rfl (by decide +kernel)
  obtain ⟨v, b, hb⟩ := ofCorners_monogon 905502432259640320
  exact ⟨rfl, ⟨v, b, hb, finish_monogon (hnone maxTurns maxTurns)⟩, hnone⟩

end Tiling

end Mosaic
