import Mathlib
import Mosaic.Proofs.Description.Stage
import Mosaic.Proofs.Scalar.Whole
import Mosaic.Proofs.Tiling.Annotation

/-!
# Description — the ends of apeirogons in a load

The tilings that a load lets somebody see are drafts between two directives, a tiling that the
description asks to inspect, and the one that is loaded (`LoadPoint`).  Each has come out of a
draft, whose shapes it shows once, or once more as mirror images.  So what the directives establish
of every new apeirogon, that it ends at infinity, holds of all of them (`load_ends_at_infinity`).
It does not hold of those that are described when the tiling is already combinatorial.
-/

namespace Mosaic

variable {α : Type} [Scalar α]

/-- An apeirogon with all that relies on its ends: resetting the connections glues the two edges
that reach infinity to each other and no other edges; the mirror image is turned back by two places,
which it has; and there the two edges trade places. -/
structure Shape.HasTwoEnds (s : Shape α) (n : Nat) : Prop where
  ends : s.EndsAtInfinity n
  glued : ∀ k, s.resetConnections.connection k =
    ⟨s.id, if k = n then n + 1 else if k = n + 1 then n else k, false⟩
  turned : 2 < s.vertices.size ∧ 2 < s.edges.size ∧ 2 < s.angles.size ∧ 2 < s.connections.size
  traded : reflectedEdge s.size s.apeirogonal n = n + 1 ∧
    reflectedEdge s.size s.apeirogonal (n + 1) = n
  within : ∀ e < s.size, reflectedEdge s.size s.apeirogonal e < s.size
  image : s.reflected.EndsAtInfinity n

/-- A shape that ends at infinity has two edges there, behind all others. -/
theorem Shape.EndsAtInfinity.hasTwoEnds {s : Shape α} {n : Nat} (h : s.EndsAtInfinity n) :
    s.HasTwoEnds n := by
  have hpos := h.pos
  have hsize : s.size = n + 2 := h.vertices_size
  refine ⟨h, h.connection_resetConnections, ?_, ?_, fun e he => ?_, h.reflected⟩
  · rw [h.vertices_size, h.edges_size, h.angles_size, h.connections_size]
    omega
  · rw [hsize, h.apeirogonal]
    exact reflectedEdge_end n
  · rw [reflectedEdge_eq]
    exact shifted_lt (by omega)

namespace Tiling

variable {settings : Settings} {t u : Tiling α} {j : Nat} {r : Shape α}

omit [Scalar α] in
/-- Annotations leave the boundary as it is. -/
theorem sameBoundary_of_bare {s r : Shape α} (h : r.bare = s.bare) : s.SameBoundary r := by
  have hfield {β : Type} (f : Shape α → β) (hf : ∀ s : Shape α, f s.bare = f s) : f r = f s :=
    (hf r).symm.trans ((congrArg f h).trans (hf s))
  exact ⟨hfield (·.corners) fun _ => rfl, hfield (·.vertices) fun _ => rfl,
    hfield (·.angles) fun _ => rfl, hfield (·.edges) fun _ => rfl,
    hfield (·.apeirogonal) fun _ => rfl, hfield (·.connections.size) fun _ => rfl⟩

omit [Scalar α] in
/-- A copy in the double cover has the boundary of its shape. -/
theorem lift_sameBoundary (t : Tiling α) (image : Bool) (id : Nat) (s : Shape α) :
    s.SameBoundary (t.lift image id s) := ⟨rfl, rfl, rfl, rfl, rfl, Array.size_map⟩

/-- Each shape of a double cover is a shape of the tiling or its mirror image. -/
theorem doubleCover_shape (hr : t.doubleCover.shapes[j]? = some r) : ∃ s,
    t.shapes[j % t.shapes.size]? = some s ∧ (s.SameBoundary r ∨ s.reflected.SameBoundary r) := by
  by_cases hm : t.mirrorCount = 0
  · rw [doubleCover_of_plain hm] at hr
    have hj : j < t.shapes.size := (Array.getElem?_eq_some_iff.mp hr).1
    rw [Nat.mod_eq_of_lt hj]
    exact ⟨r, hr, .inl (.refl r)⟩
  · obtain ⟨image, a, s, hs, rfl, rfl⟩ := exists_copy hm hr
    have ha : a < t.shapes.size := (Array.getElem?_eq_some_iff.mp hs).1
    have hcopy : t.copy image a % t.shapes.size = a := by
      cases image with
      | false => exact Nat.mod_eq_of_lt ha
      | true => exact (Nat.add_mod_right a _).trans (Nat.mod_eq_of_lt ha)
    rw [hcopy]
    refine ⟨s, hs, ?_⟩
    cases image with
    | false => exact .inl (t.lift_sameBoundary _ _ s)
    | true => exact .inr (t.lift_sameBoundary _ _ s.reflected)

/-- Every shape of a tiling that is finished is one that has been described, or its mirror image. -/
theorem finish_shape (h : t.finish settings = .ok u) (hr : u.shapes[j]? = some r) : ∃ s,
    t.shapes[j % t.shapes.size]? = some s ∧ (s.SameBoundary r ∨ s.reflected.SameBoundary r) := by
  obtain ⟨q, hq, hbare⟩ := (finish_annotates h).exists_shape hr
  have hqr := sameBoundary_of_bare hbare
  unfold cover at hq
  split at hq
  · obtain ⟨s, hs, hsq⟩ := doubleCover_shape hq
    exact ⟨s, hs, hsq.imp (·.trans hqr) (·.trans hqr)⟩
  · have hj : j < t.shapes.size := (Array.getElem?_eq_some_iff.mp hq).1
    rw [Nat.mod_eq_of_lt hj]
    exact ⟨q, hq, .inl hqr⟩

end Tiling

namespace Drafting

/-- The tiling `t` is seen in a load from a state between two directives on; it has come out of the
draft `v`. -/
inductive LoadPoint (source : String) (settings : Settings) (prior : Option (Tiling α))
    (rules : Tiling α → Except String Unit) (d : Desk α) : (v t : Tiling α) → Prop where
  | stage {e : Desk α} (h : Later prior source.toByteArray d e) :
      LoadPoint source settings prior rules d e.draft.tiling e.draft.tiling
  | inspection {i : Nat} {t : Tiling α}
      (h : Tiling.load source settings prior rules = .error (.inspection i t)) :
      LoadPoint source settings prior rules d t t
  | loaded {v t : Tiling α} (hv : Tiling.read source settings prior = .ok v)
      (h : Tiling.load source settings prior rules = .ok t) :
      LoadPoint source settings prior rules d v t

variable {source : String} {settings : Settings} {prior : Option (Tiling α)}
  {rules : Tiling α → Except String Unit} {d : Desk α} {t v : Tiling α} {j : Nat} {r : Shape α}

/-- Wherever a load is seen, the tiling has grown out of the draft. -/
theorem LoadPoint.grows (h : LoadPoint source settings prior rules d v t)
    (hd : Stage settings prior source.toByteArray d) : d.draft.tiling.Grows prior v := by
  cases h with
  | stage h => exact h.grows
  | inspection h => exact hd.inspection (Tiling.load_inspection h)
  | loaded hv _ => exact hd.read hv

/-- Wherever a load is seen, its shapes are those described, or their mirror images. -/
theorem LoadPoint.shape (h : LoadPoint source settings prior rules d v t)
    (hr : t.shapes[j]? = some r) : ∃ s, v.shapes[j % v.shapes.size]? = some s ∧
      (s.SameBoundary r ∨ s.reflected.SameBoundary r) := by
  have hself (hr : t.shapes[j]? = some r) : t.shapes[j % t.shapes.size]? = some r := by
    rwa [Nat.mod_eq_of_lt (Array.getElem?_eq_some_iff.mp hr).1]
  cases h with
  | stage _ => exact ⟨r, hself hr, .inl (.refl r)⟩
  | inspection _ => exact ⟨r, hself hr, .inl (.refl r)⟩
  | loaded hv h =>
      obtain ⟨u, hu, hfinish, -⟩ := Tiling.load_ok.mp h
      obtain rfl : v = u := Except.ok.inj (hv.symm.trans hu)
      exact Tiling.finish_shape hfinish hr

end Drafting

open Drafting

/-- **Apeirogons end at infinity.**  Wherever a load is seen, every apeirogon ends at infinity if
the tiling is not combinatorial, and also if it has been described before the tiling was made
combinatorial; but not a shape that has been described later. -/
theorem Tiling.load_ends_at_infinity {source : String} {settings : Settings}
    {prior : Option (Tiling α)} {rules : Tiling α → Except String Unit} {d : Desk α}
    {v t : Tiling α} {j : Nat} {r : Shape α} (hd : Stage settings prior source.toByteArray d)
    (ht : LoadPoint source settings prior rules d v t) (hr : t.shapes[j]? = some r) :
    (r.apeirogonal = true → v.isCombinatorial = false → ∃ n, r.HasTwoEnds n) ∧
    (r.apeirogonal = true → d.draft.tiling.isCombinatorial = false →
      j % v.shapes.size < d.draft.tiling.shapes.size → ∃ n, r.HasTwoEnds n) ∧
    (d.draft.tiling.isCombinatorial = true → d.draft.tiling.shapes.size ≤ j % v.shapes.size →
      r.IsPlaceholder) := by
  obtain ⟨s, hs, hsr⟩ := ht.shape hr
  have hgrows := ht.grows hd
  have hends {n : Nat} (hn : s.EndsAtInfinity n) : r.HasTwoEnds n :=
    (hsr.elim hn.of_sameBoundary hn.reflected.of_sameBoundary).hasTwoEnds
  have hap (h : r.apeirogonal = true) : s.apeirogonal = true := by
    rcases hsr with hsr | hsr
    · exact hsr.apeirogonal.symm.trans h
    · exact s.reflected_apeirogonal.symm.trans (hsr.apeirogonal.symm.trans h)
  refine ⟨fun h hplain => ?_, fun h hplain hj => ?_, fun hcombinatorial hj => ?_⟩
  · obtain ⟨n, hn⟩ := (hd.grows.trans hgrows).ends (Nat.zero_le _) hs hplain (hap h)
    exact ⟨n, hends hn⟩
  · have hj' := Array.getElem?_eq_getElem hj
    obtain ⟨s', hs', hboundary⟩ := hgrows.kept hj'
    obtain rfl : s' = s := Option.some.inj (hs'.symm.trans hs)
    obtain ⟨n, hn⟩ := hd.grows.ends (Nat.zero_le _) hj' hplain
      (hboundary.apeirogonal.symm.trans (hap h))
    exact ⟨n, hends (hn.of_sameBoundary hboundary)⟩
  · have hplaceholder := hgrows.placeholders hj hs hcombinatorial
    exact hsr.elim hplaceholder.of_sameBoundary hplaceholder.reflected.of_sameBoundary

/-! ### Apeirogons before and after the tiling is combinatorial -/

namespace Tiling

/-- An apeirogon with one corner, and another one in a combinatorial tiling. -/
def mixed : String := "e2.tile(1,2*(355/226),*1/0)combinatorial.tile(1,2*(355/226),*1/0)"

set_option maxRecDepth 10000 in
/-- The load of `mixed`, with the drafts before and after it is made combinatorial. -/
theorem mixed_run : ∃ (d e : Desk Whole) (v t : Tiling Whole),
    Stage .default none mixed.toByteArray d ∧ Stage .default none mixed.toByteArray e ∧
    read mixed .default none = .ok v ∧ load mixed .default none (fun _ => .ok ()) = .ok t ∧
    (d.draft.tiling.isCombinatorial = false ∧ d.draft.tiling.shapes.size = 1 ∧
      ∃ r, d.draft.tiling.shapes[0]? = some r ∧ r.apeirogonal = true) ∧
    (e.draft.tiling.isCombinatorial = true ∧ e.draft.tiling.shapes.size = 1) ∧
    v.shapes.size = 2 ∧ (∃ r, t.shapes[0]? = some r ∧ r.apeirogonal = true) ∧
      ∃ r, t.shapes[1]? = some r ∧ r.apeirogonal = true := by
  have hrun : accepts (fun r c => r.isLeft && accepts (fun r d => r.isLeft &&
      accepts (fun r e => r.isLeft && accepts (fun _ f =>
        (f.draft.tiling.finish .default).toOption.any fun t =>
          !d.draft.tiling.isCombinatorial && (d.draft.tiling.shapes.size == 1 &&
          ((d.draft.tiling.shapes[0]?).any (·.apeirogonal) &&
          (e.draft.tiling.isCombinatorial && (e.draft.tiling.shapes.size == 1 &&
          (f.draft.tiling.shapes.size == 2 && ((t.shapes[0]?).any (·.apeirogonal) &&
          (t.shapes[1]?).any (·.apeirogonal))))))))
        (description none mixed.toByteArray e))
      (round none () mixed.toByteArray d)) (round none () mixed.toByteArray c))
      (round none () mixed.toByteArray (start .default none : Desk Whole)) = true := by cbv
  simp only [accepts_iff, toOption_any_iff, Bool.and_eq_true, Sum.isLeft_iff] at hrun
  obtain ⟨_, c, hc, ⟨_, rfl⟩, _, d, hd, ⟨_, rfl⟩, _, e, he, ⟨_, rfl⟩, _, f, hf, t, ht, hrun⟩ := hrun
  have hd : Stage .default none mixed.toByteArray d := .more (.more .refl hc) hd
  have he : Stage .default none mixed.toByteArray e := .more hd he
  have hv : read mixed .default none = .ok f.draft.tiling :=
    read_ok.mpr ⟨by decide +kernel, f, he.description_eq.trans hf, rfl⟩
  simp only [beq_iff_eq, Option.any_eq_true, Bool.not_eq_true'] at hrun
  obtain ⟨hplain, hsize, hq, hcombinatorial, hsize', hv2, hr, hr'⟩ := hrun
  exact ⟨d, e, f.draft.tiling, t, hd, he, hv, load_ok.mpr ⟨_, hv, ht, fun _ => rfl⟩,
    ⟨hplain, hsize, hq⟩, ⟨hcombinatorial, hsize'⟩, hv2, hr, hr'⟩

/-- The first apeirogon ends at infinity, in the draft and in the tiling that is loaded; the second
one does not. -/
theorem mixed_ends : ∃ (d : Desk Whole) (t : Tiling Whole),
    Stage .default none mixed.toByteArray d ∧
    load mixed .default none (fun _ => .ok ()) = .ok t ∧
    (∃ r, d.draft.tiling.shapes[0]? = some r ∧ ∃ n, r.HasTwoEnds n) ∧
    (∃ r, t.shapes[0]? = some r ∧ ∃ n, r.HasTwoEnds n) ∧
    ∃ r, t.shapes[1]? = some r ∧ r.apeirogonal = true ∧ r.IsPlaceholder := by
  obtain ⟨d, e, v, t, hd, he, hv, ht, ⟨hplain, hsize, q, hq, hqa⟩, ⟨hcombinatorial, hsize'⟩, hv2,
    ⟨r, hr, hra⟩, r', hr', hra'⟩ := mixed_run
  have hdraft : LoadPoint mixed .default none (fun _ => .ok ()) d d.draft.tiling
      d.draft.tiling := .stage .refl
  refine ⟨d, t, hd, ht, ⟨q, hq, ?_⟩, ⟨r, hr, ?_⟩, r', hr', hra', ?_⟩
  · exact (load_ends_at_infinity hd hdraft hq).1 hqa hplain
  · exact (load_ends_at_infinity hd (.loaded hv ht) hr).2.1 hra hplain (by rw [hsize, hv2]; decide)
  · exact (load_ends_at_infinity he (.loaded hv ht) hr').2.2 hcombinatorial
      (by rw [hsize', hv2])

set_option maxRecDepth 10000 in
/-- An apeirogon of a combinatorial tiling has no edges but those of its two corners, and resetting
its connections glues these to each other. -/
theorem combinatorial_without_ends : ∃ (t : Tiling Whole) (s : Shape Whole),
    load "e2.combinatorial.tile(1,355/226,1,355/226,*1/0)" .default none (fun _ => .ok ()) = .ok t ∧
    t.shapes[0]? = some s ∧ s.apeirogonal = true ∧ s.corners.size = 2 ∧
    s.vertices.size = 2 ∧ s.angles.size = 2 ∧ s.edges.size = 2 ∧
    s.resetConnections.connection 0 = ⟨0, 1, false⟩ ∧ ¬ ∃ n, s.HasTwoEnds n := by
  have hloads : (match (load "e2.combinatorial.tile(1,355/226,1,355/226,*1/0)" .default none
      (fun _ => .ok ()) : Except (LoadError Whole) (Tiling Whole)) with
    | .ok t => match t.shapes[0]? with
      | some s => s.apeirogonal && (s.corners.size == 2 && (s.vertices.size == 2 &&
          (s.angles.size == 2 && (s.edges.size == 2 &&
            s.resetConnections.connection 0 == ⟨0, 1, false⟩))))
      | none => false
    | .error _ => false) = true := by cbv
  split at hloads
  case h_2 => cases hloads
  case h_1 t ht =>
    split at hloads
    case h_2 => cases hloads
    case h_1 s hs =>
      simp only [Bool.and_eq_true, beq_iff_eq] at hloads
      obtain ⟨hap, hcorners, hvertices, hangles, hedges, hglued⟩ := hloads
      refine ⟨t, s, ht, hs, hap, hcorners, hvertices, hangles, hedges, hglued, ?_⟩
      rintro ⟨n, hn⟩
      have hsize := hn.ends.vertices_size
      have hpos := hn.ends.pos
      omega

end Tiling

end Mosaic
