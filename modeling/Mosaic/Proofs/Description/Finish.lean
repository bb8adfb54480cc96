import Mosaic.Description.Load
import Mosaic.Proofs.Description.Orderly
import Mosaic.Proofs.Descent
import Mosaic.Proofs.Tiling.Annotation
import Mosaic.Proofs.Tiling.DoubleCover

/-!
# Description — what comes after reading

The double cover of an orderly catalogue is orderly and has no mirrored gluing
(`Tiling.Orderly.doubleCover`, `Tiling.doubleCover_oriented`).  The analysis of valences writes only
what it finds into the shapes (`Tiling.Annotates`), so that it keeps both.  A tiling is finished
when its lengths agree and, unless it has tree states, the analysis of it or of its double cover
succeeds (`Tiling.finish_ok`, `Tiling.finish_error`).
-/

namespace Mosaic

variable {α : Type}

/-- No gluing is mirrored. -/
def Tiling.Oriented (t : Tiling α) : Prop :=
  ∀ s ∈ t.shapes, ∀ c ∈ s.connections, c.mirror = false

/-! ### The double cover -/

section Cover

theorem mem_of_mem_extract {β : Type} {xs : Array β} {b : β} {i j : Nat}
    (h : b ∈ xs.extract i j) : b ∈ xs := by
  obtain ⟨k, hk⟩ := Array.getElem?_of_mem h
  rw [Array.getElem?_extract] at hk
  split at hk
  · exact Array.mem_of_getElem? hk
  · cases hk

/-- What is in a list that is shifted was in it before. -/
theorem mem_of_mem_shiftedList {β : Type} {ap : Bool} {xs : Array β} {b : β}
    (h : b ∈ shiftedList ap xs) : b ∈ xs := by
  cases ap with
  | false => exact h
  | true => rcases Array.mem_append.mp h with h | h <;> exact mem_of_mem_extract h

variable [Neg α] {s : Shape α} {t : Tiling α}

/-- What the mirror image of a shape has as the shape has it. -/
theorem Shape.reflected_rest (s : Shape α) : s.reflected.repeatCount = s.repeatCount ∧
    s.reflected.sublines = s.sublines ∧ s.reflected.stretchShear = s.stretchShear ∧
    s.reflected.corners = s.corners := by
  unfold reflected
  split <;> exact ⟨rfl, rfl, rfl, rfl⟩

theorem Shape.size_reflected (s : Shape α) : s.reflected.size = s.size := by
  rw [size, reflected_vertices, size_shiftedList, size_reverseTail, Array.size_map]
  rfl

/-- The mirror image of a shape is glued as the shape is. -/
theorem Shape.mem_reflected {c : Connection} (hc : c ∈ s.reflected.connections) :
    c ∈ s.connections := by
  rw [reflected_connections] at hc
  exact Array.mem_reverse.mp (mem_of_mem_shiftedList hc)

/-- The mirror image of an orderly shape is orderly. -/
theorem Shape.Orderly.reflected (h : s.Orderly) : s.reflected.Orderly := by
  obtain ⟨hrepeat, hsublines, hstretch, hcorners⟩ := s.reflected_rest
  have hsize := s.size_reflected
  refine ⟨?_, ?_, ?_, ?_, ?_, ?_, ?_, ?_, ?_⟩
  · exact hsize ▸ h.size_pos
  · rw [hsize, reflected_angles, size_shiftedList, size_reverseInit, h.angles_size]
  · rw [hsize, reflected_edges, size_shiftedList, Array.size_map, Array.size_reverse, h.edges_size]
  · rw [hsize, reflected_connections, size_shiftedList, Array.size_reverse, h.connections_size]
  · rw [hsize, hstretch, h.stretchShear_size]
  · exact hrepeat ▸ h.repeat_pos
  · exact hrepeat ▸ hsize ▸ h.repeat_dvd
  · exact hsublines ▸ hsize ▸ h.sublines
  · exact hcorners ▸ h.corners_size

namespace Tiling

/-- The shape that a copy in the double cover is made from: the shape or its mirror image. -/
theorem Orderly.sheet (image : Bool) (hs : s.Orderly) (t : Tiling α) (id : Nat) :
    (t.lift image id (if image then s.reflected else s)).Orderly := by
  have hcopy : (if image then s.reflected else s).Orderly := by
    cases image with
    | false => exact hs
    | true => exact hs.reflected
  exact { hcopy with connections_size := Array.size_map.trans hcopy.connections_size }

/-- A gluing of an orderly catalogue leads to an edge of its double cover. -/
theorem Orderly.has_lift (ht : t.Orderly) (hm : t.mirrorCount ≠ 0) {c : Connection} (hc : t.Has c)
    (image : Bool) : t.doubleCover.Has (t.liftConnection image c) := by
  obtain ⟨s, hs, he⟩ := hc
  have horderly := ht.shape s (Array.mem_of_getElem? hs)
  rw [liftConnection_eq image (by rw [shape_eq hs, horderly.angles_size])]
  refine ⟨_, getElem?_doubleCover hm hs _, ?_⟩
  cases image ^^ c.mirror with
  | false => exact he
  | true =>
      change (t.copyEdge true c.shape c.edge) < s.reflected.size
      rw [s.size_reflected, copyEdge, if_pos rfl, shape_eq hs, reflectedEdge_eq]
      exact shifted_lt (by omega)

/-- The double cover of an orderly tiling is orderly. -/
theorem Orderly.doubleCover (ht : t.Orderly) : t.doubleCover.Orderly := by
  by_cases hm : t.mirrorCount = 0
  · rw [Tiling.doubleCover, if_pos hm]
    exact ht.congr rfl ht.sliders
  refine ⟨fun i r hr => ?_, fun r hr => ?_, fun r hr c hc => ?_, ?_⟩
  · obtain ⟨image, a, s, -, -, rfl⟩ := exists_copy hm hr
    rfl
  · obtain ⟨i, hi⟩ := Array.getElem?_of_mem hr
    obtain ⟨image, a, s, hs, -, rfl⟩ := exists_copy hm hi
    exact Orderly.sheet image (ht.shape s (Array.mem_of_getElem? hs)) t i
  · obtain ⟨i, hi⟩ := Array.getElem?_of_mem hr
    obtain ⟨image, a, s, hs, -, rfl⟩ := exists_copy hm hi
    obtain ⟨d, hd, rfl⟩ := Array.mem_map.mp hc
    refine ht.has_lift hm (ht.target s (Array.mem_of_getElem? hs) d ?_) image
    cases image with
    | false => exact hd
    | true => exact Shape.mem_reflected hd
  · rw [Tiling.doubleCover, if_neg hm]
    exact ht.sliders

/-- A double cover has no mirrored gluing. -/
theorem doubleCover_oriented (t : Tiling α) : t.doubleCover.Oriented := by
  intro r hr c hc
  by_cases hm : t.mirrorCount = 0
  · rw [Tiling.doubleCover, if_pos hm] at hr
    exact Bool.eq_false_iff.mpr fun hmirror => mirrorCount_ne_zero hr hc hmirror hm
  · obtain ⟨i, hi⟩ := Array.getElem?_of_mem hr
    obtain ⟨image, a, s, -, -, rfl⟩ := exists_copy hm hi
    obtain ⟨d, -, rfl⟩ := Array.mem_map.mp hc
    exact t.liftConnection_mirror image d

end Tiling

end Cover

/-! ### The analysis of valences -/

/-- A shape that is the same but for its annotations has the same gluings. -/
theorem Shape.Revises.of_bare {P : Connection → Prop} {s r : Shape α} (h : r.bare = s.bare) :
    s.Revises P r := by
  have hconnections : r.bare.connections = s.bare.connections := congrArg Shape.connections h
  have hsize : r.bare.size = s.bare.size := congrArg Shape.size h
  have hid : r.bare.id = s.bare.id := congrArg Shape.id h
  have horderly (s : Shape α) : s.Orderly ↔ s.bare.Orderly :=
    ⟨fun h => { h with }, fun h => { h with }⟩
  refine ⟨hid, hsize, fun hs => (horderly r).mpr (h ▸ (horderly s).mp hs), fun hs c hc => ?_⟩
  exact hs c (hconnections ▸ (show c ∈ r.bare.connections from hc))

namespace Tiling

variable {t u : Tiling α}

namespace Annotates

/-- Annotations leave an orderly tiling orderly. -/
theorem orderly (h : t.Annotates u) (ht : t.Orderly) : u.Orderly := by
  refine ht.revise (g := fun i _ => u.shape i) (fun i => ?_) (fun i s hs => ?_) ?_
  · cases hr : u.shapes[i]? with
    | some r =>
        obtain ⟨s, hs, -⟩ := h.exists_shape hr
        rw [hs, Option.map_some, shape_eq hr]
    | none =>
        cases hs : t.shapes[i]? with
        | some s =>
            obtain ⟨r, hr', -⟩ := h.symm.exists_shape hs
            rw [hr] at hr'
            cases hr'
        | none => rfl
  · obtain ⟨r, hr, hbare⟩ := h.symm.exists_shape hs
    exact shape_eq hr ▸ .of_bare hbare.symm
  · rw [h.sliders, h.intSliders]
    exact ht.sliders

/-- Annotations mirror no gluing. -/
theorem oriented (h : t.Annotates u) (ht : t.Oriented) : u.Oriented := by
  intro r hr c hc
  obtain ⟨i, hi⟩ := Array.getElem?_of_mem hr
  obtain ⟨s, hs, hbare⟩ := h.exists_shape hi
  have hconnections : r.bare.connections = s.bare.connections := congrArg Shape.connections hbare
  refine ht s (Array.mem_of_getElem? hs) c ?_
  exact hconnections ▸ (show c ∈ r.bare.connections from hc)

end Annotates

/-! ### The last part of a load -/

variable [Scalar α] {settings : Settings}

/-- What is analysed: the tiling or its double cover. -/
def cover (t : Tiling α) (settings : Settings) : Tiling α :=
  if settings.doubleCover then t.doubleCover else t

/-- Edge lengths are checked, then the tiling is covered, and its valences are found unless there is
a tree. -/
theorem finish_eq (t : Tiling α) (settings : Settings) : t.finish settings =
    match t.checkEdgeLengths with
    | .error e => .error (.inconsistent e)
    | .ok () => if (t.cover settings).haveTree then .ok (t.cover settings)
      else match analyseValence (t.cover settings) with
        | .ok _ u => .ok u
        | .error e _ => .error (.inconsistent e) := rfl

/-- The end of a load answers if and only if the edge lengths fit and the valences are found. -/
theorem finish_ok : t.finish settings = .ok u ↔ t.checkEdgeLengths = .ok () ∧
    if (t.cover settings).haveTree then t.cover settings = u
    else analyseValence (t.cover settings) = .ok () u := by
  rw [finish_eq]
  cases t.checkEdgeLengths with
  | error e => exact iff_of_false (fun h => nomatch h) fun h => nomatch h.1
  | ok _ =>
      dsimp only
      split
      · simp
      · cases analyseValence (t.cover settings) <;> simp

/-- A tiling that is not finished has lengths that differ, or its analysis fails. -/
theorem finish_error {e : LoadError α} (h : t.finish settings = .error e) : ∃ x,
    e = .inconsistent x ∧ (t.checkEdgeLengths = .error x ∨
      ∃ u, analyseValence (t.cover settings) = .error x u) := by
  rw [finish_eq] at h
  cases hcheck : t.checkEdgeLengths with
  | error x =>
      rw [hcheck] at h
      cases h
      exact ⟨x, rfl, .inl rfl⟩
  | ok _ =>
      rw [hcheck] at h
      dsimp only at h
      split at h
      · cases h
      cases hvalence : analyseValence (t.cover settings) with
      | ok _ u =>
          rw [hvalence] at h
          cases h
      | error x u =>
          rw [hvalence] at h
          cases h
          exact ⟨x, rfl, .inr ⟨u, rfl⟩⟩

/-- The tiling that is loaded is the one that has been described, or its double cover, with
annotations. -/
theorem finish_annotates (h : t.finish settings = .ok u) : (t.cover settings).Annotates u := by
  obtain ⟨-, h⟩ := finish_ok.mp h
  split at h
  · subst h
    exact .refl _
  · exact analyseValence_annotates h

end Tiling

end Mosaic
