import Mosaic.Description.Directive
import Mosaic.Proofs.Tiling.WellFormed

/-!
# Description — orderly catalogues

What everything that comes after loading relies on (`Tiling.Orderly`): shapes are numbered by their
places, the lists of a shape are equally long, its repetitions divide them, and whatever points to a
vertex or to an edge points to one that there is.

A directive that changes a shape keeps its number and its size (`Shape.Revises`), so an orderly
catalogue of which shapes are revised is orderly (`Tiling.Orderly.revise`).
-/

namespace Mosaic

variable {α : Type}

/-- The lists of the shape are equally long and not empty, its repetitions divide them, and its
lines join vertices that there are. -/
structure Shape.Orderly (s : Shape α) : Prop where
  size_pos : 1 ≤ s.size
  angles_size : s.angles.size = s.size
  edges_size : s.edges.size = s.size
  connections_size : s.connections.size = s.size
  stretchShear_size : s.stretchShear.size = s.size
  repeat_pos : 1 ≤ s.repeatCount
  repeat_dvd : s.repeatCount ∣ s.size
  sublines : ∀ p ∈ s.sublines, p.1 < s.size ∧ p.2 < s.size
  corners_size : s.corners.size ≤ maxShapeEdges

/-- The gluing leads to an edge of the catalogue. -/
def Tiling.Has (t : Tiling α) (c : Connection) : Prop :=
  ∃ s, t.shapes[c.shape]? = some s ∧ c.edge < s.size

/-- Shapes are numbered by their places and orderly, gluings lead to edges of the catalogue, and
there are not too many sliders. -/
structure Tiling.Orderly (t : Tiling α) : Prop where
  id : ∀ (i : Nat) (s : Shape α), t.shapes[i]? = some s → s.id = i
  shape : ∀ s ∈ t.shapes, s.Orderly
  target : ∀ s ∈ t.shapes, ∀ c ∈ s.connections, t.Has c
  sliders : t.sliders.size + t.intSliders.size ≤ maxSliders

/-! ### Revisions of shapes -/

/-- `r` is `s` with the same number and size, as orderly as `s`, and glued only to edges that have
the property `P` if `s` is. -/
structure Shape.Revises (P : Connection → Prop) (s r : Shape α) : Prop where
  id : r.id = s.id
  size : r.size = s.size
  orderly : s.Orderly → r.Orderly
  target : (∀ c ∈ s.connections, P c) → ∀ c ∈ r.connections, P c

namespace Shape

variable {P : Connection → Prop} {s : Shape α}

theorem Revises.refl (s : Shape α) : s.Revises P s := ⟨rfl, rfl, fun h => h, fun h => h⟩

/-- What is in a list after one item has been set in some places. -/
theorem mem_of_mem_foldl_set {β γ : Type} {place : γ → Nat} {b c : β} (ks : List γ)
    {xs : Array β} (h : c ∈ ks.foldl (fun xs k => xs.setIfInBounds (place k) b) xs) :
    c ∈ xs ∨ c = b := by
  induction ks generalizing xs with
  | nil => exact Or.inl h
  | cons k ks ih =>
      rcases ih h with h | h
      · rcases Array.mem_or_eq_of_mem_setIfInBounds h with h | h
        · exact Or.inl h
        · exact Or.inr h
      · exact Or.inr h

theorem size_foldl_set {β γ : Type} {place : γ → Nat} {b : β} (ks : List γ) (xs : Array β) :
    (ks.foldl (fun xs k => xs.setIfInBounds (place k) b) xs).size = xs.size := by
  induction ks generalizing xs with
  | nil => rfl
  | cons k ks ih => exact (ih _).trans Array.size_setIfInBounds

/-- Gluing an edge revises the shape. -/
theorem glue_revises (s : Shape α) (e : Nat) {c : Connection} (hc : P c) :
    s.Revises P (s.glue e c) := by
  rw [glue]
  split
  · exact .refl s
  · refine ⟨rfl, rfl, fun h => { h with connections_size := ?_ }, fun h d hd => ?_⟩
    · exact (size_foldl_set _ _).trans h.connections_size
    · rcases mem_of_mem_foldl_set _ hd with hd | rfl
      · exact h d hd
      · exact hc

/-- A repetition that divides the edges revises an orderly shape. -/
theorem setRepeat_revises {r : Shape α} {count : Nat} (h : s.setRepeat count = some r)
    (hs : s.Orderly) : s.Revises P r := by
  rw [setRepeat] at h
  split at h
  · cases h
  · rename_i hcount
    obtain ⟨hpos, hdvd⟩ := not_or.mp hcount
    cases h
    refine ⟨rfl, rfl, fun h => ?_, fun h d hd => ?_⟩
    · refine { h with connections_size := ?_, repeat_pos := ?_, repeat_dvd := ?_ }
      · exact (Array.size_mapIdx).trans h.connections_size
      · exact Nat.pos_of_ne_zero hpos
      · exact hs.angles_size ▸ Nat.dvd_of_mod_eq_zero (Decidable.not_not.mp hdvd)
    · obtain ⟨i, hi, rfl⟩ := Array.mem_mapIdx.mp hd
      split
      · cases hc : s.connections[i % (s.angles.size / count)]? with
        | none => exact h _ (Array.getElem_mem hi)
        | some c => exact h c (Array.mem_of_getElem? hc)
      · exact h _ (Array.getElem_mem hi)

end Shape

namespace Tiling

variable {t t' : Tiling α} {c : Connection}

/-- The edges of a tiling are still there when its shapes keep their sizes. -/
theorem Has.of_map {g : Nat → Shape α → Shape α} (h : t.Has c)
    (hshapes : ∀ i : Nat, t'.shapes[i]? = (t.shapes[i]?).map (g i))
    (hsize : ∀ (i : Nat) (s : Shape α), t.shapes[i]? = some s → (g i s).size = s.size) :
    t'.Has c := by
  obtain ⟨s, hs, he⟩ := h
  exact ⟨g c.shape s, by rw [hshapes, hs, Option.map_some], by rwa [hsize _ s hs]⟩

theorem Has.modifyShape {i : Nat} {f : Shape α → Shape α} (h : t.Has c)
    (hf : ∀ s, t.shapes[i]? = some s → (f s).size = s.size) : (t.modifyShape i f).Has c := by
  refine h.of_map (t.getElem?_modifyShape i f) fun j s hs => ?_
  split
  · rename_i hij
    exact hf s (hij ▸ hs)
  · rfl

namespace Orderly

/-- A catalogue of which every shape has been revised. -/
theorem revise {g : Nat → Shape α → Shape α} (h : t.Orderly)
    (hshapes : ∀ i : Nat, t'.shapes[i]? = (t.shapes[i]?).map (g i))
    (hg : ∀ (i : Nat) (s : Shape α), t.shapes[i]? = some s → s.Revises t.Has (g i s))
    (hsliders : t'.sliders.size + t'.intSliders.size ≤ maxSliders) : t'.Orderly := by
  have hexists : ∀ (i : Nat) (r : Shape α), t'.shapes[i]? = some r →
      ∃ s, t.shapes[i]? = some s ∧ s.Revises t.Has r := by
    intro i r hr
    rw [hshapes] at hr
    obtain ⟨s, hs, rfl⟩ := Option.map_eq_some_iff.mp hr
    exact ⟨s, hs, hg i s hs⟩
  refine ⟨fun i r hr => ?_, fun r hr => ?_, fun r hr c hc => ?_, hsliders⟩
  · obtain ⟨s, hs, hrev⟩ := hexists i r hr
    exact hrev.id.trans (h.id i s hs)
  · obtain ⟨i, hi⟩ := Array.getElem?_of_mem hr
    obtain ⟨s, hs, hrev⟩ := hexists i r hi
    exact hrev.orderly (h.shape s (Array.mem_of_getElem? hs))
  · obtain ⟨i, hi⟩ := Array.getElem?_of_mem hr
    obtain ⟨s, hs, hrev⟩ := hexists i r hi
    exact (hrev.target (h.target s (Array.mem_of_getElem? hs)) c hc).of_map hshapes
      fun i s hs => (hg i s hs).size

/-- The catalogue of an orderly tiling in which only other things have changed. -/
theorem congr (h : t.Orderly) (hshapes : t'.shapes = t.shapes)
    (hsliders : t'.sliders.size + t'.intSliders.size ≤ maxSliders) : t'.Orderly :=
  h.revise (g := fun _ s => s) (fun i => by rw [hshapes, Option.map_id'])
    (fun _ s _ => .refl s) hsliders

/-- A revision of a shape leaves the tiling orderly. -/
theorem modifyShape (h : t.Orderly) {i : Nat} {f : Shape α → Shape α}
    (hf : ∀ s, t.shapes[i]? = some s → s.Revises t.Has (f s)) : (t.modifyShape i f).Orderly := by
  refine h.revise (t.getElem?_modifyShape i f) (fun j s hs => ?_) h.sliders
  split
  · rename_i hij
    exact hf s (hij ▸ hs)
  · exact .refl s

/-- A catalogue with one more shape, which is glued to itself. -/
theorem push {s : Shape α} (h : t.Orderly) (hid : s.id = t.shapes.size) (hs : s.Orderly)
    (hself : ∀ c ∈ s.connections, c.shape = s.id ∧ c.edge < s.size) :
    { t with shapes := t.shapes.push s }.Orderly := by
  have hlast : (t.shapes.push s)[t.shapes.size]? = some s := Array.getElem?_push_size
  refine ⟨fun i r hr => ?_, fun r hr => ?_, fun r hr c hc => ?_, h.sliders⟩
  · rw [Array.getElem?_push] at hr
    split at hr
    · rename_i hi
      cases hr
      exact hid.trans hi.symm
    · exact h.id i r hr
  · rcases Array.mem_push.mp hr with hr | rfl
    · exact h.shape r hr
    · exact hs
  · rcases Array.mem_push.mp hr with hr | rfl
    · obtain ⟨target, htarget, he⟩ := h.target r hr c hc
      have hlt := (Array.getElem?_eq_some_iff.mp htarget).1
      exact ⟨target, by rw [Array.getElem?_push, if_neg (Nat.ne_of_lt hlt), htarget], he⟩
    · obtain ⟨hshape, he⟩ := hself c hc
      exact ⟨r, by rw [hshape, hid]; exact hlast, he⟩

/-- Gluing edges that there are leaves the tiling orderly. -/
theorem connect (h : t.Orderly) {a e b f : Nat} (mirror : Bool) (ha : t.Has ⟨a, e, mirror⟩)
    (hb : t.Has ⟨b, f, mirror⟩) : (t.connect a e b f mirror).Orderly := by
  have hrev : ∀ s, t.shapes[a]? = some s → s.Revises t.Has (s.glue e ⟨b, f, mirror⟩) :=
    fun s _ => s.glue_revises e hb
  -- Both edges may be of one shape, so the second gluing begins where the first one has ended.
  exact (h.modifyShape hrev).modifyShape fun s _ =>
    s.glue_revises f (ha.modifyShape fun s hs => (hrev s hs).size)

theorem setStretchShear [Scalar α] (h : t.Orderly) (a e : Nat) (stretch shear : α) :
    (t.setStretchShear a e stretch shear).Orderly := by
  have hput : ∀ (t : Tiling α) (i : Nat) (p : α × α) (s : Shape α), s.Revises t.Has
      { s with stretchShear := s.stretchShear.setIfInBounds i p } := fun t i p s =>
    ⟨rfl, rfl, fun h => { h with
      stretchShear_size := Array.size_setIfInBounds.trans h.stretchShear_size }, fun h => h⟩
  exact (h.modifyShape fun s _ => hput t e _ s).modifyShape fun s _ => hput _ _ _ s

end Orderly

end Tiling

end Mosaic
