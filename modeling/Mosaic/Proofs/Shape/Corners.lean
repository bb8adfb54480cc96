import Mosaic.Proofs.Descent
import Mosaic.Shape.Basic

/-!
# Shape — corners and vertices

An ideal corner is made of two steps of a boundary and is one vertex of its polygon, so a polygon
has as many vertices as its boundary has entries (`Entries`), and an apeirogon two more.  In a
combinatorial tiling every step is a vertex.
-/

namespace Mosaic

variable {α : Type}

/-- The steps of a boundary are those of `n` entries: an ideal corner of two steps, or another
step. -/
inductive Entries : List (Corner α) → Nat → Prop where
  | nil : Entries [] 0
  | ideal {c d : Corner α} {l : List (Corner α)} {n : Nat} (hc : c.ideal = true) (h : Entries l n) :
      Entries (c :: d :: l) (n + 1)
  | plain {c : Corner α} {l : List (Corner α)} {n : Nat} (hc : c.ideal = false) (h : Entries l n) :
      Entries (c :: l) (n + 1)

namespace Entries

/-- The entries of two parts of the list. -/
theorem append {l l' : List (Corner α)} {m n : Nat} (h : Entries l m) (h' : Entries l' n) :
    Entries (l ++ l') (m + n) := by
  induction h with
  | nil => rwa [Nat.zero_add]
  | ideal hc _ ih => exact Nat.succ_add _ n ▸ .ideal hc ih
  | plain hc _ ih => exact Nat.succ_add _ n ▸ .plain hc ih

/-- A list with a corner has an entry. -/
theorem pos {l : List (Corner α)} {n : Nat} (h : Entries l n) (hl : l ≠ []) : 1 ≤ n := by
  cases h with
  | nil => exact absurd rfl hl
  | ideal | plain => exact Nat.le_add_left 1 _

end Entries

/-- The lists of the polygon have `n` items each. -/
structure Polygon.HasSize (p : Polygon α) (n : Nat) : Prop where
  vertices : p.vertices.size = n
  angles : p.angles.size = n
  edges : p.edges.size = n

namespace Polygon

variable {p q : Polygon α} {n : Nat}

theorem HasSize.push (h : p.HasSize n) (v : Point α) (a : α) (e : EdgeLength α) :
    (p.push v a e).HasSize (n + 1) where
  vertices := by rw [Polygon.push, Array.size_push, h.vertices]
  angles := by rw [Polygon.push, Array.size_push, h.angles]
  edges := by rw [Polygon.push, Array.size_push, h.edges]

variable [Scalar α] {back last m : Motion α} {c d : Corner α}
  {rest : List (Corner α × Motion α)} {i : Nat}

/-- An ideal corner becomes one vertex in the place of its two steps. -/
theorem place_ideal {m' : Motion α} (hc : c.ideal = true)
    (h : place back last ((c, m) :: (d, m') :: rest) i p = .ok q) :
    ∃ v, place back last rest (i + 2) (p.push v 0 (.finite c.edge)) = .ok q := by
  cases rest with
  | nil =>
      rw [place, if_pos hc] at h
      obtain ⟨v, -, h⟩ := except_bind_ok h
      exact ⟨v, h⟩
  | cons _ _ =>
      rw [place, if_pos hc] at h
      obtain ⟨v, -, h⟩ := except_bind_ok h
      exact ⟨v, h⟩

/-- Any other corner becomes a vertex of its own. -/
theorem place_plain (hc : c.ideal = false) : place back last ((c, m) :: rest) i p =
    place back last rest (i + 1) (p.push (back.apply m.originImage) c.angle (.finite c.edge)) := by
  have hne : ¬ c.ideal = true := Bool.eq_false_iff.mp hc
  rcases rest with _ | ⟨_, _ | _⟩ <;> exact if_neg hne

/-- Placing steps adds a vertex for each of their entries. -/
theorem HasSize.place {l : List (Corner α)} {k : Nat} (hl : Entries l k)
    {steps : List (Corner α × Motion α)} (hsteps : steps.map (·.1) = l) (hp : p.HasSize n)
    (h : place back last steps i p = .ok q) : q.HasSize (n + k) := by
  induction hl generalizing steps i p n with
  | nil =>
      obtain rfl := List.map_eq_nil_iff.mp hsteps
      cases h
      exact hp
  | ideal hc _ ih =>
      obtain ⟨⟨c, m⟩, rest, rfl, rfl, hrest⟩ := List.map_eq_cons_iff.mp hsteps
      obtain ⟨⟨d, m'⟩, rest, rfl, -, hrest⟩ := List.map_eq_cons_iff.mp hrest
      obtain ⟨v, h⟩ := place_ideal hc h
      exact Nat.add_right_comm n 1 _ ▸ ih hrest (hp.push ..) h
  | plain hc _ ih =>
      obtain ⟨⟨c, m⟩, rest, rfl, rfl, hrest⟩ := List.map_eq_cons_iff.mp hsteps
      rw [place_plain hc] at h
      exact Nat.add_right_comm n 1 _ ▸ ih hrest (hp.push ..) h

/-- The end at infinity adds two vertices. -/
theorem HasSize.closeAtInfinity {v : Point α} (hp : p.HasSize n) :
    (closeAtInfinity back last v p).HasSize (n + 2) := by
  have hset (half : α) :
      HasSize { p with angles := p.angles.setIfInBounds (p.angles.size - 1) half } n :=
    ⟨hp.vertices, Array.size_setIfInBounds.trans hp.angles, hp.edges⟩
  exact ((hset _).push ..).push ..

/-- Marking edges that reach infinity leaves their number as it is. -/
theorem HasSize.markIdeal (hp : p.HasSize n) :
    HasSize { p with edges := markIdeal p.angles p.edges } n :=
  ⟨hp.vertices, hp.angles, Array.size_mapIdx.trans hp.edges⟩

theorem size_walk (s : Space) (corners : Array (Corner α)) :
    (walk s corners).1.size = corners.size := by
  have hfold : ∀ (l : List (Corner α)) (w : Array (Motion α) × Motion α),
      (l.foldl (fun w c => (w.1.push w.2, stepFrame s w.2 c)) w).1.size = w.1.size + l.length := by
    intro l
    induction l with
    | nil => exact fun _ => rfl
    | cons c l ih =>
        intro w
        rw [List.foldl_cons, ih, Array.size_push, List.length_cons, Nat.add_right_comm]
        rfl
  rw [walk, ← Array.foldl_toList]
  exact (hfold _ _).trans (Nat.zero_add _)

/-- How many vertices the polygon with given corners has. -/
theorem ofCorners_size {s : Space} {combinatorial apeirogonal : Bool}
    {corners : Array (Corner α)} {b : Built α} {k : Nat} (hk : Entries corners.toList k)
    (h : ofCorners s combinatorial apeirogonal corners = .ok b) :
    b.polygon.HasSize
      (if combinatorial then corners.size else if apeirogonal then k + 2 else k) := by
  have hframes := size_walk s corners
  rw [ofCorners] at h
  generalize walk s corners = w at hframes h
  obtain ⟨frames, last⟩ := w
  have hsteps : (corners.zip frames).toList.map (·.1) = corners.toList := by
    rw [Array.toList_zip, List.map_fst_zip]
    exact Nat.le_of_eq (by simpa using hframes.symm)
  dsimp only at h
  split at h
  · rename_i hcomb
    cases h
    rw [if_pos hcomb]
    exact ⟨Array.size_mapIdx, Array.size_map, Array.size_map⟩
  rename_i hcomb
  rw [if_neg hcomb]
  split at h
  · cases h
  · split at h
    · cases h
    · rename_i q hq
      have hempty : (empty : Polygon α).HasSize 0 := ⟨rfl, rfl, rfl⟩
      have hplaced : q.HasSize k := Nat.zero_add k ▸ hempty.place hk hsteps hq
      cases h
      cases apeirogonal with
      | true => exact hplaced.closeAtInfinity.markIdeal
      | false => exact hplaced.markIdeal

end Polygon

end Mosaic
