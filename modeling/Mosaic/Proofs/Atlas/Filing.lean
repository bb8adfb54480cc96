import Mathlib.Data.List.Nodup
import Mosaic.Proofs.Anchor.Around
import Mosaic.Proofs.Atlas.Footprint

/-!
# Atlas — tiles are filed by cell

In an atlas that is not affine every tile is filed once, in the cell that its place names, and the
tiles of a cell stand in the order of their numbers (`Filed`, `after_filed`).  The names of the
cells around a place are all different, so going through their tiles means going through the tiles
that lie in these cells, each once (`candidates_nodup`, `mem_candidates`).
-/

namespace Mosaic.Atlas

variable {α : Type} [Scalar α] {m : Atlas α}

omit [Scalar α] in
/-- The tiles filed in a cell. -/
def bucket (m : Atlas α) (key : AnchorKey) : List Nat := ((m.buckets[key]?).getD #[]).toList

/-- Every tile has a place whose cell has a name, and it is filed there if tiles are filed. -/
structure Filed (m : Atlas α) : Prop where
  housed : m.places.size = m.nodes.size
  named : ∀ a, (m.place a).key.IsName
  bucket_eq : m.isAffine = false → ∀ key,
    m.bucket key = (List.range m.size).filter fun a => (m.place a).key = key
  unfiled : m.isAffine = true → m.buckets = ∅

/-! ### Changes -/

theorem place_insert (h : m.places.size = m.nodes.size) (n : Node) (p : Placement α) (a : Nat) :
    (m.insert n p).place a = if a = m.size then p else m.place a := by
  have hplaces : (m.insert n p).places[a]? = if a = m.places.size then some p else m.places[a]? :=
    Array.getElem?_push
  rw [place, hplaces, h]
  by_cases ha : a = m.nodes.size
  · rw [if_pos ha, if_pos (show a = m.size from ha)]
    rfl
  · rw [if_neg ha, if_neg (show ¬ a = m.size from ha)]
    rfl

omit [Scalar α] in
theorem bucket_insert (h : m.isAffine = false) (n : Node) (p : Placement α) (key : AnchorKey) :
    (m.insert n p).bucket key =
      if key = p.key then m.bucket key ++ [m.size] else m.bucket key := by
  have hb := buckets_insert m n p
  rw [if_neg (by rw [h]; exact Bool.false_ne_true)] at hb
  unfold bucket
  rw [hb]
  split <;> simp

/-- Placing a tile files it. -/
theorem Filed.insert (h : Filed m) (n : Node) {p : Placement α} (hp : p.key.IsName) :
    Filed (m.insert n p) := by
  constructor
  case housed =>
    change (m.places.push p).size = (m.nodes.push n).size
    rw [Array.size_push, Array.size_push, h.housed]
  case named =>
    intro a
    rw [place_insert h.housed]
    split
    · exact hp
    · exact h.named a
  case bucket_eq =>
    intro haffine key
    replace haffine : m.isAffine = false := haffine
    have hsize : (m.insert n p).size = m.size + 1 := Array.size_push n
    have hold : (List.range m.size).filter (fun a => ((m.insert n p).place a).key = key) =
        (List.range m.size).filter fun a => (m.place a).key = key := by
      refine List.filter_congr fun a ha => ?_
      rw [place_insert h.housed, if_neg (Nat.ne_of_lt (List.mem_range.mp ha))]
    rw [bucket_insert haffine, hsize, List.range_succ, List.filter_append, hold,
      ← h.bucket_eq haffine]
    by_cases hk : key = p.key
    · subst hk
      simp [place_insert h.housed]
    · simp [place_insert h.housed, hk, Ne.symm hk]
  case unfiled =>
    intro haffine
    have hb := buckets_insert m n p
    rw [if_pos (show m.isAffine = true from haffine)] at hb
    rw [hb, h.unfiled haffine]

/-- Linking two edges leaves the tiles where they are. -/
theorem Filed.link (h : Filed m) (a e b f : Nat) (mirror : Bool) :
    Filed (m.link a e b f mirror) := by
  have hsize : (m.link a e b f mirror).nodes.size = m.nodes.size := by simp [Atlas.link]
  exact ⟨h.housed.trans hsize.symm, h.named, fun haffine key => by
    rw [size, hsize]
    exact h.bucket_eq haffine key, h.unfiled⟩

/-! ### Runs -/

/-- A tile that is placed has been settled in its cell from the cell of its neighbour. -/
theorem Filed.isName_of_placedFrom (h : Filed m) {id : Nat} {place : Placement α}
    (hplace : m.PlacedFrom id place) : place.key.IsName := by
  cases hplace with
  | absolute _ t => trivial
  | settled _ t => exact m.lattice.settle_isName (h.named id) t

/-- What a run keeps. -/
theorem after_filed (h : Filed m) (calls : List Call) : Filed (m.after calls) :=
  after_rule (fun _ a e b f mirror h => h.link a e b f mirror)
    (fun _ _ n _ _ hplace h => h.insert n (h.isName_of_placedFrom hplace)) h calls

/-- The first tile is settled in its cell from the cell around the origin. -/
theorem ofTiling_filed {t : Tiling α} (h : ofTiling t = .ok m) : Filed m := by
  obtain ⟨first, -, rfl⟩ := ofTiling_ok h
  have hempty : Filed (empty t) :=
    ⟨rfl, fun _ => trivial, fun _ key => by simp [empty, bucket, size], fun _ => rfl⟩
  refine hempty.insert _ ?_
  unfold originPlace
  split
  · trivial
  · exact Lattice.settle_isName _ (Lattice.originKey_isName _) _

/-! ### What the cells hold -/

/-- Every tile is filed once, in its own cell. -/
theorem Filed.count_bucket (h : Filed m) (haffine : m.isAffine = false) {a : Nat} (ha : a < m.size)
    (key : AnchorKey) : (m.bucket key).count a = if (m.place a).key = key then 1 else 0 := by
  have hcount : (List.range m.size).count a = 1 :=
    List.count_eq_one_of_mem List.nodup_range (List.mem_range.mpr ha)
  rw [h.bucket_eq haffine]
  split
  · rename_i hkey
    rw [List.count_filter (by simpa using hkey), hcount]
  · rename_i hkey
    refine List.count_eq_zero_of_not_mem fun hmem => hkey ?_
    simpa using (List.mem_filter.mp hmem).2

theorem Filed.bucket_sorted (h : Filed m) (haffine : m.isAffine = false) (key : AnchorKey) :
    (m.bucket key).Pairwise (· < ·) := by
  rw [h.bucket_eq haffine]
  exact List.pairwise_lt_range.filter _

theorem Filed.mem_bucket (h : Filed m) (haffine : m.isAffine = false) {a : Nat} {key : AnchorKey} :
    a ∈ m.bucket key ↔ a < m.size ∧ (m.place a).key = key := by
  rw [h.bucket_eq haffine, List.mem_filter, List.mem_range, decide_eq_true_iff]

/-! ### Looking around a place -/

/-- The tiles of the cells around a cell, each with the motion from its cell to that one. -/
def candidates (m : Atlas α) (key : AnchorKey) : List (Nat × Motion α) :=
  (m.lattice.around key).flatMap fun (k, toHere) => (m.bucket k).map fun p => (p, toHere)

/-- Whether a tile, seen by a motion from its cell, is one of shape `c.shape` at `place`, and its
edge that can take the gluing. -/
def examine? (m : Atlas α) (id edge : Nat) (c : Connection) (place : Placement α)
    (x : Nat × Motion α) : Option (Nat × Nat) := do
  let node ← m.nodes[x.1]?
  guard (node.shape == c.shape)
  let own := x.2 * (m.place x.1).offset
  guard (m.tiling.space.samePoint own.originImage place.offset.originImage)
  return (x.1, ← m.matchingEdge? id edge c own place.offset node)

theorem findSome?_flatMap {β γ δ : Type} (l : List β) (f : β → List γ) (g : γ → Option δ) :
    (l.flatMap f).findSome? g = l.findSome? fun x => (f x).findSome? g := by
  induction l with
  | nil => rfl
  | cons x l ih =>
      rw [List.flatMap_cons, List.findSome?_append, ih, List.findSome?_cons]
      cases (f x).findSome? g <;> rfl

/-- A tile is looked for by examining the candidates one after another. -/
theorem findPlaced?_eq (id edge : Nat) (c : Connection) (place : Placement α) :
    m.findPlaced? id edge c place =
      (m.candidates place.key).findSome? (m.examine? id edge c place) := by
  rw [candidates, findSome?_flatMap]
  simp only [List.findSome?_map]
  rfl

/-- The candidates are the tiles in the cells around the cell. -/
theorem mem_candidates (h : Filed m) (haffine : m.isAffine = false) {key : AnchorKey}
    {x : Nat × Motion α} : x ∈ m.candidates key ↔
      x.1 < m.size ∧ ((m.place x.1).key, x.2) ∈ m.lattice.around key := by
  obtain ⟨a, t⟩ := x
  simp only [candidates, List.mem_flatMap, List.mem_map, h.mem_bucket haffine, Prod.mk.injEq]
  constructor
  · rintro ⟨⟨k, toHere⟩, hk, b, ⟨hb, rfl⟩, rfl, rfl⟩
    exact ⟨hb, hk⟩
  · rintro ⟨ha, hk⟩
    exact ⟨⟨_, t⟩, hk, a, ⟨ha, rfl⟩, rfl, rfl⟩

/-- No tile is a candidate twice. -/
theorem candidates_nodup (h : Filed m) (haffine : m.isAffine = false) {key : AnchorKey}
    (hkey : key.IsName) : ((m.candidates key).map Prod.fst).Nodup := by
  have hmap : (m.candidates key).map Prod.fst =
      ((m.lattice.around key).map Prod.fst).flatMap m.bucket := by
    simp only [candidates, List.map_flatMap, List.flatMap_map, List.map_map, Function.comp_def,
      List.map_id']
  rw [hmap, List.nodup_flatMap]
  refine ⟨fun k _ => ?_, ?_⟩
  · exact (h.bucket_sorted haffine k).imp Nat.ne_of_lt
  · refine (m.lattice.around_nodup hkey).imp fun {k k'} hne a ha ha' => hne ?_
    exact ((h.mem_bucket haffine).mp ha).2.symm.trans ((h.mem_bucket haffine).mp ha').2

end Mosaic.Atlas
