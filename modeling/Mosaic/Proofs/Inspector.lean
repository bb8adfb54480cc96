import Mathlib.Data.List.Induction
import Mosaic.Inspector
import Mosaic.Proofs.Descent
import Mosaic.Proofs.Scalar.Whole
import Mosaic.Proofs.Tiling.WellFormed

/-!
# Inspector — trails

An inspector is moved by follows and by undos, in any order; each move starts from the inspector
that its predecessor has left, whether or not that one failed (`Inspector.after`).  A follow that has
succeeded stands until an undo takes it back (`Inspector.standing`).  Whatever the moves have been, the inspector is the one that the standing
follows lead to, and each of them was made where its predecessor had led (`Inspector.Stands`).  So
its trail is that of a fresh inspector which makes these follows alone (`Inspector.trail_replays`).
-/

namespace Mosaic.Inspector

variable {α : Type} [Scalar α]

/-- A move of an inspector. -/
inductive Move where
  | follow (edge : Nat)
  | undo
  deriving DecidableEq, Repr

/-- The inspector that a move leaves, whether it succeeds or fails. -/
def act (i : Inspector α) : Move → Inspector α
  | .follow e => left (advance e i)
  | .undo => i.retreat.2

/-- The inspector after a run of moves. -/
def after (i : Inspector α) (ms : List Move) : Inspector α := ms.foldl act i

/-- The inspector after follows of which none may be refused. -/
def followAll (i : Inspector α) (edges : List Nat) : Except (MapError α) (Inspector α) :=
  edges.foldlM follow i

/-- Puts a move to those made so far.  A follow that succeeds comes to stand; an undo takes back the
follow that has come to stand last, if any. -/
def note (i : Inspector α) (s : List Move × List (List Move × Nat)) :
    Move → List Move × List (List Move × Nat)
  | .follow e =>
    (s.1 ++ [.follow e], if ((i.after s.1).follow e).isOk then (s.1, e) :: s.2 else s.2)
  | .undo => (s.1 ++ [.undo], s.2.tail)

/-- The follows of a run that have succeeded and have not been taken back, the last one first, each
as the moves before it and its edge. -/
def standing (i : Inspector α) (ms : List Move) : List (List Move × Nat) :=
  (ms.foldl i.note ([], [])).2

/-- The edges of the follows that stand, in the order in which they were followed. -/
def edges (i : Inspector α) (ms : List Move) : List Nat := ((i.standing ms).map (·.2)).reverse

/-- The polygon `q` is the neighbour of `p` across edge `e`: it has the shape that the gluing names,
and is placed by the adjacency of the edge, which scales and shears in the plane. -/
def Joins (t : Tiling α) (p : Placed α) (e : Nat) (q : Placed α) : Prop :=
  ∃ c m, t.connection? p.shape e = some c ∧
    t.adjacencyVia p.shape e none (t.space == .euclidean) = .ok m ∧ q = ⟨p.motion * m, c.shape⟩

variable {i j k : Inspector α} {e : Nat} {ms : List Move}

/-! ### Single moves -/

/-- What a follow does when it succeeds. -/
theorem advance_ok {n : Nat} : advance e i = .ok n j ↔ ∃ q, Joins i.tiling i.current e q ∧
    n = q.shape ∧ j = { i with followed := q :: i.followed } := by
  unfold Joins
  constructor
  · intro h
    dsimp only [advance] at h
    split at h
    · cases h
    rename_i c hc
    split at h
    · cases h
    rename_i m hm
    cases h
    exact ⟨_, ⟨c, m, hc, hm, rfl⟩, rfl, rfl⟩
  · rintro ⟨q, ⟨c, m, hc, hm, rfl⟩, rfl, rfl⟩
    simp only [advance, hc, hm]

/-- A follow that fails leaves the inspector as it is. -/
theorem advance_error {err : MapError α} (h : advance e i = .error err j) : j = i := by
  dsimp only [advance] at h
  split at h
  · cases h
    rfl
  split at h
  · cases h
    rfl
  · cases h

theorem follow_eq_ok : i.follow e = .ok j ↔ ∃ n, advance e i = .ok n j := by
  rw [follow]
  cases advance e i with
  | ok n k => simp
  | error err k => simp

theorem follow_eq_error {err : MapError α} :
    i.follow e = .error err ↔ ∃ k, advance e i = .error err k := by
  rw [follow]
  cases advance e i with
  | ok n k => simp
  | error err k => simp

/-- A tile that is followed is joined to the current one. -/
theorem follow_ok : i.follow e = .ok j ↔
    ∃ q, Joins i.tiling i.current e q ∧ j = { i with followed := q :: i.followed } := by
  simp [follow_eq_ok, advance_ok]

omit [Scalar α] in
theorem length_trail (i : Inspector α) : i.trail.length = i.followed.length + 1 := by
  simp [trail]

omit [Scalar α] in
/-- A tile that is followed is the last one of the trail. -/
theorem trail_cons (i : Inspector α) (q : Placed α) :
    trail { i with followed := q :: i.followed } = i.trail ++ [q] := by
  simp [trail]

omit [Scalar α] in
/-- A trail of one tile has nothing to be taken back. -/
theorem followed_eq_nil (h : i.trail.length = 1) : i.followed = [] :=
  List.length_eq_zero_iff.mp (Nat.succ.inj (i.length_trail.symm.trans h))

omit [Scalar α] in
theorem getLast?_trail (i : Inspector α) : i.trail.getLast? = some i.current := by
  rw [trail, List.getLast?_cons, List.getLast?_reverse, current]

omit [Scalar α] in
/-- There is no step back from the first polygon, which stays. -/
theorem retreat_of_first (h : i.followed = []) : i.retreat = (false, i) := by
  rw [retreat, h]

/-- Only the last polygon is taken back. -/
theorem retreat_of_follow (h : i.follow e = .ok j) : j.retreat = (true, i) := by
  obtain ⟨q, -, rfl⟩ := follow_ok.mp h
  rfl

omit [Scalar α] in
theorem retreat_fst_eq_false : i.retreat.1 = false ↔ i.trail.length = 1 := by
  rw [length_trail, retreat]
  cases i.followed <;> simp

/-- A move across an edge goes to the neighbour. -/
theorem act_of_ok (h : i.follow e = .ok j) : i.act (.follow e) = j := by
  obtain ⟨n, hn⟩ := follow_eq_ok.mp h
  rw [act, hn, left]

/-- A move that fails leaves the inspector as it was. -/
theorem act_of_error {err : MapError α} (h : i.follow e = .error err) :
    i.act (.follow e) = i := by
  obtain ⟨k, hk⟩ := follow_eq_error.mp h
  rw [act, hk, left, advance_error hk]

/-! ### Runs -/

theorem after_concat (i : Inspector α) (ms : List Move) (m : Move) :
    i.after (ms ++ [m]) = (i.after ms).act m := List.foldl_concat ..

theorem foldl_note_fst (i : Inspector α) (ms : List Move) :
    (ms.foldl i.note ([], [])).1 = ms := by
  induction ms using List.reverseRecOn with
  | nil => rfl
  | append_singleton ms m ih => cases m <;> rw [List.foldl_concat, note, ih]

/-- A move across an edge stands, if it succeeds. -/
theorem standing_follow (i : Inspector α) (ms : List Move) (e : Nat) :
    i.standing (ms ++ [.follow e]) =
      if ((i.after ms).follow e).isOk then (ms, e) :: i.standing ms else i.standing ms := by
  rw [standing, List.foldl_concat, note, foldl_note_fst, standing]

/-- To undo takes back the last move that stands. -/
theorem standing_undo (i : Inspector α) (ms : List Move) :
    i.standing (ms ++ [.undo]) = (i.standing ms).tail := by
  rw [standing, List.foldl_concat, note, standing]

/-- A follow that stands is one of the moves. -/
theorem prefix_of_mem_standing {past : List Move} (h : (past, e) ∈ i.standing ms) :
    past ++ [.follow e] <+: ms := by
  induction ms using List.reverseRecOn with
  | nil => cases h
  | append_singleton ms m ih =>
      cases m with
      | undo =>
          rw [standing_undo] at h
          exact (ih (List.mem_of_mem_tail h)).trans (List.prefix_append ..)
      | follow e' =>
          rw [standing_follow] at h
          split at h
          · rcases List.mem_cons.mp h with h | h
            · cases h
              exact List.prefix_refl _
            · exact (ih h).trans (List.prefix_append ..)
          · exact (ih h).trans (List.prefix_append ..)

/-- The follows `fs`, the last one first, lead from `i` to `j`: each was made in the state that the
moves before it had left, and behind the follows that stood then. -/
inductive Stands (i : Inspector α) : List (List Move × Nat) → Inspector α → Prop where
  | first : Stands i [] i
  | next {past : List Move} {e : Nat} {j : Inspector α}
      (h : Stands i (i.standing past) (i.after past)) (hfollow : (i.after past).follow e = .ok j) :
      Stands i ((past, e) :: i.standing past) j

/-- **Every move keeps the standing follows leading to the inspector.** -/
theorem Stands.act (hi : i.followed = []) (h : Stands i (i.standing ms) (i.after ms)) (m : Move) :
    Stands i (i.standing (ms ++ [m])) (i.after (ms ++ [m])) := by
  rw [after_concat]
  cases m with
  | follow e =>
      rw [standing_follow]
      cases hfollow : (i.after ms).follow e with
      | ok j =>
          rw [act_of_ok hfollow]
          exact .next h hfollow
      | error err =>
          rw [act_of_error hfollow]
          exact h
  | undo =>
      rw [standing_undo]
      generalize i.standing ms = fs, i.after ms = j at h
      cases h with
      | first =>
          rw [Inspector.act, retreat_of_first hi]
          exact .first
      | next h hfollow =>
          rw [Inspector.act, retreat_of_follow hfollow]
          exact h

/-- After every run the standing follows lead to the inspector. -/
theorem stands_after (hi : i.followed = []) (ms : List Move) :
    Stands i (i.standing ms) (i.after ms) := by
  induction ms using List.reverseRecOn with
  | nil => exact .first
  | append_singleton ms m ih => exact ih.act hi m

/-! ### What the standing follows tell -/

section

variable {fs : List (List Move × Nat)}

/-- Moves leave the tiling and the first tile as they are. -/
theorem Stands.tiling (h : Stands i fs j) : j.tiling = i.tiling ∧ j.first = i.first := by
  induction h with
  | first => exact ⟨rfl, rfl⟩
  | next _ hfollow ih =>
      obtain ⟨q, -, rfl⟩ := follow_ok.mp hfollow
      exact ih

/-- The trail has one tile for each move that stands, and the first one. -/
theorem Stands.length_trail (hi : i.followed = []) (h : Stands i fs j) :
    j.trail.length = fs.length + 1 := by
  rw [Inspector.length_trail]
  induction h with
  | first => rw [hi]; rfl
  | next _ hfollow ih =>
      obtain ⟨q, -, rfl⟩ := follow_ok.mp hfollow
      simpa using ih

/-- A fresh inspector comes to the same place by the standing follows alone. -/
theorem Stands.followAll (h : Stands i fs j) :
    i.followAll (fs.map (·.2)).reverse = .ok j := by
  induction h with
  | first => rfl
  | @next past e j _ hfollow ih =>
      have hlast : (i.after past).followAll [e] = .ok j := by
        simp [Inspector.followAll, hfollow]
      rw [Inspector.followAll] at ih
      rw [List.map_cons, List.reverse_cons, Inspector.followAll, List.foldlM_append, ih]
      exact hlast

/-- Neighbours in the trail are neighbours across the edge that was followed. -/
theorem Stands.joins (hi : i.followed = []) (h : Stands i fs j) {n : Nat} {p q : Placed α}
    (hp : j.trail[n]? = some p) (hq : j.trail[n + 1]? = some q) :
    ∃ e, (fs.map (·.2)).reverse[n]? = some e ∧ Joins i.tiling p e q := by
  induction h with
  | first => simp [trail, hi] at hq
  | @next past e j h hfollow ih =>
      have hlength := h.length_trail hi
      obtain ⟨r, hjoins, rfl⟩ := follow_ok.mp hfollow
      rw [h.tiling.1] at hjoins
      rw [trail_cons] at hp hq
      rw [List.map_cons, List.reverse_cons]
      -- Either both polygons were there before the last follow, or it has placed the second one.
      by_cases hn : n + 1 < (i.after past).trail.length
      · rw [List.getElem?_append_left (by omega)] at hp
        rw [List.getElem?_append_left hn] at hq
        obtain ⟨e', he', hjoins'⟩ := ih hp hq
        exact ⟨e', by rw [List.getElem?_append_left (by simp; omega), he'], hjoins'⟩
      · have hlast : n + 1 = (i.after past).trail.length := by
          have := (List.getElem?_eq_some_iff.mp hq).1
          simp at this
          omega
        rw [List.getElem?_append_left (by omega)] at hp
        rw [hlast, List.getElem?_concat_length] at hq
        have hcurrent : (i.after past).trail[n]? = some (i.after past).current := by
          rw [← getLast?_trail, List.getLast?_eq_getElem?, ← hlast, Nat.add_sub_cancel]
        refine ⟨e, ?_, ?_⟩
        · have hn : n = ((i.standing past).map (·.2)).reverse.length := by simp; omega
          rw [hn, List.getElem?_concat_length]
        · cases hq
          cases hcurrent.symm.trans hp
          exact hjoins

/-- Outside of the plane the motion is the adjacency of the tiling; in the affine plane too. -/
theorem Joins.adjacency {t : Tiling α} {p q : Placed α} (h : Joins t p e q)
    (hgeometry : t.geometry ≠ .euclidean) :
    ∃ m, t.adjacency p.shape e = .ok m ∧ q.motion = p.motion * m := by
  obtain ⟨c, m, -, hm, rfl⟩ := h
  refine ⟨m, ?_, rfl⟩
  rw [← hm, Tiling.adjacency, Tiling.space]
  cases hg : t.geometry with
  | euclidean => exact absurd hg hgeometry
  | affine | hyperbolic | spherical => rfl

/-- In a well-formed tiling the trail stays in the catalogue. -/
theorem Stands.shape_lt (ht : i.tiling.WellFormed) (hi : i.followed = [])
    (hfirst : i.first.shape < i.tiling.shapes.size) (h : Stands i fs j) :
    ∀ p ∈ j.trail, p.shape < i.tiling.shapes.size := by
  induction h with
  | first => simpa [trail, hi] using hfirst
  | next h hfollow ih =>
      obtain ⟨r, ⟨c, m, hc, -, rfl⟩, rfl⟩ := follow_ok.mp hfollow
      intro p hp
      simp only [trail, List.reverse_cons, ← List.cons_append, List.mem_append,
        List.mem_singleton] at hp
      rcases hp with hp | rfl
      · exact ih p hp
      · rw [h.tiling.1] at hc
        obtain ⟨ha, hc⟩ := Tiling.connection?_eq_some_iff.mp hc
        exact ht.target_shape _ (Tiling.shape_mem ha) c (Array.mem_of_getElem? hc)

end

theorem ofShape_of_lt {t : Tiling α} {shape : Nat} (h : shape < t.shapes.size) :
    ofShape t shape = .ok ⟨t, ⟨Motion.identity, shape⟩, []⟩ := by
  have hsome : t.shapes.isEmpty = false := by
    rw [Array.isEmpty_eq_false_iff]
    rintro hempty
    rw [hempty] at h
    cases h
  rw [ofShape, hsome, if_neg Bool.false_ne_true, if_neg (Nat.not_le_of_lt h)]

/-- **The trail is the replay of the follows that have not been taken back.**  A follow that fails
leaves the inspector as it was, and one that succeeds answers the shape it has come to.  A step back
is refused exactly if one polygon is left, and otherwise leaves the inspector as it was before the
last follow that stands. -/
theorem trail_replays {t : Tiling α} (ht : t.WellFormed) {shape : Nat}
    (hshape : shape < t.shapes.size) :
    ∃ i, ofShape t shape = .ok i ∧ ∀ ms : List Move,
      ((i.after ms).tiling = t ∧
        (i.after ms).trail.head? = some ⟨Motion.identity, shape⟩) ∧
      (∀ e err j, advance e (i.after ms) = .error err j → j = i.after ms) ∧
      (∀ e n j, advance e (i.after ms) = .ok n j →
        ∃ q, j.trail = (i.after ms).trail ++ [q] ∧ n = q.shape) ∧
      ((i.after ms).retreat.1 = false ↔ (i.after ms).trail.length = 1) ∧
      ((i.after ms).retreat.1 = false → (i.after ms).retreat.2 = i.after ms) ∧
      ((i.after ms).retreat.1 = true → ∃ past e rest,
        i.standing ms = (past, e) :: rest ∧ past ++ [.follow e] <+: ms ∧
          (i.after past).follow e = .ok (i.after ms) ∧
            (i.after ms).retreat.2 = i.after past) ∧
      (i.after ms).trail.length = (i.edges ms).length + 1 ∧
      (∀ n p q, (i.after ms).trail[n]? = some p → (i.after ms).trail[n + 1]? = some q →
        ∃ e, (i.edges ms)[n]? = some e ∧ Joins t p e q ∧ (t.geometry ≠ .euclidean →
          ∃ m, t.adjacency p.shape e = .ok m ∧ q.motion = p.motion * m)) ∧
      (∀ p ∈ (i.after ms).trail, p.shape < t.shapes.size) ∧
      i.followAll (i.edges ms) = .ok (i.after ms) := by
  refine ⟨_, ofShape_of_lt hshape, fun ms => ?_⟩
  have hstands := stands_after (i := ⟨t, ⟨Motion.identity, shape⟩, []⟩) rfl ms
  generalize hi : (⟨t, ⟨Motion.identity, shape⟩, []⟩ : Inspector α) = i at hstands
  have hfollowed : i.followed = [] := hi ▸ rfl
  obtain ⟨htiling, hfirst⟩ := hstands.tiling
  refine ⟨⟨by rw [htiling, ← hi], ?_⟩, fun e err j => advance_error, fun e n j h => ?_,
    retreat_fst_eq_false, fun h => ?_, fun h => ?_, ?_, fun n p q hp hq => ?_, ?_,
    hstands.followAll⟩
  · rw [trail, List.head?_cons, hfirst, ← hi]
  · obtain ⟨q, -, rfl, rfl⟩ := advance_ok.mp h
    exact ⟨q, trail_cons _ q, rfl⟩
  · rw [retreat_of_first (followed_eq_nil (retreat_fst_eq_false.mp h))]
  · generalize hfs : i.standing ms = fs at hstands
    generalize hk : i.after ms = k at hstands h
    cases hstands with
    | first =>
        rw [retreat_of_first hfollowed] at h
        cases h
    | @next past e _ _ hfollow =>
        refine ⟨past, e, _, rfl, prefix_of_mem_standing (i := i) ?_, hfollow, ?_⟩
        · rw [hfs]
          exact List.mem_cons_self
        · rw [retreat_of_follow hfollow]
  · rw [hstands.length_trail hfollowed, edges, List.length_reverse, List.length_map]
  · obtain ⟨e, he, hjoins⟩ := hstands.joins hfollowed hp hq
    rw [← hi] at hjoins
    exact ⟨e, he, hjoins, hjoins.adjacency⟩
  · have hlt := hstands.shape_lt (hi ▸ ht) hfollowed (hi ▸ hshape)
    rwa [← hi] at hlt ⊢

/-- A square with given gluings. -/
def square (id : Nat) (connections : Array Connection) : Shape Whole where
  __ := Shape.empty
  id := id
  vertices := #[⟨0, 0, 1⟩, ⟨1, 0, 1⟩, ⟨1, 1, 1⟩, ⟨0, 1, 1⟩]
  edges := Array.replicate 4 (.finite 1)
  connections := connections

/-- Two squares glued to each other, and the first one mirrored to itself. -/
def twoSquares : Tiling Whole where
  __ := Tiling.empty
  geometry := .euclidean
  isCombinatorial := true
  shapes := #[square 0 #[⟨1, 2, false⟩, ⟨0, 3, true⟩, ⟨0, 2, false⟩, ⟨0, 1, true⟩],
    square 1 #[⟨1, 0, false⟩, ⟨1, 1, false⟩, ⟨0, 0, false⟩, ⟨1, 3, false⟩]]

/-- Of these moves the first and the third fail, and the last one takes back the fifth. -/
def wander : List Move := [.undo, .follow 0, .follow 7, .follow 2, .follow 1, .undo]

/-- To the other square and back. -/
theorem trail_replays_wander : twoSquares.WellFormed ∧ 0 < twoSquares.shapes.size ∧
    ∃ i, ofShape twoSquares 0 = .ok i ∧ i.edges wander = [0, 2] ∧
      (i.after wander).trail.map (·.shape) = [0, 1, 0] ∧
      i.followAll [0, 2] = .ok (i.after wander) := by
  have hwell : twoSquares.WellFormed := by decide
  have hsize : 0 < twoSquares.shapes.size := by decide
  obtain ⟨i, hi, hruns⟩ := trail_replays hwell hsize
  obtain ⟨-, -, -, -, -, -, -, -, -, hreplay⟩ := hruns wander
  obtain rfl := Except.ok.inj ((ofShape_of_lt hsize).symm.trans hi)
  have hedges : (edges (⟨twoSquares, ⟨Motion.identity, 0⟩, []⟩ : Inspector Whole) wander) =
      [0, 2] := by decide +kernel
  rw [hedges] at hreplay
  exact ⟨hwell, hsize, _, hi, hedges, by decide +kernel, hreplay⟩

end Mosaic.Inspector
