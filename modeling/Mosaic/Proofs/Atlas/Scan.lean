import Mosaic.Proofs.Atlas.Filing
import Mosaic.Proofs.Scalar.Fraction

/-!
# Atlas — steps without tables

The tiles of a cell, and the tiles that a search has listed, are kept in hash tables, which cannot
be evaluated in proofs.  If tiles are filed, those of a cell are the ones that lie there
(`scanned`); and what a search has listed stands in its queue (`Search.Lists`).  A step that goes
through lists instead of tables is the same step (`step_eq_scanStep`), so runs of steps can be
evaluated (`after_steps`).
-/

namespace Mosaic.Atlas

variable {α : Type} [Scalar α] {m : Atlas α} {id edge : Nat} {c : Connection} {goal : Motion α}

/-! ### Going through all tiles -/

/-- The candidates around a cell, found by going through all tiles. -/
def scanned (m : Atlas α) (key : AnchorKey) : List (Nat × Motion α) :=
  (m.lattice.around key).flatMap fun (k, toHere) =>
    ((List.range m.size).filter fun a => (m.place a).key = k).map fun p => (p, toHere)

theorem Filed.candidates_eq (h : Filed m) (haffine : m.isAffine = false) (key : AnchorKey) :
    m.candidates key = m.scanned key := by
  simp only [candidates, scanned, h.bucket_eq haffine]

/-! ### Searching with a list -/

/-- The tiles `found`, each with its motion, are in the queue, and they are those that have been
seen. -/
structure Search.Lists (S : Search α) (found : List (Nat × Motion α)) : Prop where
  queue : S.queue.toList = found
  seen : ∀ a, a ∈ S.seen ↔ a ∈ found.map Prod.fst

/-- The list `found` with the tile added that edge `k` of tile `h` leads to, where `h` is seen by
the motion `t`. -/
def widen (m : Atlas α) (h : Nat) (t : Motion α) (node : Node) (found : List (Nat × Motion α))
    (k : Nat) : Except (MapError α) (List (Nat × Motion α)) :=
  match node.link? k with
  | none => pure found
  | some l =>
    if l.node ∈ found.map Prod.fst then pure found
    else do
      let adjacency ← m.adjacencyOf h k
      return found ++ [(l.node, t * adjacency)]

/-- `searchAffine` with a list. -/
def hunt (m : Atlas α) (id edge : Nat) (c : Connection) (goal : Motion α) :
    (fuel : Nat) → (i : Nat) → List (Nat × Motion α) → Except (MapError α) (Option Nat)
  | 0, _, _ => .ok none
  | fuel + 1, i, found =>
    match found[i]? with
    | none => .ok none
    | some (h, t) =>
      match m.nodes[h]? with
      | none => .ok none
      | some node =>
        if node.shape == c.shape && t.approxEq goal && node.canLink c.edge id edge then
          .ok (some h)
        else do
          let found ← (List.range node.degree).foldlM (m.widen h t node) found
          hunt m id edge c goal fuel (i + 1) found

/-- A search begins with one tile. -/
theorem lists_start (s : Nat) : Search.Lists
    ⟨#[(s, (Motion.identity : Motion α))], Std.HashSet.emptyWithCapacity.insert s⟩
    [(s, Motion.identity)] where
  queue := rfl
  seen a := by
    rw [Std.HashSet.mem_insert, beq_iff_eq, eq_comm]
    simp

omit [Scalar α] in
/-- One more tile for the queue. -/
theorem Search.Lists.push {S : Search α} {found : List (Nat × Motion α)} (hS : S.Lists found)
    (a : Nat) (t : Motion α) :
    Search.Lists ⟨S.queue.push (a, t), S.seen.insert a⟩ (found ++ [(a, t)]) where
  queue := by rw [Array.toList_push, hS.queue]
  seen b := by
    rw [Std.HashSet.mem_insert, hS.seen, beq_iff_eq, List.map_append, List.mem_append,
      List.map_singleton, List.mem_singleton, or_comm, eq_comm]

/-- What a tile adds to a search it adds to the list, unless both fail. -/
theorem extendSearch_widen (h : Nat) (t : Motion α) (node : Node) {S : Search α}
    {found : List (Nat × Motion α)} (hS : S.Lists found) :
    (∃ e, m.extendSearch h t node S = .error e ∧
      (List.range node.degree).foldlM (m.widen h t node) found = .error e) ∨
    ∃ S' found', m.extendSearch h t node S = .ok S' ∧
      (List.range node.degree).foldlM (m.widen h t node) found = .ok found' ∧ S'.Lists found' := by
  unfold extendSearch
  induction List.range node.degree generalizing S found with
  | nil => exact .inr ⟨S, found, rfl, rfl, hS⟩
  | cons k edges ih =>
      rw [List.foldlM_cons, List.foldlM_cons, widen]
      cases hl : node.link? k with
      | none => exact ih hS
      | some l =>
          have hseen : S.seen.contains l.node = true ↔ l.node ∈ found.map Prod.fst := by
            rw [Std.HashSet.contains_iff_mem, hS.seen]
          by_cases hmem : l.node ∈ found.map Prod.fst
          · simp only [hseen.mpr hmem, hmem, if_true]
            exact ih hS
          · simp only [mt hseen.mp hmem, hmem, if_false]
            cases ha : m.adjacencyOf h k with
            | error e => exact .inl ⟨e, rfl, rfl⟩
            | ok adjacency => exact ih (hS.push l.node (t * adjacency))

/-- The search with a list finds what the search finds. -/
theorem searchAffine_eq_hunt {fuel i : Nat} {S : Search α} {found : List (Nat × Motion α)}
    (hS : S.Lists found) :
    m.searchAffine id edge c goal fuel i S = m.hunt id edge c goal fuel i found := by
  induction fuel generalizing i S found with
  | zero => rfl
  | succ fuel ih =>
      rw [searchAffine, hunt, ← Array.getElem?_toList, hS.queue]
      cases found[i]? with
      | none => rfl
      | some x =>
          obtain ⟨h, t⟩ := x
          dsimp only
          cases m.nodes[h]? with
          | none => rfl
          | some node =>
              dsimp only
              split
              · rfl
              · obtain ⟨e, hsearch, hlist⟩ | ⟨S', found', hsearch, hlist, hS'⟩ :=
                  extendSearch_widen h t node hS
                · rw [hsearch, hlist]
                  rfl
                · rw [hsearch, hlist]
                  exact ih hS'

/-! ### Steps -/

/-- `resolve` with lists. -/
def scanResolve (id edge : Nat) (c : Connection) (adjacency : Motion α) : Walk α Nat := fun m =>
  let here := m.place id
  if m.isAffine then
    match m.hunt id edge c adjacency m.tiling.affineLimit 0 [(id, Motion.identity)] with
    | .error e => .error e m
    | .ok (some h) => .ok h (m.link id edge h c.edge c.mirror)
    | .ok none => create id edge c ⟨.globe, here.offset * adjacency⟩ m
  else
    let place := m.lattice.settle here.key (here.offset * adjacency)
    match (m.scanned place.key).findSome? (m.examine? id edge c place) with
    | some (p, f) => .ok p (m.link id edge p f c.mirror)
    | none => create id edge c place m

/-- `step` with lists. -/
def scanStep (id edge : Nat) : Walk α Nat := fun m =>
  match m.nodes[id]? with
  | none => .error (.invalidNode id) m
  | some node =>
    if node.degree ≤ edge then .error (.invalidEdge node.shape edge) m
    else
      match node.link? edge with
      | some l => .ok l.node m
      | none =>
        match m.adjacencyOf id edge with
        | .error e => .error e m
        | .ok adjacency =>
          scanResolve id edge ((m.tiling.shape node.shape).connection edge) adjacency m

/-- An edge that leads nowhere is resolved in the same way. -/
theorem resolve_eq_scanResolve (h : Filed m) (id edge : Nat) (c : Connection)
    (adjacency : Motion α) : resolve id edge c adjacency m = scanResolve id edge c adjacency m := by
  unfold resolve scanResolve
  cases haffine : m.isAffine with
  | true =>
      rcases hhunt : m.hunt id edge c adjacency m.tiling.affineLimit 0 [(id, Motion.identity)] with
        e | _ | h
      all_goals simp only [if_true, searchAffine_eq_hunt (lists_start id), hhunt]
  | false =>
      let place := m.lattice.settle (m.place id).key ((m.place id).offset * adjacency)
      rcases hscan : (m.scanned place.key).findSome? (m.examine? id edge c place) with _ | ⟨p, f⟩
      all_goals
        simp only [place] at hscan
        simp only [Bool.false_eq_true, if_false, findPlaced?_eq, h.candidates_eq haffine, hscan]

/-- A step with lists is the same step. -/
theorem step_eq_scanStep (h : Filed m) (id edge : Nat) :
    step id edge m = scanStep id edge m := by
  unfold step scanStep
  cases m.nodes[id]? with
  | none => rfl
  | some node =>
      dsimp only
      split
      · rfl
      · cases node.link? edge with
        | some l => rfl
        | none =>
            cases m.adjacencyOf id edge with
            | error e => rfl
            | ok adjacency => exact resolve_eq_scanResolve h id edge _ adjacency

/-- The atlas after steps with lists. -/
def scanAfter (m : Atlas α) (steps : List (Nat × Nat)) : Atlas α :=
  steps.foldl (fun m s => finalState (scanStep s.1 s.2) m) m

/-- A run of steps can be evaluated with lists. -/
theorem after_steps (h : Filed m) (steps : List (Nat × Nat)) :
    m.after (steps.map fun s => .step s.1 s.2) = m.scanAfter steps := by
  induction steps generalizing m with
  | nil => rfl
  | cons s steps ih =>
      have hcall : m.call (.step s.1 s.2) = finalState (scanStep s.1 s.2) m := by
        rw [call, finalState, finalState, step_eq_scanStep h]
      have hfiled := after_filed h [.step s.1 s.2]
      rw [after, List.foldl_cons, List.foldl_nil] at hfiled
      rw [List.map_cons, after, List.foldl_cons, scanAfter, List.foldl_cons, ← hcall]
      exact ih hfiled

/-- A rectangle of height `h`, glued to `vertical` above and below and to `horizontal` on both
sides. -/
def rectangle (h : Fraction) (vertical horizontal : Nat) : Shape Fraction where
  __ := Shape.empty
  vertices := #[⟨0, 0, 1⟩, ⟨1, 0, 1⟩, ⟨1, h, 1⟩, ⟨0, h, 1⟩]
  edges := #[.finite 1, .finite h, .finite 1, .finite h]
  connections := #[⟨vertical, 2, false⟩, ⟨horizontal, 3, false⟩, ⟨vertical, 0, false⟩,
    ⟨horizontal, 1, false⟩]

end Mosaic.Atlas
