import Mosaic.Proofs.Description.Drafting
import Mosaic.Proofs.Description.Loops
import Mosaic.Proofs.Description.Orderly
import Mosaic.Proofs.Shape.Corners

/-!
# Description — the shape of a tile

An ideal corner stands twice in the list of corners, before and after an edge of no length, and once
in the polygon; a repetition doubles as many of them in each copy.  So the repetitions of an outline
divide the size of the polygon as they divide the list (`Outline.Fits.orderly`).
-/

namespace Mosaic

variable {α : Type} [Scalar α] {t : Tiling α} {E : Tiling α → Prop}

/-- The list of corners is not too long, and made of entries. -/
structure Listed (corners : Array (Corner α)) : Prop where
  size : corners.size ≤ maxShapeEdges
  entries : ∃ n, Entries corners.toList n

omit [Scalar α] in
/-- One more corner that is not ideal. -/
theorem Listed.push {corners : Array (Corner α)} {c : Corner α} (h : Listed corners)
    (hsize : (corners.push c).size ≤ maxShapeEdges) (hc : c.ideal = false) :
    Listed (corners.push c) := by
  obtain ⟨n, hn⟩ := h.entries
  refine ⟨hsize, n + 1, ?_⟩
  rw [Array.toList_push]
  exact hn.append (.plain hc .nil)

omit [Scalar α] in
/-- The two steps of an ideal corner are one entry. -/
theorem Listed.pushIdeal {corners : Array (Corner α)} {c d : Corner α} (h : Listed corners)
    (hsize : ((corners.push c).push d).size ≤ maxShapeEdges) (hc : c.ideal = true) :
    Listed ((corners.push c).push d) := by
  obtain ⟨n, hn⟩ := h.entries
  refine ⟨hsize, n + 1, ?_⟩
  rw [Array.toList_push, Array.toList_push, List.append_assoc]
  exact hn.append (.ideal hc .nil)

/-- The repetitions of an outline divide its corners and its entries alike. -/
structure Outline.Fits (o : Outline α) : Prop where
  size : o.corners.size ≤ maxShapeEdges
  repeat_dvd : o.repeatCount ∣ o.corners.size
  entries : ∃ n, Entries o.corners.toList (o.repeatCount * n)
  apeirogonal : o.apeirogonal → o.repeatCount = 1

omit [Scalar α] in
/-- Corners that are not repeated make an outline. -/
theorem Listed.fits {corners : Array (Corner α)} (h : Listed corners) (apeirogonal : Bool) :
    Outline.Fits ⟨corners, apeirogonal, 1⟩ := by
  obtain ⟨n, hn⟩ := h.entries
  exact ⟨h.size, Nat.one_dvd _, ⟨n, by rwa [Nat.one_mul]⟩, fun _ => rfl⟩

omit [Scalar α] in
theorem size_repeatItems {β : Type} (xs : Array β) (n : Nat) :
    (repeatItems xs n).size = n * xs.size := by
  induction n with
  | zero => rw [Nat.zero_mul]; rfl
  | succ n ih => rw [repeatItems, Array.size_append, ih, Nat.succ_mul]

omit [Scalar α] in
/-- Corners that are repeated make an outline, as long as there are not too many. -/
theorem Listed.repeated {corners : Array (Corner α)} (h : Listed corners) {factor : Nat}
    (hsize : corners.size * factor ≤ maxShapeEdges) :
    Outline.Fits ⟨repeatItems corners factor, false, factor⟩ := by
  obtain ⟨n, hn⟩ := h.entries
  have hrepeat : ∀ k, Entries (repeatItems corners k).toList (k * n) := by
    intro k
    induction k with
    | zero => rw [Nat.zero_mul]; exact .nil
    | succ k ih =>
        rw [repeatItems, Array.toList_append, Nat.succ_mul]
        exact ih.append hn
  refine ⟨?_, ?_, ⟨n, hrepeat factor⟩, fun h => nomatch h⟩
  · rwa [size_repeatItems, Nat.mul_comm]
  · rw [size_repeatItems]
    exact Nat.dvd_mul_right factor corners.size

/-- Every edge of a new shape is glued to an edge of the shape. -/
theorem Shape.resetConnections_self {s : Shape α} {c : Connection}
    (hc : c ∈ s.resetConnections.connections) : c.shape = s.id ∧ c.edge < s.size := by
  obtain ⟨i, rfl⟩ := Array.mem_ofFn.mp hc
  have hi : i < s.size := i.2
  refine ⟨rfl, ?_⟩
  dsimp only
  split_ifs <;> omega

/-- The shape of an outline is orderly, and its edges are glued to itself. -/
theorem Outline.Fits.orderly {o : Outline α} (h : o.Fits) (hne : o.corners ≠ #[]) {id : Nat}
    {space : Space} {combinatorial : Bool} {s : Shape α} {b : Polygon.Built α}
    (hs : Shape.ofCorners id space combinatorial o.apeirogonal o.corners o.repeatCount =
      .ok (s, b)) :
    s.id = id ∧ s.Orderly ∧ ∀ c ∈ s.connections, c.shape = s.id ∧ c.edge < s.size := by
  obtain ⟨n, hn⟩ := h.entries
  obtain ⟨built, hbuilt, hs⟩ := except_bind_ok hs
  cases hs
  have hsize := Polygon.ofCorners_size hn hbuilt
  have hcorners : 1 ≤ o.corners.size := Array.size_pos_iff.mpr hne
  have hentries := hn.pos (by simpa using hne)
  have hpos : 1 ≤ o.repeatCount := Nat.pos_of_dvd_of_pos h.repeat_dvd hcorners
  have hcount : 1 ≤ b.polygon.vertices.size ∧
      o.repeatCount ∣ b.polygon.vertices.size := by
    rw [hsize.vertices]
    -- A combinatorial polygon has a vertex for every corner, ideal or not; an apeirogon has two
    -- more than entries, but is never repeated.
    split_ifs with hcombinatorial hap
    · exact ⟨hcorners, h.repeat_dvd⟩
    · exact ⟨Nat.le_add_left 1 _, h.apeirogonal hap ▸ Nat.one_dvd _⟩
    · exact ⟨hentries, Nat.dvd_mul_right ..⟩
  refine ⟨rfl, ?_, fun c hc => Shape.resetConnections_self hc⟩
  exact
    { size_pos := hcount.1
      angles_size := hsize.angles.trans hsize.vertices.symm
      edges_size := hsize.edges.trans hsize.vertices.symm
      connections_size := Array.size_ofFn
      stretchShear_size := Array.size_replicate
      repeat_pos := hpos
      repeat_dvd := hcount.2
      sublines := fun p hp => nomatch hp
      corners_size := h.size }

namespace Drafting

/-- One more corner, if there is room for it. -/
theorem pushCorner_yields (corners : Array (Corner α)) (edge angle : α) (ideal : Bool) :
    Yields E (pushCorner corners edge angle ideal) t fun cs u =>
      u = t ∧ cs.size ≤ maxShapeEdges ∧ ∃ c : Corner α, c.ideal = ideal ∧ cs = corners.push c := by
  refine .bind (.draft fun _ _ => .bind (.read fun e => .bind (.read fun a => ?_)))
  refine .ite (fun _ => .bind .fail) fun hlt => .pure ⟨rfl, ?_, _, rfl, rfl⟩
  rw [Array.size_push]
  omega

/-- After a factor the corners make an outline. -/
theorem tileRepeat_yields {corners : Array (Corner α)} (h : Listed corners) :
    Yields E (tileRepeat corners) t fun o u => u = t ∧ o.Fits := by
  refine .bind (.read fun place => .bind (sum_yields fun factor => ?_))
  refine .ite (fun _ => .bind (.read fun _ => .pure ⟨rfl, h.fits true⟩)) fun _ => ?_
  refine .bind (.read fun x => ?_)
  refine .ite (fun _ => .bind .failAt) fun _ => ?_
  refine .ite (fun _ => .bind .failAt) fun hbounds => ?_
  have hsize : corners.size * (Scalar.round x).toNat ≤ maxShapeEdges := by
    rw [Bool.or_eq_true, not_or, decide_eq_true_eq] at hbounds
    exact Nat.le_of_not_lt hbounds.2
  refine .bind (.read fun closed => .ite (fun _ => ?_) fun _ => .bind .fail)
  exact .pure ⟨rfl, h.repeated hsize⟩

theorem tileEntry_yields (unit : Bool) {corners : Array (Corner α)} (h : Listed corners) :
    Yields E (tileEntry unit corners) t fun cs u => u = t ∧ Listed cs := by
  unfold tileEntry
  -- The bracket of an ideal corner may stand before the edge or after it, so what follows either
  -- place is settled first, for every bracket and every edge that may have been read.
  extract_lets afterBracket
  have hentry : ∀ bracket, Yields E (afterBracket bracket) t fun cs u => u = t ∧ Listed cs := by
    intro bracket
    unfold afterBracket
    extract_lets afterEdge
    have hcorner : ∀ edge, Yields E (afterEdge edge) t fun cs u => u = t ∧ Listed cs := by
      intro edge
      have hideal : Yields E (if bracket then pure true else Reader.eat "[" : Drafting α Bool) t
          fun _ u => u = t := .ite (fun _ => .pure rfl) fun _ => .read fun _ => rfl
      refine .bind (hideal.mono fun ideal u hu => .ite (fun _ => ?_) fun _ => ?_)
      · refine .bind (sum_yields fun a => .bind (.read fun _ => ?_))
        refine .bind ((pushCorner_yields corners edge a true).mono fun cs v hcs => ?_)
        obtain ⟨rfl, -, c, hc, rfl⟩ := hcs
        refine .bind (sum_yields fun d => .bind (.read fun _ => ?_))
        refine .bind (sum_yields fun a => .bind (.read fun _ => ?_))
        refine (pushCorner_yields _ d a false).mono fun cs' v hcs' => ?_
        obtain ⟨rfl, hsize, c', -, rfl⟩ := hcs'
        exact ⟨hu, h.pushIdeal hsize hc⟩
      · refine .bind (sum_yields fun a => ?_)
        refine (pushCorner_yields corners edge a false).mono fun cs v hcs => ?_
        obtain ⟨rfl, hsize, c, hc, rfl⟩ := hcs
        exact ⟨hu, h.push hsize hc⟩
    exact .ite (fun _ => .bind (.pure (hcorner 1))) fun _ =>
      .bind (sum_yields fun d => .bind (.read fun _ => .bind (.pure (hcorner d))))
  exact .ite (fun _ => .bind (.pure (hentry false))) fun _ => .bind (.read hentry)

/-- A round goes on with the corners listed so far, or ends with an outline. -/
theorem cornerRound_yields (unit : Bool) {corners : Array (Corner α)} (h : Listed corners) :
    Yields E (cornerRound unit corners) t fun r u => u = t ∧
      match r with
      | .inl cs => Listed cs
      | .inr o => o.Fits := by
  refine .bind (.read fun closed => .ite (fun _ => .pure ⟨rfl, h.fits false⟩) fun _ => ?_)
  refine .bind (.read fun repeated => .ite (fun _ => ?_) fun _ => ?_)
  · exact .bind ((tileRepeat_yields h).mono fun o v ho => .pure ho)
  · refine .bind ((tileEntry_yields unit h).mono fun cs v hcs => ?_)
    obtain ⟨rfl, hcs⟩ := hcs
    refine .bind (.read fun more => .ite (fun _ => .pure ⟨rfl, hcs⟩) fun _ => ?_)
    exact .bind (.read fun closed => .ite (fun _ => .pure ⟨rfl, hcs.fits false⟩) fun _ => .fail)

/-- A list of corners makes an outline. -/
theorem outline_yields (unit : Bool) :
    Yields E (outline unit : Drafting α (Outline α)) t fun o u => u = t ∧ o.Fits := by
  have hnil : Listed (#[] : Array (Corner α)) := ⟨Nat.zero_le _, 0, .nil⟩
  rw [outline_eq]
  refine .iterate (P := fun corners u => u = t ∧ Listed corners) ⟨rfl, hnil⟩ ?_
  rintro corners u ⟨rfl, h⟩
  refine (cornerRound_yields unit h).mono fun r v hr => ?_
  cases r <;> exact hr

/-- A tile leaves an orderly tiling orderly. -/
theorem tile_yields (unit : Bool) (place : Nat) (ht : t.Orderly) :
    Yields E (tile unit place) t fun _ u => u.Orderly := by
  refine .bind (.draft fun d hd => .ite (fun _ => .bind .failAt) fun _ => ?_)
  refine .bind ((outline_yields unit).mono fun o u ho => ?_)
  obtain ⟨rfl, ho⟩ := ho
  refine .ite (fun _ => .bind .failAt) fun hne => .bind (.draft fun d hd => ?_)
  subst hd
  dsimp only
  split
  · rename_i s b hs
    obtain ⟨hid, hs, hself⟩ := ho.orderly (by simpa using hne) hs
    exact .modifyTiling (ht.push hid hs hself)
  · exact .stop fun i u hu => nomatch hu

end Drafting

end Mosaic
