import Mosaic.Proofs.Description.Tile

/-!
# Description — directives keep the catalogue orderly

Whatever the order of the directives, each takes an orderly catalogue to an orderly one, or fails.
`Orders` says so of one directive, and `directive_orders` of all of them.
-/

namespace Mosaic.Drafting

variable {α : Type} {t : Tiling α} {E : Tiling α → Prop}

/-- What a directive leaves: an orderly catalogue, also when it asks to inspect it. -/
def Orders (x : Drafting α Unit) : Prop :=
  ∀ t : Tiling α, t.Orderly → Yields Tiling.Orderly x t fun _ u => u.Orderly

/-- A flag changes neither shapes nor sliders. -/
theorem flag_orders (name : String) (place : Nat) : Orders (flag name place : Drafting α Unit) := by
  intro t ht
  unfold flag
  split
  iterate 6 exact .modifyTiling (ht.congr rfl ht.sliders)
  exact .failAt

/-- An option is text, on which no shape depends. -/
theorem optionRound_orders (ht : t.Orderly) :
    Yields E (optionRound ()) t fun _ u => u.Orderly := by
  refine .bind (.read fun s => .bind (.read fun _ => .bind (.modifyTiling ?_)))
  have hu : ({ t with options := t.options.push s } : Tiling α).Orderly :=
    ht.congr rfl ht.sliders
  refine .bind (.read fun more => .ite (fun _ => ?_) fun _ => ?_)
  · exact .bind (.read fun _ => .pure hu)
  · exact .bind (.read fun _ => .pure hu)

theorem options_orders : Orders (options : Drafting α Unit) := by
  intro t ht
  rw [options_eq]
  exact .bind (.read fun _ => .iterate_keeps ht fun _ _ hu => optionRound_orders hu)

/-- Scanning a tree state changes nothing. -/
theorem treeRound_yields (depth : Nat) : Yields E (treeRound depth) t fun _ u => u = t := by
  refine .bind (.read fun c => ?_)
  cases c with
  | none => exact .fail
  | some c => exact .ite (fun _ => .pure rfl) fun _ => .ite (fun _ => .pure rfl) fun _ => .pure rfl

theorem treeScan_yields : Yields E treeScan t fun _ u => u = t := by
  rw [treeScan_eq]
  refine .iterate_keeps rfl fun depth u hu => ?_
  subst hu
  exact treeRound_yields depth

/-- A tree state is an excerpt of the source, on which no shape depends. -/
theorem treeState_orders : Orders (treeState : Drafting α Unit) := by
  intro t ht
  refine .bind (.read fun start => .bind (treeScan_yields.mono ?_))
  rintro _ u rfl
  refine .bind (.read fun source => .bind (.read fun stop => ?_))
  exact .modifyTiling (ht.congr rfl ht.sliders)

variable [Scalar α]

/-- Finding the shape to be marked changes nothing. -/
theorem markedShape_yields (place : Nat) : Yields E (markedShape place) t fun _ u => u = t := by
  refine .bind (.read fun closed => .ite (fun _ => ?_) fun _ => ?_)
  · refine .bind (.draft fun d hd => ?_)
    split
    · exact .failAt
    · exact .pure rfl
  · exact .bind (shapeIndex_yields fun i _ => .bind (.read fun _ => .pure rfl))

/-- Reading an integer at the end of a directive changes nothing. -/
theorem integerThenClose_yields {Q : Int → Tiling α → Prop} (h : ∀ v, Q v t) :
    Yields E integerThenClose t Q :=
  .bind (integer_yields fun v => .bind (.read fun _ => .pure (h v)))

/-! ### Sliders -/

omit [Scalar α] in
/-- When the check answers, there is room for one more slider. -/
theorem checkSliderCount_yields (place : Nat) : Yields E (checkSliderCount place) t fun _ u =>
    u = t ∧ t.sliders.size + t.intSliders.size < maxSliders := by
  refine .bind (.draft fun d hd => ?_)
  subst hd
  exact .ite (fun _ => .failAt) fun hlt => .pure ⟨rfl, Nat.lt_of_not_le hlt⟩

omit [Scalar α] in
/-- The fields of a slider are read without a change, if its values are. -/
theorem sliderFields_yields {β : Type} {value : Drafting α β}
    (hvalue : Yields E value t fun _ u => u = t) :
    Yields E (sliderFields value) t fun _ u => u = t := by
  refine .bind (.read fun name => .bind (.read fun _ => .bind (hvalue.mono ?_)))
  rintro zero u rfl
  refine .bind (.read fun _ => .bind (hvalue.mono ?_))
  rintro min u rfl
  refine .bind (.read fun _ => .bind (hvalue.mono ?_))
  rintro max u rfl
  exact .bind (.read fun _ => .pure rfl)

/-- A slider is added after the check that there is room for it. -/
theorem slider_orders (prior : Option (Tiling α)) (place : Nat) :
    Orders (slider prior place) := by
  intro t ht
  refine .bind ((checkSliderCount_yields place).mono ?_)
  rintro _ u ⟨rfl, hlt⟩
  refine .bind ((sliderFields_yields (real_yields fun _ => rfl)).mono ?_)
  rintro s u rfl
  refine .bind (.draft fun d _ => .bind (.bindVariable (.modifyTiling (ht.congr rfl ?_))))
  rw [Array.size_push, Nat.add_right_comm]
  exact hlt

/-- So is a slider of integers; both kinds count. -/
theorem intSlider_orders (prior : Option (Tiling α)) (place : Nat) :
    Orders (intSlider prior place) := by
  intro t ht
  refine .bind ((checkSliderCount_yields place).mono ?_)
  rintro _ u ⟨rfl, hlt⟩
  refine .bind ((sliderFields_yields (integer_yields fun _ => rfl)).mono ?_)
  rintro s u rfl
  refine .bind (.draft fun d _ => .bind (.bindVariable (.modifyTiling (ht.congr rfl ?_))))
  rw [Array.size_push]
  exact hlt

/-- A variable is bound in the scope, not in the catalogue. -/
theorem letVariable_orders : Orders (letVariable : Drafting α Unit) := by
  intro t ht
  refine .bind (.read fun name => .ite (fun _ => .bind .fail) fun _ => .bind (.read fun _ => ?_))
  exact .bind (realThenClose_yields fun v => .bindVariable ht)

/-! ### Gluings -/

omit [Scalar α] in
/-- Indices in range are those of an edge. -/
theorem has_of_lt {a e : Nat} (mirror : Bool) (ha : a < t.shapes.size)
    (he : e < (t.shape a).size) : t.Has ⟨a, e, mirror⟩ :=
  ⟨t.shape a, Tiling.getElem?_shape ha, he⟩

omit [Scalar α] in
/-- The end of a cycle is checked to be an edge. -/
theorem cycleTarget_yields (place : Nat) (edge shape : Int) :
    Yields E (cycleTarget place edge shape) t fun p u =>
      u = t ∧ ∀ mirror, t.Has ⟨p.1, p.2, mirror⟩ := by
  refine .bind (.draft fun d hd => ?_)
  subst hd
  refine .ite (fun _ => .bind .failAt) fun hshape => ?_
  refine .ite (fun _ => .bind .failAt) fun hedge => .pure ⟨rfl, fun mirror => ?_⟩
  exact has_of_lt (a := shape.toNat) (e := edge.toNat) mirror (by omega) (by omega)

omit [Scalar α] in
theorem primes_yields : Yields E (iterate primeRound 0) t fun _ u => u = t :=
  .iterate_keeps rfl fun _ _ hu =>
    .bind (.read fun _ => .ite (fun _ => .pure hu) fun _ => .pure hu)

/-- Both ways to write the end of a cycle come to an edge. -/
theorem cycleEnd_yields : Yields E (cycleEnd : Drafting α (Nat × Nat)) t fun p u =>
    u = t ∧ ∀ mirror, t.Has ⟨p.1, p.2, mirror⟩ := by
  rw [cycleEnd_eq]
  refine .bind (.read fun place => .bind (integer_yields fun edge => ?_))
  refine .bind (primes_yields.mono ?_)
  rintro primes u rfl
  refine .bind (.read fun named => ?_)
  exact .ite (fun _ => .bind (integer_yields fun shape => cycleTarget_yields place edge shape))
    fun _ => .bind (.pure (cycleTarget_yields place edge primes))

omit [Scalar α] in
/-- The token that opens a cycle changes nothing. -/
theorem cycleOpening_yields {Q : Option Bool → Tiling α → Prop} (h : ∀ mirror, Q mirror t) :
    Yields E cycleOpening t Q := by
  refine .bind (.read fun plain => .ite (fun _ => .pure (h _)) fun _ => ?_)
  refine .bind (.read fun mirrored => .ite (fun _ => .pure (h _)) fun _ => ?_)
  exact .bind (.read fun ended => .ite (fun _ => .pure (h _)) fun _ => .fail)

/-- A cycle glues an edge to itself or to another one, both of which have been checked. -/
theorem cycleRound_orders (ht : t.Orderly) :
    Yields Tiling.Orderly (cycleRound ()) t fun _ u => u.Orderly := by
  refine .bind (cycleOpening_yields ?_)
  intro opening
  cases opening with
  | none => exact .pure ht
  | some mirror =>
      refine .bind (cycleEnd_yields.mono ?_)
      rintro ⟨a, e⟩ v ⟨rfl, hae⟩
      refine .bind (.mono (Q := fun _ w => w = v) ?_ ?_)
      · exact .bind (.read fun closed => .ite (fun _ => .pure rfl) fun _ => .read fun _ => rfl)
      rintro closed w rfl
      extract_lets glue
      have hglue : ∀ p : Nat × Nat, (∀ mirror, w.Has ⟨p.1, p.2, mirror⟩) →
          Yields Tiling.Orderly (glue p) w fun _ v => v.Orderly := by
        rintro ⟨b, f⟩ hbf
        exact .bind (.modifyTiling (.pure (ht.connect mirror (hae mirror) (hbf mirror))))
      refine .ite (fun _ => .bind (.pure (hglue (a, e) hae))) fun _ => ?_
      refine .bind (cycleEnd_yields.mono ?_)
      rintro ⟨b, f⟩ v ⟨rfl, hbf⟩
      refine .bind (.read fun ended => ?_)
      extract_lets finish
      have hfinish : ∀ r, Yields Tiling.Orderly (finish r) v fun _ v => v.Orderly :=
        fun _ => .bind (.pure (hglue (b, f) hbf))
      exact .ite (fun _ => hfinish ()) fun _ => .bind (.read fun _ => hfinish ())

theorem cycles_orders : Orders (cycles : Drafting α Unit) := by
  intro t ht
  rw [cycles_eq]
  refine .bind (.read fun _ => .bind (.mono ?_ fun _ u hu => .read fun _ => hu))
  exact .iterate_keeps ht fun _ u hu => cycleRound_orders hu

/-- A connection glues edges that have been checked. -/
theorem connection_orders : Orders (connection : Drafting α Unit) := by
  intro t ht
  refine .bind (shapeIndex_yields fun a ha => .bind (.read fun _ => ?_))
  refine .bind (edgeIndex_yields fun e he => .bind (.read fun _ => ?_))
  refine .bind (shapeIndex_yields fun b hb => .bind (.read fun _ => ?_))
  refine .bind (edgeIndex_yields fun f hf => .bind (.read fun _ => ?_))
  refine .bind (integerThenClose_yields fun mirror => .modifyTiling ?_)
  exact ht.connect _ (has_of_lt _ ha he) (has_of_lt _ hb hf)

/-- A subline joins vertices that have been checked. -/
theorem subline_orders : Orders (subline : Drafting α Unit) := by
  intro t ht
  refine .bind (shapeIndex_yields fun a ha => .bind (.read fun _ => ?_))
  refine .bind (edgeIndex_yields fun i hi => .bind (.read fun _ => ?_))
  refine .bind (edgeIndex_yields fun j hj => .bind (.read fun _ => .modifyTiling ?_))
  refine ht.modifyShape fun s hs => ⟨rfl, rfl, fun h => { h with sublines := ?_ }, fun h => h⟩
  intro p hp
  rcases Array.mem_push.mp hp with hp | rfl
  · exact h.sublines p hp
  · rw [Tiling.shape_eq hs] at hi hj
    exact ⟨hi, hj⟩

/-- Pairs of vertices are pairs of vertices. -/
theorem vertexPairsAt_lt {space : Space} {d eps : α} {s : Shape α} {p : Nat × Nat}
    (hp : p ∈ vertexPairsAt space d eps s) : p.1 < s.size ∧ p.2 < s.size := by
  obtain ⟨i, hi, hp⟩ := List.mem_flatMap.mp hp
  obtain ⟨j, hj, hp⟩ := List.mem_filterMap.mp hp
  have hi := List.mem_range.mp hi
  have hj := List.mem_range.mp hj
  split_ifs at hp
  · cases hp
    exact ⟨hi, Nat.lt_trans hj hi⟩

/-- Sublines by distance join vertices that there are. -/
theorem sublines_orders : Orders (sublines : Drafting α Unit) := by
  intro t ht
  refine .bind (.draft fun d _ => .bind (real_yields fun x => .bind (.read fun ranged => ?_)))
  extract_lets finish
  have hfinish : ∀ eps, Yields Tiling.Orderly (finish eps) t fun _ u => u.Orderly := by
    intro eps
    refine .bind (.read fun _ => .modifyTiling ?_)
    refine ht.revise (fun i => Array.getElem?_map ..) (fun i s hs => ?_) ht.sliders
    refine ⟨rfl, rfl, fun h => { h with sublines := ?_ }, fun h => h⟩
    intro p hp
    rcases Array.mem_append.mp hp with hp | hp
    · exact h.sublines p hp
    · exact vertexPairsAt_lt (List.mem_toArray.mp hp)
  exact .ite (fun _ => .bind (real_yields fun y => .bind (.pure (hfinish _)))) fun _ =>
    .bind (.pure (hfinish _))

/-- Repeating gluings keeps the lists of a shape as long as they have to be. -/
theorem repeatConnections_orders : Orders (repeatConnections : Drafting α Unit) := by
  intro t ht
  refine .bind (shapeIndex_yields fun a ha => .bind (.read fun _ => ?_))
  refine .bind (.read fun place => .bind (integerThenClose_yields fun count => ?_))
  refine .ite (fun _ => .bind .failAt) fun _ => .bind (.draft fun d hd => ?_)
  subst hd
  dsimp only
  split
  · rename_i r hr
    refine .modifyTiling (ht.modifyShape fun s hs => ?_)
    rw [Tiling.shape_eq hs] at hr
    exact Shape.setRepeat_revises hr (ht.shape s (Array.mem_of_getElem? hs))
  · exact .failAt

/-- Stretches and shears are stored where there is an edge. -/
theorem stretchShear_orders : Orders (stretchShear : Drafting α Unit) := by
  intro t ht
  refine .bind (real_yields fun stretch => .bind (.read fun _ => ?_))
  refine .bind (real_yields fun shear => .bind (.read fun _ => ?_))
  refine .bind (shapeIndex_yields fun a _ => .bind (.read fun _ => ?_))
  refine .bind (edgeIndex_yields fun e _ => .bind (.read fun _ => ?_))
  exact .modifyTiling (ht.setStretchShear a e stretch shear)

/-- An inspection stops with the catalogue as it is. -/
theorem inspection_orders : Orders (inspection : Drafting α Unit) := by
  intro t ht
  refine .bind (shapeIndex_yields fun shape _ => .bind (.read fun _ => ?_))
  refine .bind (.draft fun d hd => ?_)
  exact .stop fun i u hu => by
    cases hu
    exact hd ▸ ht

/-! ### All directives -/

/-- A mark on a shape. -/
theorem mark_orders {mark : Shape α → Shape α} {f : Tiling α → Tiling α} (place : Nat)
    (hmark : ∀ P (s : Shape α), s.Revises P (mark s)) (hshapes : ∀ t, (f t).shapes = t.shapes)
    (hsliders : ∀ t, (f t).sliders = t.sliders) (hint : ∀ t, (f t).intSliders = t.intSliders) :
    Orders (do
      let i ← markedShape place
      modifyTiling fun t => f (t.modifyShape i mark)) := by
  intro t ht
  refine .bind ((markedShape_yields place).mono ?_)
  rintro i u rfl
  have hu := ht.modifyShape (i := i) fun s _ => hmark _ s
  exact .modifyTiling (hu.congr (hshapes _) (by rw [hsliders, hint]; exact hu.sliders))

/-- **Every directive keeps the catalogue orderly**, one case for each name. -/
theorem directive_orders (prior : Option (Tiling α)) (name : String) (place : Nat) :
    Orders (directive prior name place) := by
  intro t ht
  have hline : ∀ P (s : Shape α), s.Revises P { s with line := true } :=
    fun _ _ => ⟨rfl, rfl, fun h => { h with }, fun h => h⟩
  have hgrave : ∀ P (s : Shape α), s.Revises P { s with grave := true } :=
    fun _ _ => ⟨rfl, rfl, fun h => { h with }, fun h => h⟩
  unfold directive
  split
  -- geometry, options and units
  · exact .bind (realThenClose_yields fun k => .modifyTiling (ht.congr rfl ht.sliders))
  · exact options_orders t ht
  · exact .bind (realThenClose_yields fun u => .modifyDraft fun d hd => hd ▸ ht)
  · exact .bind (realThenClose_yields fun u => .modifyDraft fun d hd => hd ▸ ht)
  -- marks on shapes
  · exact mark_orders (f := ({ · with haveLine := true })) place hline (fun _ => rfl)
      (fun _ => rfl) (fun _ => rfl) t ht
  · exact mark_orders (f := ({ · with haveGrave := true })) place hgrave (fun _ => rfl)
      (fun _ => rfl) (fun _ => rfl) t ht
  -- sliders and variables
  · exact slider_orders prior place t ht
  · exact intSlider_orders prior place t ht
  · exact letVariable_orders t ht
  -- tiles
  · exact tile_yields false place ht
  · exact tile_yields true place ht
  -- numbers and texts that no shape depends on
  · exact .bind (scope_yields fun s => .bind (.read fun n => .bind (.read fun _ =>
      .modifyTiling (ht.congr rfl ht.sliders))))
  · exact .bind (realThenClose_yields fun x => .modifyTiling (ht.congr rfl ht.sliders))
  · exact treeState_orders t ht
  · exact .bind (integer_yields fun n => .bind (.modifyTiling (.read fun _ =>
      ht.congr rfl ht.sliders)))
  · exact .bind (integerThenClose_yields fun n => .modifyTiling (ht.congr rfl ht.sliders))
  · exact .bind (integerThenClose_yields fun n => .modifyTiling (ht.congr rfl ht.sliders))
  · exact .bind (realThenClose_yields fun x => .modifyTiling (ht.congr rfl ht.sliders))
  · exact .bind (realThenClose_yields fun x => .modifyTiling (ht.congr rfl ht.sliders))
  -- gluings, lines and whatever else points to edges
  · exact cycles_orders t ht
  · exact connection_orders t ht
  · exact subline_orders t ht
  · exact sublines_orders t ht
  · exact repeatConnections_orders t ht
  · exact inspection_orders t ht
  · exact stretchShear_orders t ht
  · exact .failAt

end Mosaic.Drafting
