import Mosaic.Proofs.Conversion.Quotient
import Mosaic.Proofs.Tiling.Reversal

/-!
# Conversion — the reverse order of classes

The settings may ask for the classes in reverse order.  That is heeded when shapes are emitted, and
only for their numbers (`Surveying.emit_reversed`), for the samples stay where they are whatever has
been walked before (`CellComplex.Steady`).  The analysis of valences does not depend on the order
either, so the converted tiling is the same but for the numbers of its shapes
(`Surveying.convert_reversed`).
-/

namespace Mosaic

/-- Where an item of a list without repetitions is in the list reversed. -/
theorem idxOf?_reverse {β : Type} [BEq β] [LawfulBEq β] {l : List β} {b : β} {i : Nat}
    (hl : l.Nodup) (h : l.idxOf? b = some i) : l.reverse.idxOf? b = some (l.length - 1 - i) := by
  obtain ⟨hi, hb, -⟩ := List.idxOf?_eq_some_iff.mp h
  have hlt : l.length - 1 - i < l.reverse.length := by
    rw [List.length_reverse]
    omega
  have hback : l.length - 1 - (l.length - 1 - i) = i := by omega
  have hb' : l.reverse[l.length - 1 - i] = b := by
    simp only [List.getElem_reverse, hback, hb]
  refine List.idxOf?_eq_some_iff.mpr ⟨hlt, hb', fun j hj hjb => ?_⟩
  rw [← hb', List.getElem_inj (List.pairwise_reverse.mpr (hl.imp Ne.symm))] at hjb
  omega

theorem Shape.renumbered_ofSample {α : Type} [Scalar α] (n id period : Nat) (space : Space)
    (corners : Array (Point α)) (cs : List Connection) :
    (ofSample id space corners cs.toArray period).renumbered n =
      ofSample (n - 1 - id) space corners (cs.map (·.renumbered n)).toArray period := by
  rw [← List.map_toArray]
  rfl

theorem Shape.renumbered_of_isolated {α : Type} {s : Shape α} (hid : s.id = 0)
    (hconnections : s.connections = #[]) : s.renumbered 1 = s := by
  rw [renumbered, hid, hconnections, Array.map_empty]
  cases s
  cases hid
  cases hconnections
  rfl

namespace CellComplex

variable {α σ κ : Type} {cx : CellComplex α σ κ} {s₀ s t : σ} {c : κ}

variable (cx) in
/-- A complex that is lawful if its first cell has edges, and whose cells have their corners where
they are whatever is walked. -/
structure Steady (s₀ : σ) : Prop where
  lawful : (∀ {c s}, cx.start s₀ = .ok c s → 0 < cx.degree s c) → cx.Lawful s₀
  corner_eq : ∀ {s t c}, cx.Reachable s₀ s → cx.Walked s t → 0 < cx.degree s c →
    ∀ k, cx.corner t c k = cx.corner s c k

theorem Steady.corner_later (hcx : cx.Steady s₀) (hlawful : cx.Lawful s₀)
    (hs : cx.Reachable s₀ s) (h : cx.Later s t) (hc : 0 < cx.degree s c) (k : Nat) :
    cx.corner t c k = cx.corner s c k := by
  induction h with
  | refl => rfl
  | tail hst htu ih =>
      have hdegree := (hlawful.later_stable hs hst hc).1
      exact (hcx.corner_eq (hs.later hst) htu (hdegree ▸ hc) k).trans ih

end CellComplex

/-- The atlas of a well-formed tiling: the corners of a tile are those of its shape. -/
theorem Atlas.complex_steady {α : Type} [Scalar α] {t : Tiling α} {m₀ : Atlas α}
    (ht : t.WellFormed) (h₀ : ofTiling t = .ok m₀) : (complex t).Steady m₀ := by
  obtain ⟨htiling, hlinked⟩ := ofTiling_linked h₀
  constructor
  case lawful =>
    intro hpos
    refine complex_lawful ht h₀ ?_
    have hfirst := hpos (c := 0) (s := m₀) rfl
    obtain ⟨first, hshape, rfl⟩ := ofTiling_ok h₀
    rw [Tiling.shape_eq hshape]
    simpa [complex, empty, getElem?_insert] using hfirst
  case corner_eq =>
    intro m m' id hm hwalk hc k
    obtain ⟨_, _, hstart, hm⟩ := hm
    cases hstart
    obtain ⟨hlinked', hgrows⟩ := later_linked (htiling ▸ ht) hlinked hm
    obtain ⟨-, hgrows'⟩ := later_linked (hgrows.tiling.trans htiling ▸ ht) hlinked'
      (Relation.ReflTransGen.single hwalk)
    obtain ⟨n, hn, -⟩ := exists_node_of_degree hc
    obtain ⟨n', hn', hshape, -⟩ := hgrows'.nodes id n hn
    simp only [complex, shapeOf, hn, hn', Option.map_some, Option.getD_some, hshape,
      hgrows'.tiling]

theorem CellTable.complex_steady {α : Type} [Scalar α] {t : CellTable α} (ht : t.WellFormed) :
    t.complex.Steady () :=
  ⟨fun _ => complex_lawful ht, fun _ _ _ _ => rfl⟩

namespace Surveying

variable {α σ κ : Type} {cx : CellComplex α σ κ} {s₀ : σ} {s u : Survey σ κ} {order : List Nat}
  {w : Walker κ} {c c' : Connection} {js : List Nat} {cs cs' : List Connection} {sample : κ}

/-! ### Shapes in either order -/

theorem Glued.reversed (horder : order.Nodup) (h : Glued cx s order w c)
    (h' : Glued cx s order.reverse w c') : c' = c.renumbered order.length := by
  obtain ⟨⟨v, r, hv, hr, hi, hedge⟩, hmirror⟩ := h
  obtain ⟨⟨v', r', hv', hr', hi', hedge'⟩, hmirror'⟩ := h'
  obtain rfl := hv.unique hv'
  obtain rfl : r = r' := Option.some.inj (hr.symm.trans hr')
  have hshape := Option.some.inj (hi'.symm.trans (idxOf?_reverse horder hi))
  obtain ⟨i, e, m⟩ := c
  obtain ⟨i', e', m'⟩ := c'
  simp only [Connection.renumbered, Connection.mk.injEq]
  exact ⟨hshape, hedge'.trans hedge.symm, hmirror'.trans hmirror.symm⟩

theorem Glued.forall_reversed (horder : order.Nodup)
    (h : List.Forall₂ (fun j c => Glued cx s order ⟨sample, j⟩ c) js cs)
    (h' : List.Forall₂ (fun j c => Glued cx s order.reverse ⟨sample, j⟩ c) js cs') :
    cs' = cs.map (·.renumbered order.length) := by
  induction h generalizing cs' with
  | nil =>
      cases h'
      rfl
  | cons hc _ ih =>
      cases h' with
      | cons hc' h' => rw [List.map_cons, hc.reversed horder hc', ih h']

variable [Scalar α] {settings : Settings} {t t' : Tiling α} {u' : Survey σ κ}
  {r : ClassRecord κ} {sh sh' : Shape α} {id : Nat}

variable (cx) in
/-- Shape `id` has the corners of the sample of its class, and the gluings of its edges. -/
def Drawn (s : Survey σ κ) (order : List Nat) (r : ClassRecord κ) (id : Nat) (sh : Shape α) :
    Prop :=
  ∃ cs : List Connection, List.Forall₂ (fun j c => Glued cx s order ⟨r.sample, j⟩ c)
      (List.range (cx.degree s.source r.sample)) cs ∧
    sh = Shape.ofSample id cx.geometry.space ((List.range (cx.degree s.source r.sample)).map
      (cx.corner s.source r.sample)).toArray cs.toArray r.period

/-- A shape that is drawn in either order differs in its number and those of its neighbours. -/
theorem Drawn.reversed (horder : order.Nodup) (h : Drawn cx s order r id sh)
    (h' : Drawn cx s order.reverse r (order.length - 1 - id) sh') :
    sh' = sh.renumbered order.length := by
  obtain ⟨cs, hcs, rfl⟩ := h
  obtain ⟨cs', hcs', rfl⟩ := h'
  rw [Glued.forall_reversed horder hcs hcs', Shape.renumbered_ofSample]

/-- A tiling is known by its shapes once it is known how it is emitted. -/
theorem emit_eq (h : emit cx settings s = .ok t u) :
    t = { (Tiling.empty : Tiling α) with
      name := "converted"
      comment := "converted from: " ++ cx.geometry.title
      geometry := cx.geometry
      shapes := t.shapes
      affineLimit := settings.affineLimit } := by
  obtain ⟨shapes, -, rfl⟩ := exists_shapes_of_emit h
  rfl

section Emit

variable (hcx : cx.Steady s₀) (hlawful : cx.Lawful s₀) (hreach : cx.Reachable s₀ s.source)
  (hs : Coherent cx s) (hknown : ∀ (k : Nat) (r : ClassRecord κ), s.classes[k]? = some r →
    ∀ j < cx.degree s.source r.sample, Known cx s ⟨r.sample, j⟩)

include hcx hlawful hreach hs hknown

theorem emit_drawn (h : emit cx settings s = .ok t u) :
    t.shapes.size = (s.classes.order settings).length ∧
    ∀ i k, (s.classes.order settings)[i]? = some k → ∃ r : ClassRecord κ,
      s.classes[k]? = some r ∧ Drawn cx s (s.classes.order settings) r i (t.shape i) := by
  obtain ⟨hsize, hshapes⟩ := emit_shapes hlawful hreach hs hknown h
  refine ⟨hsize, fun i k hk => ?_⟩
  obtain ⟨r, hr, -, v, w, hv, hsh⟩ := hshapes i k hk
  obtain ⟨-, cs, hcs, hdrawn⟩ := emitShape_drawn hlawful hreach hs hv hr (hknown k r hr) hsh
  have hcorner : cx.corner v.source r.sample = cx.corner s.source r.sample :=
    funext (hcx.corner_later hlawful hreach hv.1 (hs.sample_pos hr))
  rw [hcorner] at hdrawn
  exact ⟨r, hr, cs, hcs, hdrawn⟩

/-- **What is emitted in reverse order** is the same tiling with its catalogue reversed. -/
theorem emit_reversed (h : emit cx { settings with reverseOrder := false } s = .ok t u)
    (h' : emit cx { settings with reverseOrder := true } s = .ok t' u') : t' = t.reversed := by
  obtain ⟨hsize, hshapes⟩ := emit_drawn hcx hlawful hreach hs hknown h
  obtain ⟨hsize', hshapes'⟩ := emit_drawn hcx hlawful hreach hs hknown h'
  change t.shapes.size = s.classes.masters.length at hsize
  change t'.shapes.size = s.classes.masters.reverse.length at hsize'
  rw [List.length_reverse, ← hsize] at hsize'
  have hshape : t'.shapes = t.reversed.shapes := by
    refine Tiling.shapes_eq_reversed hsize' fun i hi => ?_
    -- The class of shape `i` is that of shape `i` from the end, so both have the same sample.
    have hmaster := List.getElem?_eq_getElem (hsize ▸ hi)
    have hback : s.classes.masters.reverse[t.shapes.size - 1 - i]? =
        some s.classes.masters[i] := by
      rw [List.getElem?_reverse (by omega), ← hmaster]
      congr 1
      omega
    obtain ⟨r, hr, hdrawn⟩ := hshapes i _ hmaster
    obtain ⟨r', hr', hdrawn'⟩ := hshapes' _ _ hback
    obtain rfl : r = r' := Option.some.inj (hr.symm.trans hr')
    rw [hsize] at hdrawn' ⊢
    exact Drawn.reversed Classes.masters_nodup hdrawn hdrawn'
  rw [emit_eq h', hshape, emit_eq h]
  rfl

end Emit

/-! ### A first cell without edges -/

section Isolated

variable {x : κ} {s₁ : σ}

variable (cx) in
/-- What is recorded when the first cell has no edges. -/
def isolated (x : κ) (s₁ : σ) : Survey σ κ :=
  ⟨s₁, (∅ : Classes κ).insert (cx.classOf s₁ x) ⟨cx.classOf s₁ x, 0, 1, x⟩, 0⟩

omit [Scalar α]

theorem masters_isolated (x : κ) (s₁ : σ) :
    (isolated cx x s₁).classes.masters = [cx.classOf s₁ x] := by
  refine List.perm_singleton.mp ((List.perm_ext_iff_of_nodup Classes.masters_nodup
    (List.nodup_singleton _)).mpr fun k => ?_)
  rw [Classes.mem_masters, List.mem_singleton, isolated]
  simp only [Std.TreeMap.getElem?_insert, Std.compare_eq_iff_eq]
  constructor
  · rintro ⟨r, hr, -⟩
    split at hr
    · exact Eq.symm ‹_›
    · simp at hr
  · rintro rfl
    exact ⟨_, if_pos rfl, rfl⟩

/-- The analysis is over after the first cell. -/
theorem analyse_isolated [BEq κ] [Hashable κ] (hstart : cx.start s₀ = .ok x s₁)
    (hx : cx.degree s₁ x = 0) (budget : Nat) :
    analyse cx budget ⟨s₀, ∅, 0⟩ = .ok () (isolated cx x s₁) := by
  have hrecord : record cx x ⟨s₁, ∅, 0⟩ =
      .ok ⟨cx.classOf s₁ x, 0, 1, x⟩ (isolated cx x s₁) := by
    simp [record, isolated, hx, get, getThe, MonadStateOf.get, EStateM.get, set,
      MonadStateOf.set, EStateM.set, bind, EStateM.bind, pure, EStateM.pure]
  have hexamine (a : Agenda κ) :
      examine cx x ⟨cx.classOf s₁ x, 0, 1, x⟩ a (isolated cx x s₁) =
        .ok a (isolated cx x s₁) :=
    bind_ok.mpr ⟨_, _, turn_ok.mpr ⟨rfl, rfl⟩,
      bind_ok.mpr ⟨0, _, degree_ok.mpr ⟨hx.symm, rfl⟩, rfl⟩⟩
  have hstep : passStep cx ⟨0, Std.HashSet.emptyWithCapacity, .ofCell x, budget⟩ ⟨s₁, ∅, 0⟩ =
      .ok (.inl ⟨1, Std.HashSet.emptyWithCapacity.insert (cx.classOf s₁ x), .ofCell x, budget⟩)
        (isolated cx x s₁) :=
    passStep_of_fresh rfl hrecord (by simp) (hexamine _)
  refine bind_ok.mpr ⟨x, ⟨s₁, ∅, 0⟩, by simp only [onSource, hstart], ?_⟩
  refine descend_of_inr (round_ok.mpr ⟨(.ofCell x, budget), ?_, rfl⟩)
  unfold pass
  rw [descend_of_inl hstep, descend_of_inr (passStep_of_ended rfl)]
  simp [Below, Std.HashSet.size_insert]

/-- The cell is emitted as a single shape, whatever the order. -/
theorem emit_isolated [Scalar α] {t : Tiling α} (hx : cx.degree s₁ x = 0)
    (h : emit cx settings (isolated cx x s₁) = .ok t u) :
    t.shapes = #[Shape.ofSample 0 cx.geometry.space #[] #[] 1] := by
  obtain ⟨shapes, hmap, rfl⟩ := exists_shapes_of_emit h
  simp only [Classes.order, masters_isolated, List.reverse_singleton, ite_self,
    List.zipIdx_singleton, List.mapM_cons, List.mapM_nil] at hmap
  obtain ⟨sh, u₁, hsh, hmap⟩ := bind_ok.mp hmap
  obtain ⟨rest, u₂, hrest, hmap⟩ := bind_ok.mp hmap
  obtain ⟨rfl, rfl⟩ := pure_ok.mp hrest
  obtain ⟨rfl, rfl⟩ := pure_ok.mp hmap
  have hr : (isolated cx x s₁).classes[cx.classOf s₁ x]? = some ⟨cx.classOf s₁ x, 0, 1, x⟩ :=
    Std.TreeMap.getElem?_insert_self
  have hx' : cx.degree (isolated cx x s₁).source x = 0 := hx
  unfold emitShape at hsh
  obtain ⟨_, _, hget, hsh⟩ := bind_ok.mp hsh
  cases hget
  simp only [hr, hx', List.range_zero, List.map_nil, List.mapM_nil] at hsh
  obtain ⟨_, _, hnil, hsh⟩ := bind_ok.mp hsh
  obtain ⟨rfl, rfl⟩ := pure_ok.mp hnil
  obtain ⟨rfl, -⟩ := pure_ok.mp hsh
  rfl

end Isolated

/-! ### The conversion -/

/-- The shapes that are emitted are numbered in their order. -/
theorem Depicts.id_lt (ht : Depicts cx s order t) : ∀ sh ∈ t.shapes, sh.id < t.shapes.size := by
  intro sh hsh
  obtain ⟨i, r, rfl, hr⟩ := ht.exists_of_mem hsh
  obtain ⟨hi, -⟩ := List.idxOf?_eq_some_iff.mp hr.index
  rw [hr.emitted.id, ht.size]
  exact hi

theorem Depicts.angles_size (ht : Depicts cx s order t) :
    ∀ sh ∈ t.shapes, sh.angles.size = sh.size := by
  intro sh hsh
  obtain ⟨i, r, rfl, hr⟩ := ht.exists_of_mem hsh
  exact hr.emitted.angles_size

section Convert

variable [BEq κ] [Hashable κ] {v v' : σ}

/-- Where cells have edges, the tiling of one order is analysed with its catalogue reversed. -/
theorem convert_reversed_of_lawful [LawfulBEq κ] [LawfulHashable κ] [PlainSums α]
    (hcx : cx.Steady s₀) (hlawful : cx.Lawful s₀) (hinv : cx.Involutive s₀)
    (h : cx.convert { settings with minimise := false, reverseOrder := false } s₀ = .ok t v)
    (h' : cx.convert { settings with minimise := false, reverseOrder := true } s₀ = .ok t' v') :
    t'.shapes = t.reversed.shapes ∧ t'.minValence = t.minValence ∧
      t'.maxValence = t.maxValence := by
  obtain ⟨s, w, t₀, hanalysis, hemit, hvalence⟩ := convert_ok rfl h
  obtain ⟨s', w', t₀', hanalysis', hemit', hvalence'⟩ := convert_ok rfl h'
  -- The order is not read by the analysis.
  obtain ⟨-, rfl⟩ := EStateM.Result.ok.inj (hanalysis.symm.trans hanalysis')
  obtain ⟨x, s₁, a, hlast⟩ := analyse_ok hanalysis
  have hsettled := hlast.settled hlawful hinv
  have hs := Rooted.analyse hlawful hanalysis
  have hknown (k : Nat) (r : ClassRecord κ) (hr : s.classes[k]? = some r) (j : Nat)
      (hj : j < cx.degree s.source r.sample) : Known cx s ⟨r.sample, j⟩ :=
    hsettled.known hlawful hr hj
  have ht := emit_depicts hlawful hs.reachable hs.toCoherent hknown hemit
  obtain rfl := emit_reversed hcx hlawful hs.reachable hs.toCoherent hknown hemit hemit'
  exact Tiling.analyseValence_reversed (ht.wellFormed hs.toCoherent) ht.id_lt ht.angles_size
    (fun i hi => (ht.uniform hs.toCoherent).stride_pos hi) hvalence hvalence'

/-- A single shape without edges is the first one in either order. -/
theorem convert_reversed_of_isolated {x : κ} {s₁ : σ} (hstart : cx.start s₀ = .ok x s₁)
    (hx : cx.degree s₁ x = 0)
    (h : cx.convert { settings with minimise := false, reverseOrder := false } s₀ = .ok t v)
    (h' : cx.convert { settings with minimise := false, reverseOrder := true } s₀ = .ok t' v') :
    t'.shapes = t.reversed.shapes ∧ t'.minValence = t.minValence ∧
      t'.maxValence = t.maxValence := by
  obtain ⟨s, w, t₀, hanalysis, hemit, hvalence⟩ := convert_ok rfl h
  obtain ⟨s', w', t₀', hanalysis', hemit', hvalence'⟩ := convert_ok rfl h'
  obtain ⟨-, rfl⟩ := EStateM.Result.ok.inj ((analyse_isolated hstart hx _).symm.trans hanalysis)
  obtain ⟨-, rfl⟩ := EStateM.Result.ok.inj ((analyse_isolated hstart hx _).symm.trans hanalysis')
  have hshapes := emit_isolated hx hemit
  obtain rfl : t₀ = t₀' := by
    rw [emit_eq hemit, emit_eq hemit', hshapes, emit_isolated hx hemit']
  obtain ⟨-, rfl⟩ := EStateM.Result.ok.inj (hvalence.symm.trans hvalence')
  refine ⟨?_, rfl, rfl⟩
  have hannotates := Tiling.analyseValence_annotates hvalence
  have hsize : t.shapes.size = 1 := by
    rw [hannotates.size_eq, hshapes]
    rfl
  have hid : (t.shape 0).id = 0 := by
    have hid := congrArg Shape.id (hannotates.bare_shape 0)
    rw [Tiling.shape, Tiling.shape, hshapes] at hid
    exact hid
  have hconnections : (t.shape 0).connections = #[] := by
    have hconnections := congrArg Shape.connections (hannotates.bare_shape 0)
    rw [Tiling.shape, Tiling.shape, hshapes] at hconnections
    exact hconnections
  refine Tiling.shapes_eq_reversed rfl fun i hi => ?_
  obtain rfl : i = 0 := by omega
  rw [hsize, Shape.renumbered_of_isolated hid hconnections]

/-- **The reverse order only renumbers.**  When a conversion without minimisation succeeds in
either order, the two tilings have the same number of shapes; shape `i` of one is shape `i` from the
end of the other, but for its number and those that its gluings name; and the least and the greatest
valence are the same. -/
theorem convert_reversed [LawfulBEq κ] [LawfulHashable κ] [PlainSums α] (hcx : cx.Steady s₀)
    (hinv : cx.Involutive s₀)
    (h : cx.convert { settings with minimise := false, reverseOrder := false } s₀ = .ok t v)
    (h' : cx.convert { settings with minimise := false, reverseOrder := true } s₀ = .ok t' v') :
    t'.shapes.size = t.shapes.size ∧
    (∀ i < t.shapes.size,
      t'.shape (t.shapes.size - 1 - i) = (t.shape i).renumbered t.shapes.size) ∧
    t'.minValence = t.minValence ∧ t'.maxValence = t.maxValence := by
  have hsame : t'.shapes = t.reversed.shapes ∧ t'.minValence = t.minValence ∧
      t'.maxValence = t.maxValence := by
    obtain ⟨s, w, t₀, hanalysis, -⟩ := convert_ok rfl h
    obtain ⟨x, source, hstart, -⟩ := bind_ok.mp hanalysis
    have hstart := (onSource_ok hstart).1
    -- Without edges the first cell is the only one; otherwise the complex is lawful.
    cases Nat.eq_zero_or_pos (cx.degree source.source x) with
    | inl hx => exact convert_reversed_of_isolated hstart hx h h'
    | inr hx =>
        refine convert_reversed_of_lawful hcx (hcx.lawful fun {c s} hstart' => ?_) hinv h h'
        obtain ⟨rfl, rfl⟩ := EStateM.Result.ok.inj (hstart.symm.trans hstart')
        exact hx
  obtain ⟨hshapes, hmin, hmax⟩ := hsame
  refine ⟨hshapes ▸ Tiling.size_reversed t, fun i hi => ?_, hmin, hmax⟩
  rw [Tiling.shape, hshapes]
  exact Tiling.shape_reversed hi

end Convert

/-- Columns of squares between columns of wider rectangles, in either order. -/
theorem convert_reversed_columns :
    let reversing : Settings := { Settings.default with reverseOrder := true }
    let t := plain columns 4
    let t' := left (Tiling.analyseValence (emitted columns.complex reversing ⟨(), twoClasses 4, 0⟩))
    columns.complex.Steady () ∧ columns.complex.Involutive () ∧
    columns.complex.convert Settings.default () = .ok t () ∧
    columns.complex.convert reversing () = .ok t' () ∧
    t.shapes.size = 2 ∧ (t'.shape 0).edges[0]? ≠ (t.shape 0).edges[0]? ∧
    t'.shapes.size = t.shapes.size ∧
    (∀ i < t.shapes.size,
      t'.shape (t.shapes.size - 1 - i) = (t.shape i).renumbered t.shapes.size) ∧
    t'.minValence = t.minValence ∧ t'.maxValence = t.maxValence := by
  intro reversing t t'
  have hcx : columns.complex.Steady () := CellTable.complex_steady (by decide)
  have hinv : columns.complex.Involutive () := CellTable.complex_involutive (by decide)
  obtain ⟨⟨⟩, h⟩ : ∃ v, columns.complex.convert
      { Settings.default with minimise := false, reverseOrder := false } () = .ok t v :=
    convert_of_answer Settings.default (columns_analysis _) rfl (by decide +kernel)
      (by decide +kernel)
  obtain ⟨⟨⟩, h'⟩ : ∃ v, columns.complex.convert reversing () = .ok t' v :=
    convert_of_answer reversing (columns_analysis _) rfl (by decide +kernel) (by decide +kernel)
  exact ⟨hcx, hinv, h, h', by decide +kernel, by decide +kernel, convert_reversed hcx hinv h h'⟩

end Surveying

end Mosaic
