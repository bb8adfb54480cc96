import Mosaic.Conversion.Convert
import Mosaic.Proofs.Conversion.Coherence
import Mosaic.Proofs.Tiling.WellFormed

/-!
# Conversion — what is emitted

The shapes of a converted tiling are the classes that are their own target, and the gluing of an
edge of a shape says where the walker on that edge of the sample gets to (`Surveying.Glued`).  The
samples have been walked around in the analysis, so nothing new is met and no record is added; only
the complex may be walked on (`Surveying.emit_ok`).
-/

namespace Mosaic

namespace Classes

variable {κ : Type} {cs : Classes κ}

theorem mem_masters {k : Nat} : k ∈ cs.masters ↔
    ∃ r : ClassRecord κ, cs[k]? = some r ∧ r.target = k := by
  simp only [masters, List.mem_filterMap, Prod.exists, Std.TreeMap.mem_toList_iff_getElem?_eq_some]
  constructor
  · rintro ⟨k', r, hr, h⟩
    split at h
    · rename_i htarget
      cases h
      exact ⟨r, hr, htarget.symm⟩
    · cases h
  · rintro ⟨r, hr, rfl⟩
    exact ⟨_, r, hr, if_pos rfl⟩

theorem masters_nodup : cs.masters.Nodup := by
  rw [List.Nodup, masters, List.pairwise_filterMap]
  refine Std.TreeMap.distinct_keys_toList.imp fun {x y} hne a ha b hb => ?_
  obtain ⟨-, hx⟩ := Option.ite_none_right_eq_some.mp ha
  obtain ⟨-, hy⟩ := Option.ite_none_right_eq_some.mp hb
  rw [Std.compare_eq_iff_eq] at hne
  cases hx
  cases hy
  exact hne

/-- The classes that become shapes, in their order. -/
def order (cs : Classes κ) (settings : Settings) : List Nat :=
  if settings.reverseOrder then cs.masters.reverse else cs.masters

theorem mem_order {settings : Settings} {k : Nat} : k ∈ cs.order settings ↔
    ∃ r : ClassRecord κ, cs[k]? = some r ∧ r.target = k := by
  rw [← mem_masters, order]
  split
  · exact List.mem_reverse
  · rfl

theorem order_nodup {settings : Settings} : (cs.order settings).Nodup := by
  unfold order
  split
  · exact List.pairwise_reverse.mpr (masters_nodup.imp Ne.symm)
  · exact masters_nodup

end Classes

namespace Surveying

variable {α σ κ : Type} (cx : CellComplex α σ κ)

/-- The gluing of the edge of a walker: what lies across it, seen from the sample of its class. -/
structure Glued (s : Survey σ κ) (order : List Nat) (w : Walker κ) (c : Connection) : Prop where
  across : ∃ (v : Walker κ) (r : ClassRecord κ), cx.Crosses s.source w v ∧
    s.classes[cx.classOf s.source v.cell]? = some r ∧ order.idxOf? r.target = some c.shape ∧
    c.edge = (cx.walker s.source r.sample ((v.spin : Int) - r.shift)).spin
  mirror : c.mirror = false

/-- The shape of the class with a given record. -/
structure Emitted [Scalar α] (s : Survey σ κ) (order : List Nat) (r : ClassRecord κ) (id : Nat)
    (sh : Shape α) : Prop where
  id : sh.id = id
  size : sh.size = cx.degree s.source r.sample
  edges_size : sh.edges.size = sh.size
  angles_size : sh.angles.size = sh.size
  connections_size : sh.connections.size = sh.size
  period : sh.period = r.period
  repeatCount : sh.repeatCount = sh.size / Nat.max r.period 1
  glued : ∀ j < sh.size, Glued cx s order ⟨r.sample, j⟩ (sh.connection j)

/-- The shapes of the tiling are those of the classes listed, which are their own targets. -/
structure Depicts [Scalar α] (s : Survey σ κ) (order : List Nat) (t : Tiling α) : Prop where
  nodup : order.Nodup
  size : t.shapes.size = order.length
  shape : ∀ (i k : Nat), order[i]? = some k → ∃ r : ClassRecord κ, s.classes[k]? = some r ∧
    r.target = k ∧ Emitted cx s order r i (t.shape i)

/-- The complex may have been walked on, but the classes are the same. -/
def Keeps (s u : Survey σ κ) : Prop := cx.Later s.source u.source ∧ u.classes = s.classes

/-- What lies across the edge of the walker is settled, and its class is recorded. -/
def Known (s : Survey σ κ) (w : Walker κ) : Prop :=
  ∃ (v : Walker κ) (r : ClassRecord κ), cx.Crosses s.source w v ∧
    s.classes[cx.classOf s.source v.cell]? = some r

variable {cx} in
/-- A tiling is emitted shape by shape, and nothing else of it depends on the records. -/
theorem exists_shapes_of_emit [Scalar α] {settings : Settings} {s u : Survey σ κ} {t : Tiling α}
    (h : emit cx settings s = .ok t u) : ∃ shapes : List (Shape α),
      (s.classes.order settings).zipIdx.mapM
        (fun x => emitShape cx (s.classes.order settings) x.2 x.1) s = .ok shapes u ∧
      t = { (Tiling.empty : Tiling α) with
        name := "converted"
        comment := "converted from: " ++ cx.geometry.title
        geometry := cx.geometry
        shapes := shapes.toArray
        affineLimit := settings.affineLimit } := by
  unfold emit at h
  obtain ⟨_, _, hget, h⟩ := bind_ok.mp h
  cases hget
  change (List.mapM _ (s.classes.order settings).zipIdx >>= _ :
    Surveying α σ κ (Tiling α)) s = _ at h
  obtain ⟨shapes, u₁, hmap, h⟩ := bind_ok.mp h
  obtain ⟨rfl, rfl⟩ := pure_ok.mp h
  exact ⟨shapes, hmap, rfl⟩

section Emit

variable {cx} {s₀ : σ} {s t u : Survey σ κ} {order : List Nat} {c : Connection} {sample : κ}
  {j : Nat}

/-- A class that is recorded. -/
theorem record_of_getElem? {x : κ} {r r' : ClassRecord κ} (h : record cx x u = .ok r' t)
    (hr : u.classes[cx.classOf u.source x]? = some r) : r' = r ∧ t = u := by
  rcases record_ok h with ⟨hr', rfl⟩ | ⟨hnone, -, -⟩
  · exact ⟨Option.some.inj (hr'.symm.trans hr), rfl⟩
  · rw [hnone] at hr
    cases hr

variable (hcx : cx.Lawful s₀) (hreach : cx.Reachable s₀ s.source) (hs : Coherent cx s)

include hcx hreach hs

theorem emitConnection_ok (hu : Keeps cx s u) (hknown : Known cx s ⟨sample, j⟩)
    (h : emitConnection cx order sample j u = .ok c t) :
    Keeps cx s t ∧ Glued cx s order ⟨sample, j⟩ c := by
  obtain ⟨v, r, hv, hr⟩ := hknown
  unfold emitConnection at h
  obtain ⟨v', u₁, hcross, h₁⟩ := bind_ok.mp h
  obtain ⟨hstep, hclasses, -⟩ := cross_ok hcross
  obtain ⟨u', hstep'⟩ := hv.2.2 u.source hu.1
  obtain rfl : v = v' := by
    obtain ⟨x, i⟩ := v
    obtain ⟨x', i'⟩ := v'
    rw [hstep'] at hstep
    cases hstep
    rfl
  -- The class of what lies across is on record, so neither look-up adds a record.
  have hlater := hu.1.trans (.of_step hstep)
  have hr₁ : u₁.classes[cx.classOf u₁.source v.cell]? = some r := by
    rw [hclasses, hu.2, (hcx.later_stable hreach hlater hv.2.1.pos).2, hr]
  obtain ⟨r', u₂, hrecord, h₂⟩ := bind_ok.mp h₁
  obtain ⟨rfl, rfl⟩ := record_of_getElem? hrecord hr₁
  obtain ⟨w, u₃, hsample, h₃⟩ := bind_ok.mp h₂
  obtain ⟨r'', hrecord', rfl⟩ := toSample_ok hsample
  obtain ⟨rfl, rfl⟩ := record_of_getElem? hrecord' hr₁
  have hpos := hs.sample_pos hr
  cases hi : order.idxOf? r''.target with
  | some i =>
      simp only [hi] at h₃
      obtain ⟨rfl, rfl⟩ := pure_ok.mp h₃
      refine ⟨⟨hlater, hclasses.trans hu.2⟩, ⟨v, r'', hv, hr, hi, ?_⟩, rfl⟩
      rw [CellComplex.turned_later (w := ⟨r''.sample, v.spin⟩) hcx hreach hlater hpos,
        CellComplex.turned, sub_eq_add_neg]
  | none =>
      simp only [hi] at h₃
      cases h₃

variable [Scalar α]

/-- A shape is drawn from the sample of its class, as that stands when it is the shape's turn. -/
theorem emitShape_drawn {id k : Nat} {r : ClassRecord κ} {sh : Shape α} (hu : Keeps cx s u)
    (hr : s.classes[k]? = some r)
    (hknown : ∀ j < cx.degree s.source r.sample, Known cx s ⟨r.sample, j⟩)
    (h : emitShape cx order id k u = .ok sh t) :
    Keeps cx s t ∧ ∃ cs : List Connection,
      List.Forall₂ (fun j c => Glued cx s order ⟨r.sample, j⟩ c)
        (List.range (cx.degree s.source r.sample)) cs ∧
      sh = Shape.ofSample id cx.geometry.space ((List.range (cx.degree s.source r.sample)).map
        (cx.corner u.source r.sample)).toArray cs.toArray r.period := by
  have hdegree : cx.degree u.source r.sample = cx.degree s.source r.sample :=
    (hcx.later_stable hreach hu.1 (hs.sample_pos hr)).1
  unfold emitShape at h
  obtain ⟨_, _, hget, h⟩ := bind_ok.mp h
  cases hget
  rw [hu.2, hr] at h
  simp only at h
  obtain ⟨cs, u₁, hmap, h⟩ := bind_ok.mp h
  obtain ⟨rfl, rfl⟩ := pure_ok.mp h
  rw [hdegree] at hmap ⊢
  obtain ⟨hkeeps, hall⟩ := mapM_ok (P := Keeps cx s)
    (Q := fun j c => Glued cx s order ⟨r.sample, j⟩ c)
    (fun j hj _ _ _ hu hc =>
      emitConnection_ok hcx hreach hs hu (hknown j (List.mem_range.mp hj)) hc)
    hu hmap
  exact ⟨hkeeps, cs, hall, rfl⟩

theorem emitShape_ok {id k : Nat} {r : ClassRecord κ} {sh : Shape α} (hu : Keeps cx s u)
    (hr : s.classes[k]? = some r)
    (hknown : ∀ j < cx.degree s.source r.sample, Known cx s ⟨r.sample, j⟩)
    (h : emitShape cx order id k u = .ok sh t) :
    Keeps cx s t ∧ Emitted cx s order r id sh := by
  obtain ⟨hkeeps, cs, hall, rfl⟩ := emitShape_drawn hcx hreach hs hu hr hknown h
  obtain ⟨hlength, hglued⟩ := List.forall₂_iff_get.mp hall
  rw [List.length_range] at hlength
  refine ⟨hkeeps, ?_⟩
  constructor
  case id => rfl
  case size => simp [Shape.ofSample, Shape.size]
  case edges_size => simp [Shape.ofSample, Shape.size, Polygon.markIdeal]
  case angles_size =>
    simp only [Shape.ofSample, Shape.size]
    split <;> simp
  case connections_size => simp [Shape.ofSample, Shape.size, hlength]
  case period => rfl
  case repeatCount => simp [Shape.ofSample, Shape.size]
  case glued =>
    intro j hj
    have hj : j < cx.degree s.source r.sample := by simpa [Shape.ofSample, Shape.size] using hj
    have hj' : j < cs.length := hlength ▸ hj
    have := hglued j (by rwa [List.length_range]) hj'
    simpa [Shape.ofSample, Shape.connection, hj'] using this

/-- The shapes are emitted one after the other, and only the complex is walked on meanwhile. -/
theorem emit_shapes {settings : Settings} {t : Tiling α} {u : Survey σ κ}
    (hknown : ∀ (k : Nat) (r : ClassRecord κ), s.classes[k]? = some r →
      ∀ j < cx.degree s.source r.sample, Known cx s ⟨r.sample, j⟩)
    (h : emit cx settings s = .ok t u) : t.shapes.size = (s.classes.order settings).length ∧
    ∀ i k, (s.classes.order settings)[i]? = some k → ∃ r : ClassRecord κ,
      s.classes[k]? = some r ∧ r.target = k ∧ ∃ v w, Keeps cx s v ∧
        emitShape cx (s.classes.order settings) i k v = .ok (t.shape i) w := by
  obtain ⟨shapes, hmap, rfl⟩ := exists_shapes_of_emit h
  have hshape : ∀ x ∈ (s.classes.order settings).zipIdx, ∀ u sh u', Keeps cx s u →
      emitShape cx (s.classes.order settings) x.2 x.1 u = .ok sh u' → Keeps cx s u' ∧
        ∃ r : ClassRecord κ, s.classes[x.1]? = some r ∧ r.target = x.1 ∧ ∃ v w, Keeps cx s v ∧
          emitShape cx (s.classes.order settings) x.2 x.1 v = .ok sh w := by
    rintro ⟨k, id⟩ hk u sh u' hu hsh
    obtain ⟨r, hr, htarget⟩ := Classes.mem_order.mp (List.fst_mem_of_mem_zipIdx hk)
    obtain ⟨hkeeps, -⟩ := emitShape_drawn hcx hreach hs hu hr (hknown k r hr) hsh
    exact ⟨hkeeps, r, hr, htarget, u, u', hu, hsh⟩
  obtain ⟨-, hall⟩ := mapM_ok hshape ⟨.refl _, rfl⟩ hmap
  obtain ⟨hlength, hshapes⟩ := List.forall₂_iff_get.mp hall
  rw [List.length_zipIdx] at hlength
  refine ⟨by simp [hlength], fun i k hk => ?_⟩
  obtain ⟨hi, rfl⟩ := List.getElem?_eq_some_iff.mp hk
  have hi' : i < shapes.length := hlength ▸ hi
  have := hshapes i (by rwa [List.length_zipIdx]) hi'
  simpa [Tiling.shape, hi'] using this

/-- **The emitted tiling.**  Its shapes are those of the classes that are their own target. -/
theorem emit_depicts {settings : Settings} {t : Tiling α} {u : Survey σ κ}
    (hknown : ∀ (k : Nat) (r : ClassRecord κ), s.classes[k]? = some r →
      ∀ j < cx.degree s.source r.sample, Known cx s ⟨r.sample, j⟩)
    (h : emit cx settings s = .ok t u) : Depicts cx s (s.classes.order settings) t := by
  obtain ⟨hsize, hshapes⟩ := emit_shapes hcx hreach hs hknown h
  refine ⟨Classes.order_nodup, hsize, fun i k hk => ?_⟩
  obtain ⟨r, hr, htarget, v, w, hv, hsh⟩ := hshapes i k hk
  exact ⟨r, hr, htarget, (emitShape_ok hcx hreach hs hv hr (hknown k r hr) hsh).2⟩

omit hreach hs in
theorem emit_ok {settings : Settings} {t : Tiling α} {u : Survey σ κ} (hs : Sound cx s₀ s)
    (hknown : ∀ (k : Nat) (r : ClassRecord κ), s.classes[k]? = some r →
      ∀ j < cx.degree s.source r.sample, Known cx s ⟨r.sample, j⟩)
    (h : emit cx settings s = .ok t u) : Depicts cx s (s.classes.order settings) t :=
  emit_depicts hcx hs.reachable hs hknown h

end Emit

/-! ### That a tiling is emitted -/

section Total

variable {cx} {s₀ : σ} {s u : Survey σ κ} {order : List Nat} {sample : κ} {j : Nat}
  (hcx : cx.Lawful s₀) (hreach : cx.Reachable s₀ s.source)

include hcx hreach

/-- The edge of a sample is glued to a class that is its own target. -/
theorem emitConnection_total (hu : Keeps cx s u) (hknown : Known cx s ⟨sample, j⟩)
    (horder : ∀ (k : Nat) (r : ClassRecord κ), s.classes[k]? = some r → r.target ∈ order) :
    ∃ c t, emitConnection cx order sample j u = .ok c t ∧ Keeps cx s t := by
  obtain ⟨v, r, hv, hr⟩ := hknown
  obtain ⟨source, hstep⟩ := hv.2.2 u.source hu.1
  have hlater := hu.1.trans (.of_step hstep)
  obtain ⟨i, hi⟩ := Option.isSome_iff_exists.mp (List.isSome_idxOf?.mpr (horder _ r hr))
  have hcross : cross cx ⟨sample, j⟩ u = .ok v { u with source } := by
    refine bind_ok.mpr ⟨(v.cell, v.spin), { u with source }, ?_, rfl⟩
    unfold onSource
    simp only [hstep]
  have hrecord : record cx v.cell { u with source } = .ok r { u with source } := by
    refine record_eq_ok ?_
    rw [hu.2, (hcx.later_stable hreach hlater hv.2.1.pos).2, hr]
  refine ⟨⟨i, (cx.turned source ⟨r.sample, v.spin⟩ (-(r.shift : Int))).spin, false⟩,
    { u with source }, ?_, hlater, hu.2⟩
  refine bind_ok.mpr ⟨v, _, hcross, bind_ok.mpr ⟨r, _, hrecord, bind_ok.mpr ⟨_, _,
    bind_ok.mpr ⟨r, _, hrecord, turn_ok.mpr ⟨rfl, rfl⟩⟩, ?_⟩⟩⟩
  rw [hi]
  rfl

omit hreach in
/-- **A tiling is emitted** when every target is its own target and it is known where the edges of
all samples lead. -/
theorem emit_total [Scalar α] {settings : Settings} (hs : Rooted cx s₀ s)
    (hknown : ∀ (k : Nat) (r : ClassRecord κ), s.classes[k]? = some r →
      ∀ j < cx.degree s.source r.sample, Known cx s ⟨r.sample, j⟩) :
    ∃ t u, emit cx settings s = .ok t u := by
  have horder : ∀ (k : Nat) (r : ClassRecord κ), s.classes[k]? = some r →
      r.target ∈ s.classes.order settings := fun k r hr => by
    obtain ⟨r', hr', htarget, -⟩ := hs.root hr
    exact Classes.mem_order.mpr ⟨r', hr', htarget⟩
  have hshape : ∀ x ∈ (s.classes.order settings).zipIdx, ∀ u, Keeps cx s u →
      ∃ sh u', emitShape cx (s.classes.order settings) x.2 x.1 u = .ok sh u' ∧
        Keeps cx s u' := by
    rintro ⟨k, id⟩ hk u hu
    obtain ⟨r, hr, -⟩ := Classes.mem_order.mp (List.fst_mem_of_mem_zipIdx hk)
    have hdegree : cx.degree u.source r.sample = cx.degree s.source r.sample :=
      (hcx.later_stable hs.reachable hu.1 (hs.sample_pos hr)).1
    obtain ⟨cs, u', hcs, hu'⟩ := mapM_total (l := List.range (cx.degree u.source r.sample))
      (f := emitConnection cx (s.classes.order settings) r.sample) (fun j hj v hv =>
        emitConnection_total hcx hs.reachable hv
          (hknown k r hr j (hdegree ▸ List.mem_range.mp hj)) horder) hu
    have hget : u.classes[k]? = some r := hu.2 ▸ hr
    refine ⟨Shape.ofSample id cx.geometry.space ((List.range (cx.degree u.source r.sample)).map
      (cx.corner u.source r.sample)).toArray cs.toArray r.period, u',
      bind_ok.mpr ⟨u, u, rfl, ?_⟩, hu'⟩
    simp only [hget]
    exact bind_ok.mpr ⟨cs, u', hcs, rfl⟩
  obtain ⟨shapes, u, hshapes, -⟩ := mapM_total hshape (s := s) ⟨.refl _, rfl⟩
  exact ⟨_, u, bind_ok.mpr ⟨s, s, rfl, bind_ok.mpr ⟨shapes, u, hshapes, rfl⟩⟩⟩

end Total

/-! ### The gluings of the tiling -/

section Depicted

variable {cx : CellComplex α σ κ} {s₀ : σ} {s : Survey σ κ} {k : Nat} {r r' : ClassRecord κ}
  {v : Walker κ} {order : List Nat} {t : Tiling α} {i j : Nat}

variable (cx) in
/-- Shape `i` is that of the class with this record. -/
structure IsShape [Scalar α] (s : Survey σ κ) (order : List Nat) (t : Tiling α) (i : Nat)
    (r : ClassRecord κ) : Prop where
  record : s.classes[r.target]? = some r
  index : order.idxOf? r.target = some i
  emitted : Emitted cx s order r i (t.shape i)

variable (cx) in
/-- From edge `j` of shape `i`, a walker on the sample comes to `v`, which is in a cell of the class
with record `r'`. -/
structure Lands (s : Survey σ κ) (order : List Nat) (t : Tiling α) (i j : Nat)
    (r : ClassRecord κ) (v : Walker κ) (r' : ClassRecord κ) : Prop where
  crosses : cx.Crosses s.source (cx.walker s.source r.sample j) v
  record : s.classes[cx.classOf s.source v.cell]? = some r'
  index : order.idxOf? r'.target = some ((t.shape i).connection j).shape
  edge : ((t.shape i).connection j).edge =
    (cx.walker s.source r'.sample ((v.spin : Int) - r'.shift)).spin

theorem Lands.edge_modEq (hs : Coherent cx s) (h : Lands cx s order t i j r v r') :
    (((t.shape i).connection j).edge : Int) ≡ v.spin - r'.shift [ZMOD r'.period] := by
  rw [h.edge]
  exact (CellComplex.walker_spin_modEq (hs.sample_pos h.record) _).of_dvd
    (Int.natCast_dvd_natCast.mpr (hs.period_dvd h.record))

variable [Scalar α]

namespace Depicts

theorem exists_shape (h : Depicts cx s order t) (hi : i < t.shapes.size) :
    ∃ r : ClassRecord κ, IsShape cx s order t i r := by
  have hi' : i < order.length := h.size ▸ hi
  obtain ⟨r, hr, htarget, hemitted⟩ := h.shape i _ (List.getElem?_eq_getElem hi')
  refine ⟨r, htarget ▸ hr, List.idxOf?_eq_some_iff.mpr ⟨hi', htarget.symm, fun j hj hjk => ?_⟩,
    hemitted⟩
  rw [htarget] at hjk
  exact absurd ((List.getElem_inj h.nodup).mp hjk) (Nat.ne_of_lt hj)

/-- The target of a record is the class of a shape, with the same sample and period. -/
theorem of_target (h : Depicts cx s order t) (hs : Coherent cx s) (hr : s.classes[k]? = some r)
    (hi : order.idxOf? r.target = some i) : i < t.shapes.size ∧ ∃ r' : ClassRecord κ,
      IsShape cx s order t i r' ∧ r'.sample = r.sample ∧ r'.period = r.period := by
  obtain ⟨hlt, htarget, -⟩ := List.idxOf?_eq_some_iff.mp hi
  have hlt' : i < t.shapes.size := h.size ▸ hlt
  obtain ⟨r', hr'⟩ := h.exists_shape hlt'
  obtain ⟨_, htarget', -⟩ := List.idxOf?_eq_some_iff.mp hr'.index
  exact ⟨hlt', r', hr', hs.agree hr'.record hr (htarget'.symm.trans htarget)⟩

end Depicts

/-- The gluing of every edge of a shape. -/
theorem IsShape.lands (h : IsShape cx s order t i r) (hj : j < (t.shape i).size) :
    ∃ (v : Walker κ) (r' : ClassRecord κ), Lands cx s order t i j r v r' := by
  obtain ⟨⟨v, r', hv, hr', hindex, hedge⟩, -⟩ := h.emitted.glued j hj
  refine ⟨v, r', ?_, hr', hindex, hedge⟩
  rwa [CellComplex.Stands.eq_walker (w := ⟨r.sample, j⟩) (Nat.lt_of_lt_of_eq hj h.emitted.size)]

/-- The gluing leads to an edge of a shape, which is that of a class with the same sample. -/
theorem Lands.target (hs : Coherent cx s) (ht : Depicts cx s order t)
    (h : Lands cx s order t i j r v r') :
    ((t.shape i).connection j).shape < t.shapes.size ∧
    ((t.shape i).connection j).edge < (t.shape ((t.shape i).connection j).shape).size ∧
    ∃ r'' : ClassRecord κ, IsShape cx s order t ((t.shape i).connection j).shape r'' ∧
      r''.sample = r'.sample ∧ r''.period = r'.period := by
  obtain ⟨hlt, r'', hr'', hsample, hperiod⟩ := ht.of_target hs h.record h.index
  refine ⟨hlt, ?_, r'', hr'', hsample, hperiod⟩
  rw [hr''.emitted.size, h.edge, hsample]
  exact CellComplex.walker_stands (hs.sample_pos h.record) _

/-- The shapes are those of classes. -/
theorem Depicts.exists_of_mem (ht : Depicts cx s order t) {sh : Shape α} (hsh : sh ∈ t.shapes) :
    ∃ (i : Nat) (r : ClassRecord κ), sh = t.shape i ∧ IsShape cx s order t i r := by
  obtain ⟨i, hi⟩ := Array.getElem?_of_mem hsh
  obtain ⟨r, hr⟩ := ht.exists_shape (Array.getElem?_eq_some_iff.mp hi).1
  exact ⟨i, r, (Tiling.shape_eq hi).symm, hr⟩

/-- The gluings of a shape are those of its edges. -/
theorem IsShape.exists_of_mem (h : IsShape cx s order t i r) {c : Connection}
    (hc : c ∈ (t.shape i).connections) : ∃ j < (t.shape i).size, (t.shape i).connection j = c := by
  obtain ⟨j, hj⟩ := Array.getElem?_of_mem hc
  exact ⟨j, h.emitted.connections_size ▸ (Array.getElem?_eq_some_iff.mp hj).1,
    by rw [Shape.connection, hj, Option.getD_some]⟩

theorem Depicts.mirror (ht : Depicts cx s order t) :
    ∀ sh ∈ t.shapes, ∀ c ∈ sh.connections, c.mirror = false := by
  intro sh hsh c hc
  obtain ⟨i, r, rfl, hr⟩ := ht.exists_of_mem hsh
  obtain ⟨j, hj, rfl⟩ := hr.exists_of_mem hc
  exact (hr.emitted.glued j hj).mirror

theorem Depicts.wellFormed (hs : Coherent cx s) (ht : Depicts cx s order t) : t.WellFormed := by
  have htarget : ∀ sh ∈ t.shapes, ∀ c ∈ sh.connections,
      c.shape < t.shapes.size ∧ c.edge < (t.shape c.shape).size := by
    intro sh hsh c hc
    obtain ⟨i, r, rfl, hr⟩ := ht.exists_of_mem hsh
    obtain ⟨j, hj, rfl⟩ := hr.exists_of_mem hc
    obtain ⟨v, r', hlands⟩ := hr.lands hj
    obtain ⟨hshape, hedge, -⟩ := hlands.target hs ht
    exact ⟨hshape, hedge⟩
  constructor
  case edges_size =>
    intro sh hsh
    obtain ⟨i, r, rfl, hr⟩ := ht.exists_of_mem hsh
    exact hr.emitted.edges_size
  case connections_size =>
    intro sh hsh
    obtain ⟨i, r, rfl, hr⟩ := ht.exists_of_mem hsh
    exact hr.emitted.connections_size
  case target_shape => exact fun sh hsh c hc => (htarget sh hsh c hc).1
  case target_edge => exact fun sh hsh c hc => (htarget sh hsh c hc).2

/-- The sizes of the shapes are multiples of the periods. -/
theorem IsShape.stride (hs : Coherent cx s) (h : IsShape cx s order t i r) :
    0 < (t.shape i).period ∧ (t.shape i).period * (t.shape i).repeatCount = (t.shape i).size ∧
      (t.shape i).stride = (t.shape i).period := by
  have hperiod : Nat.max r.period 1 = r.period := Nat.max_eq_left (hs.period_pos h.record)
  have hdvd : r.period ∣ (t.shape i).size := h.emitted.size ▸ hs.period_dvd h.record
  have hpos : 0 < (t.shape i).size := h.emitted.size ▸ hs.sample_pos h.record
  have hcount := h.emitted.repeatCount
  rw [hperiod] at hcount
  have hmul : r.period * (t.shape i).repeatCount = (t.shape i).size := by
    rw [hcount, Nat.mul_div_cancel' hdvd]
  have hcount_pos : 0 < (t.shape i).repeatCount := Nat.pos_of_mul_pos_left (hmul ▸ hpos)
  have hmax : Nat.max (t.shape i).repeatCount 1 = (t.shape i).repeatCount :=
    Nat.max_eq_left hcount_pos
  refine ⟨h.emitted.period ▸ hs.period_pos h.record, h.emitted.period ▸ hmul, ?_⟩
  rw [Shape.stride, hmax, ← hmul, Nat.mul_div_cancel _ hcount_pos,
    h.emitted.period]

end Depicted

end Surveying

end Mosaic
