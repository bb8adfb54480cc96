import Mosaic.Proofs.Conversion.Records
import Mosaic.Proofs.Conversion.Survey

/-!
# Conversion — an analysis identifies only what it must

Every computation of an analysis keeps the records sound (`Surveying.Sound`).  An edge of a cell is
compared with the same edge of walkers that are forced to look alike, and crossing keeps them so;
the walkers of a cell that is examined stay what they are when classes are merged meanwhile, since
what is forced stays forced.
-/

namespace Mosaic.Surveying

variable {α σ κ : Type} (cx : CellComplex α σ κ)

/-- What lies across the edges of the two walkers is settled and has the same canonical form. -/
def AcrossAlike (s : Survey σ κ) (w w' : Walker κ) : Prop :=
  ∃ v v', cx.Crosses s.source w v ∧ cx.Crosses s.source w' v' ∧ SameForm cx s v v'

/-- What lies across edge `j` of the walker has the canonical form of what lies there from the
sample, and of what lies across the edge of the walker a period on; and what lies beyond it has that
of what lies beyond its counterpart in the sample of its class. -/
structure Compared (s : Survey σ κ) (w w' : Walker κ) (period j : Nat) (v : Walker κ) : Prop where
  crosses : cx.Crosses s.source (cx.turned s.source w j) v
  sample : ∃ b, cx.Crosses s.source (cx.turned s.source w' j) b ∧ SameForm cx s v b
  period : ∃ b, cx.Crosses s.source (cx.turned s.source w ((j : Int) + period)) b ∧
    SameForm cx s v b
  beyond : ∃ r : ClassRecord κ, s.classes[cx.classOf s.source v.cell]? = some r ∧
    AcrossAlike cx s v (cx.turned s.source ⟨r.sample, v.spin⟩ (-(r.shift : Int)))

/-- The complex has been walked on from its first cell, and what the records say is forced. -/
structure Sound (s₀ : σ) (s : Survey σ κ) : Prop where
  reachable : cx.Reachable s₀ s.source
  records : cx.RecordsSound s₀ s.source s.classes

/-- Of two walkers that are forced to look alike, what lies across their edges has been compared on
the way from `s` to `t`. -/
structure Comparison (s₀ : σ) (s t : Survey σ κ) (w w' v v' : Walker κ) : Prop where
  sound : Sound cx s₀ t
  advances : Advances cx s t
  crosses : cx.Crosses t.source w v
  crosses' : cx.Crosses t.source w' v'
  forced : cx.Forced s₀ t.source v v'
  sameForm : t.changes = s.changes → SameForm cx t v v'

variable {cx} {s₀ : σ} {s t u : Survey σ κ} {c : κ} {w w' v v' : Walker κ}

namespace AcrossAlike

variable {w'' : Walker κ}

theorem symm (h : AcrossAlike cx s w w') : AcrossAlike cx s w' w := by
  obtain ⟨v, v', hv, hv', hform⟩ := h
  exact ⟨v', v, hv', hv, hform.symm⟩

theorem trans (h : AcrossAlike cx s w w') (h' : AcrossAlike cx s w' w'') :
    AcrossAlike cx s w w'' := by
  obtain ⟨v, v', hv, hv', hform⟩ := h
  obtain ⟨u, v'', hu, hv'', hform'⟩ := h'
  obtain rfl := hv'.unique hu
  exact ⟨v, v'', hv, hv'', hform.trans hform'⟩

theorem sameForm (h : AcrossAlike cx s w w') {v v' : Walker κ} (hv : cx.Crosses s.source w v)
    (hv' : cx.Crosses s.source w' v') : SameForm cx s v v' := by
  obtain ⟨u, u', hu, hu', hform⟩ := h
  obtain rfl := hv.unique hu
  obtain rfl := hv'.unique hu'
  exact hform

theorem advance (hcx : cx.Lawful s₀) (hs : cx.Reachable s₀ s.source) (hst : Advances cx s t)
    (hchanges : t.changes = s.changes) (h : AcrossAlike cx s w w') : AcrossAlike cx t w w' := by
  obtain ⟨v, v', hv, hv', hform⟩ := h
  exact ⟨v, v', hv.later hcx hs hst.later, hv'.later hcx hs hst.later,
    hform.advance hcx hs hst hchanges hv.2.1.pos hv'.2.1.pos⟩

end AcrossAlike

variable (hcx : cx.Lawful s₀)

include hcx in
/-- What has been compared without a change is still the same later, until a change is counted. -/
theorem Comparison.advance (h : Comparison cx s₀ s t w w' v v') (htu : Advances cx t u)
    (hchanges : u.changes = s.changes) :
    cx.Crosses u.source w v ∧ cx.Crosses u.source w' v' ∧ SameForm cx u v v' := by
  have hst := h.advances.changes
  have htu' := htu.changes
  have hreach := h.sound.reachable
  refine ⟨h.crosses.later hcx hreach htu.later, h.crosses'.later hcx hreach htu.later, ?_⟩
  exact (h.sameForm (by omega)).advance hcx hreach htu (by omega) h.forced.stands.pos
    h.forced.symm.stands.pos

namespace Sound

include hcx

/-- The first cell is reached, and nothing is recorded yet. -/
theorem start (h : onSource cx.start ⟨s₀, ∅, 0⟩ = .ok c t) :
    Sound cx s₀ t ∧ cx.Reached s₀ t.source c := by
  obtain ⟨hstart, hclasses, -⟩ := onSource_ok h
  refine ⟨⟨⟨c, t.source, hstart, .refl _⟩, ?_⟩, .start hcx hstart⟩
  rw [hclasses]
  constructor <;> intro k <;> simp

theorem cross (hs : Sound cx s₀ s) (hw : cx.Stands s.source w) (h : cross cx w s = .ok v t) :
    Sound cx s₀ t ∧ cx.Crosses t.source w v := by
  obtain ⟨hstep, hclasses, -⟩ := cross_ok h
  have hlater := CellComplex.Later.of_step hstep
  refine ⟨⟨hs.reachable.later hlater, ?_⟩, .of_step hcx hs.reachable hw hstep⟩
  rw [hclasses]
  exact hs.records.later hcx hs.reachable hlater

theorem record {r : ClassRecord κ} (hs : Sound cx s₀ s) (hc : cx.Reached s₀ s.source c)
    (h : record cx c s = .ok r t) : Sound cx s₀ t := by
  rcases record_ok h with ⟨-, rfl⟩ | ⟨hnone, rfl, rfl⟩
  · exact hs
  · exact ⟨hs.reachable, hs.records.insert hcx hs.reachable hc hnone⟩

theorem identify {x : Unit} (hs : Sound cx s₀ s) (hforced : cx.Forced s₀ s.source w w')
    (h : identify cx w w' s = .ok x t) : Sound cx s₀ t := by
  obtain ⟨r, r', s₁, s₂, hr, hr', hdegree, ht⟩ := identify_ok h
  obtain ⟨hsource, -⟩ := record_source hr
  obtain ⟨hsource', -⟩ := record_source hr'
  have hs₁ := hs.record hcx hforced.reached hr
  have hs₂ := hs₁.record hcx (hsource ▸ hforced.symm.reached) hr'
  split at ht
  · rename_i classes hclasses
    subst ht
    refine ⟨hs₂.reachable, ?_⟩
    have hsame : s₂.source = s.source := hsource'.trans hsource
    have hk := (record_advances hr').records (record_source hr').2 _ r (record_getElem? hr)
    have hk' := record_getElem? hr'
    rw [hsource] at hk'
    rw [← hsame] at hforced hdegree hk hk'
    exact hs₂.records.identify hcx hs₂.reachable hforced hforced.reached hforced.symm.reached
      hforced.stands hforced.symm.stands hdegree hk hk' hclasses
  · subst ht
    exact hs₂

/-- What lies across the edges of two walkers that are forced to look alike is forced to look alike
too, and so may be identified. -/
theorem compare {x : Unit} (hs : Sound cx s₀ s) (hforced : cx.Forced s₀ s.source w w')
    (hv : cx.Crosses s.source w v) (hv' : Surveying.cross cx w' s = .ok v' t)
    (h : Surveying.identify cx v v' t = .ok x u) : Comparison cx s₀ s u w w' v v' := by
  obtain ⟨ht, hcross'⟩ := hs.cross hcx hforced.symm.stands hv'
  have hst := cross_advances hv'
  have htu := identify_advances h
  have hcross := hv.later hcx hs.reachable hst.later
  have hvv' := (hforced.later hst.later).cross hcx ht.reachable hcross hcross'
  refine ⟨ht.identify hcx hvv' h, hst.trans htu, hcross.later hcx ht.reachable htu.later,
    hcross'.later hcx ht.reachable htu.later, hvv'.later htu.later, fun hchanges => ?_⟩
  exact sameForm_of_identify h (by rw [hchanges, (cross_ok hv').2.2])

/-- A walker looks like its counterpart in the sample. -/
theorem toSample (hs : Sound cx s₀ s) (hw : cx.Reached s₀ s.source w.cell)
    (hstand : cx.Stands s.source w) (h : toSample cx w s = .ok v t) :
    Sound cx s₀ t ∧ cx.Forced s₀ t.source w v := by
  obtain ⟨r, hr, rfl⟩ := toSample_ok h
  obtain ⟨hsource, -⟩ := record_source hr
  have ht := hs.record hcx hw hr
  have hk := record_getElem? hr
  rw [← hsource] at hw hstand hk
  have hlooks := ((ht.records.record _ r hk).looks.of_class hcx ht.reachable hw rfl).2 w.spin
  rw [hstand.eq_walker, sub_eq_add_neg] at hlooks
  exact ⟨ht, hlooks⟩

/-- The cell looks the same when turned by the period of its class. -/
theorem selfLike {r : ClassRecord κ} (hs : Sound cx s₀ s) (hc : cx.Reached s₀ s.source c)
    (hr : s.classes[cx.classOf s.source c]? = some r) :
    cx.SelfLike s₀ s.source c r.period := by
  have hrecord := hs.records.record _ r hr
  exact hrecord.periodic.transfer (hrecord.looks.of_class hcx hs.reachable hc rfl).2

/-- What lies across two edges of one cell that are a period apart. -/
theorem comparePeriod {x : Unit} {r : ClassRecord κ} {s₁ s₂ : Survey σ κ} {j : Int}
    (hs : Sound cx s₀ s) (hw : cx.Reached s₀ s.source w.cell)
    (hv : cx.Crosses s.source (cx.turned s.source w j) v)
    (hr : Surveying.record cx w.cell s = .ok r s₁)
    (hv' : Surveying.cross cx (cx.turned s₁.source w (j + r.period)) s₁ = .ok v' s₂)
    (h : Surveying.identify cx v v' s₂ = .ok x t) :
    Comparison cx s₀ s t (cx.turned s.source w j) (cx.turned s.source w (j + r.period)) v v' := by
  obtain ⟨hsource, hchanges⟩ := record_source hr
  have hs₁ := hs.record hcx hw hr
  rw [← hsource] at hw hv ⊢
  have hself := hs₁.selfLike hcx hw (hsource ▸ record_getElem? hr) (w.spin + j)
  rw [add_assoc] at hself
  have hcomparison := hs₁.compare hcx hself hv hv' h
  exact { hcomparison with
    advances := (record_advances hr).trans hcomparison.advances
    sameForm := fun h => hcomparison.sameForm (h.trans hchanges.symm) }

/-- What lies beyond a neighbour and beyond the counterpart of the neighbour in its sample. -/
theorem compareBeyond {x : Unit} {o p q : Walker κ} {s₁ s₂ s₃ : Survey σ κ} (hs : Sound cx s₀ s)
    (hv : cx.Reached s₀ s.source v.cell) (hstand : cx.Stands s.source v)
    (ho : Surveying.toSample cx v s = .ok o s₁) (hp : Surveying.cross cx v s₁ = .ok p s₂)
    (hq : Surveying.cross cx o s₂ = .ok q s₃) (h : Surveying.identify cx p q s₃ = .ok x t) :
    Sound cx s₀ t ∧ Advances cx s t ∧ (t.changes = s.changes →
      ∃ r : ClassRecord κ, t.classes[cx.classOf t.source v.cell]? = some r ∧
        AcrossAlike cx t v (cx.turned t.source ⟨r.sample, v.spin⟩ (-(r.shift : Int)))) := by
  obtain ⟨hs₁, hforced⟩ := hs.toSample hcx hv hstand ho
  obtain ⟨hs₂, hcross⟩ := hs₁.cross hcx hforced.stands hp
  have hcomparison := hs₂.compare hcx (hforced.later (cross_advances hp).later) hcross hq h
  have hadv₁ := toSample_advances ho
  have hadv := (cross_advances hp).trans hcomparison.advances
  refine ⟨hcomparison.sound, hadv₁.trans hadv, fun hchanges => ?_⟩
  obtain ⟨r, hr, rfl⟩ := toSample_ok ho
  have hsample := (hs₁.records.record _ r (record_getElem? hr)).sample
  have h₀₁ := hadv₁.changes
  have h₁₂ := (cross_advances hp).changes
  have h₂t := hcomparison.advances.changes
  refine ⟨r, ?_, p, q, hcomparison.crosses, ?_, hcomparison.sameForm (by omega)⟩
  · rw [(hcx.later_stable hs.reachable (hadv₁.trans hadv).later hv.pos).2]
    exact hadv.records (by omega) _ r (record_getElem? hr)
  · rw [CellComplex.turned_later (w := ⟨r.sample, v.spin⟩) hcx hs₁.reachable hadv.later hsample.pos]
    exact hcomparison.crosses'

/-- Comparing what lies across an edge of two walkers that are forced to look alike. -/
theorem examineEdge [BEq κ] [Hashable κ] {agenda agenda' : Agenda κ} {j : Nat}
    (hs : Sound cx s₀ s) (hforced : cx.Forced s₀ s.source w w')
    (hdegree : cx.degree s.source w.cell = cx.degree s.source w'.cell)
    (h : examineEdge cx w w' agenda j s = .ok agenda' t) :
    Sound cx s₀ t ∧ ∃ a, cx.Reached s₀ t.source a.cell ∧ agenda' = agenda.add a.cell ∧
      ∀ r : ClassRecord κ, s.classes[cx.classOf s.source w.cell]? = some r →
        t.changes = s.changes → Compared cx t w w' r.period j a := by
  obtain ⟨a, b, r, c, o, p, q, s₁, s₂, s₃, s₄, s₅, s₆, s₇, s₈, s₉, ha, hb, hab, hr, hc, hac, ho, hp,
    hq, hpq, rfl⟩ := examineEdge_ok h
  have hpos := hforced.stands.pos
  have hpos' := hforced.symm.stands.pos
  have hturned := hforced.turned hcx hs.reachable hdegree j
  have hadv₁ := cross_advances ha
  obtain ⟨hs₁, hcross⟩ := hs.cross hcx hturned.stands ha
  rw [CellComplex.turned_later hcx hs.reachable hadv₁.later hpos'] at hb
  have hsample := hs₁.compare hcx (hturned.later hadv₁.later) hcross hb hab
  have hadv₃ := hadv₁.trans hsample.advances
  have hturned₃ (d : Int) : cx.turned s₃.source w d = cx.turned s.source w d :=
    CellComplex.turned_later hcx hs.reachable hadv₃.later hpos d
  have hperiod := hsample.sound.comparePeriod hcx (hforced.later hadv₃.later).reached
    ((hturned₃ j).symm ▸ hsample.crosses) hr hc hac
  rw [hturned₃, hturned₃] at hperiod
  obtain ⟨ht, hadv₆, hbeyond⟩ := hperiod.sound.compareBeyond hcx hperiod.forced.reached
    hperiod.forced.stands ho hp hq hpq
  refine ⟨ht, a, (hperiod.forced.later hadv₆.later).reached, rfl, fun r' hr' hchanges => ?_⟩
  -- Nothing has changed anywhere on the way, and the period is that of the record before.
  have h₀₃ := hadv₃.changes
  have h₀₁ := hadv₁.changes
  have h₁₃ := hsample.advances.changes
  have h₃₆ := hperiod.advances.changes
  have h₆t := hadv₆.changes
  obtain rfl : r = r' := by
    refine record_eq hr ?_
    rw [(hcx.later_stable hs.reachable hadv₃.later hpos).2]
    exact hadv₃.records (by omega) _ r' hr'
  have hadv := hperiod.advances.trans hadv₆
  obtain ⟨hcross, hcross', hsame⟩ := hsample.advance hcx hadv (by omega)
  obtain ⟨-, hcross'', hsame'⟩ := hperiod.advance hcx hadv₆ (by omega)
  have hlater := (hadv₃.trans hadv).later
  rw [← CellComplex.turned_later hcx hs.reachable hlater hpos] at hcross hcross''
  rw [← CellComplex.turned_later hcx hs.reachable hlater hpos'] at hcross'
  exact ⟨hcross, ⟨b, hcross', hsame⟩, ⟨c, hcross'', hsame'⟩, hbeyond (by omega)⟩

end Sound

end Mosaic.Surveying
