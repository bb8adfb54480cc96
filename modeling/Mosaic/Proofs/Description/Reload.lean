import Mathlib
import Mosaic.Proofs.Description.Stage
import Mosaic.Proofs.Scalar.Whole
import Mosaic.Proofs.Tiling.Annotation
import Mosaic.Proofs.Tiling.Generation
import Mosaic.Proofs.Workspace.Run

/-!
# Description — reading a description again

A description is read again when its sliders have changed.  The second run follows the first one,
directive by directive, whatever the values of the sliders are: it declares the same sliders, and
gives them the values that they have been changed to.  If nothing has changed, it is an exact copy
of the first one, but for the generation of the tiling (`Tiling.load_faithful`).
-/

namespace Mosaic

variable {α : Type} [Scalar α]

namespace Tiling

variable {source : String} {settings settings' : Settings} {prior : Option (Tiling α)}
  {rules : Tiling α → Except String Unit} {t u : Tiling α}

/-! ### The values of the sliders -/

/-- What is read has the values that the prior tiling gives. -/
theorem read_heeds (h : read source settings prior = .ok t) : t.Heeds prior := by
  obtain ⟨-, desk, hdesk, rfl⟩ := read_ok.mp h
  exact Drafting.heeds_of_start (Drafting.description_grows hdesk)

/-- The last part of a load keeps the sliders. -/
theorem finish_sliders (h : t.finish settings = .ok u) :
    u.sliders = t.sliders ∧ u.intSliders = t.intSliders := by
  have hannotates := finish_annotates h
  rw [hannotates.sliders, hannotates.intSliders]
  unfold cover doubleCover
  dsimp only
  split
  · split <;> exact ⟨rfl, rfl⟩
  · exact ⟨rfl, rfl⟩

/-- The sliders of a tiling with the values of a prior one, which has as many. -/
theorem map_current {β : Type} {xs ys : Array (Slider β)} {value : Nat → β → β}
    (hvalue : ∀ q zero, value q zero = ((ys[q]?).map (·.current)).getD zero)
    (hxs : ∀ {q : Nat} {x : Slider β}, xs[q]? = some x → x.current = value q x.zero)
    (hsize : xs.size = ys.size) : xs.map (·.current) = ys.map (·.current) := by
  refine Array.ext_getElem? fun q => ?_
  rw [Array.getElem?_map, Array.getElem?_map]
  cases hx : xs[q]? with
  | none =>
      rw [Array.getElem?_eq_none_iff, hsize] at hx
      rw [Array.getElem?_eq_none hx]
  | some x =>
      have hq := (Array.getElem?_eq_some_iff.mp hx).1
      rw [Option.map_some, hxs hx, hvalue, Array.getElem?_eq_getElem (hsize ▸ hq)]
      rfl

/-! ### The second run -/

/-- Two runs over one description declare the same sliders. -/
theorem read_sliderNames (h : read source settings prior = .ok t) {prior' : Option (Tiling α)}
    (h' : read source settings' prior' = .ok u) : u.sliderNames = t.sliderNames := by
  obtain ⟨-, desk, hdesk, rfl⟩ := read_ok.mp h
  obtain ⟨-, desk', hdesk', rfl⟩ := read_ok.mp h'
  have hfollows : (Drafting.lockstep (.whole source.toByteArray
      (source.toByteArray.size + desk.offset + 1) (by omega)) False prior prior').Follows Eq
      (Drafting.description prior) (Drafting.description prior') := Drafting.description_follows
  have hanswer := hfollows.answers hdesk ⟨by change desk.offset < _ + 1; omega, False.elim⟩
    (u := Drafting.start settings' prior') ⟨⟨Nat.zero_le _, rfl⟩, rfl, False.elim, False.elim,
      False.elim, False.elim⟩
  change Lockstep.Answers _ _ _ _ (Drafting.description prior' source.toByteArray _) at hanswer
  rw [hdesk'] at hanswer
  cases hanswer with
  | ok _ hlike => exact hlike.2.names

/-- Sliders that are not changed leave a description as it is, but for the generation. -/
theorem read_again (h : read source settings none = .ok t) {p : Tiling α}
    (hsliders : p.sliders = t.sliders) (hint : p.intSliders = t.intSliders) :
    read source settings (some p) = .ok (t.stamped (p.order + 1)) := by
  obtain ⟨hshort, desk, hdesk, rfl⟩ := read_ok.mp h
  have hheeds : desk.draft.tiling.Heeds (some p) := by
    refine ⟨fun {q x} hx => ?_, fun {q x} hx => ?_⟩
    · simp [realValue, hsliders, hx]
    · simp [intValue, hint, hx]
  have hfollows : (Drafting.lockstep (.whole source.toByteArray
      (source.toByteArray.size + desk.offset + 1) (by omega)) True none (some p)).Follows Eq
      (Drafting.description none) (Drafting.description (some p)) := Drafting.description_follows
  have hanswer := hfollows.answers hdesk ⟨by change desk.offset < _ + 1; omega, fun _ => hheeds⟩
    (u := Drafting.start settings (some p)) ⟨⟨Nat.zero_le _, rfl⟩, rfl, fun _ => ⟨_, rfl⟩,
      fun _ => rfl, fun _ => rfl, fun _ _ => rfl⟩
  change Lockstep.Answers _ _ _ _ (Drafting.description (some p) source.toByteArray _) at hanswer
  generalize hrun : Drafting.description (some p) source.toByteArray
    (Drafting.start settings (some p)) = r at hanswer
  cases hanswer with
  | error hne => exact absurd trivial hne
  | @ok _ desk' _ hlike =>
      refine read_ok.mpr ⟨hshort, desk', hrun, ?_⟩
      obtain ⟨order, horder⟩ := hlike.2.tiling trivial
      have hstart : desk'.draft.tiling.order = p.order + 1 :=
        (Drafting.description_grows hrun).order
      rw [horder] at hstart ⊢
      obtain rfl : order = p.order + 1 := hstart
      rfl

/-- **Reading a description again is faithful to its sliders.**  With other values of the sliders it
declares the same sliders, and they have these values.  With the same values, those that it has
been loaded with in the first place, it gives the same tiling of the next generation. -/
theorem load_faithful (h : load source settings prior rules = .ok t) :
    (∀ p settings' rules' u, p.declared = t.declared →
      load source settings' (some p) rules' = .ok u →
        u.sliders.map (·.name) = t.sliders.map (·.name) ∧
        u.intSliders.map (·.name) = t.intSliders.map (·.name) ∧
        u.sliders.map (·.current) = p.sliders.map (·.current) ∧
        u.intSliders.map (·.current) = p.intSliders.map (·.current)) ∧
    (prior = none → ∀ rules', rules' { t with order := t.order + 1 } = .ok () →
      load source settings (some t) rules' = .ok { t with order := t.order + 1 }) := by
  obtain ⟨d, hd, hfinish, -⟩ := load_ok.mp h
  obtain ⟨hsliders, hint⟩ := finish_sliders hfinish
  refine ⟨fun p settings' rules' u hp hu => ?_, fun hprior rules' hrules => ?_⟩
  · obtain ⟨e, he, hfinish', -⟩ := load_ok.mp hu
    obtain ⟨hsliders', hint'⟩ := finish_sliders hfinish'
    obtain ⟨hnames, hintNames⟩ := Prod.mk.inj (read_sliderNames hd he)
    have hheeds := read_heeds he
    have hsize : e.sliders.size = p.sliders.size := by
      have hdeclared := congrArg (fun t : Tiling α => t.sliders.size) hp
      have hsame := congrArg Array.size hnames
      simp only [declared, Array.size_map] at hdeclared hsame
      rw [hdeclared, hsliders, hsame]
    have hintSize : e.intSliders.size = p.intSliders.size := by
      have hdeclared := congrArg (fun t : Tiling α => t.intSliders.size) hp
      have hsame := congrArg Array.size hintNames
      simp only [declared, Array.size_map] at hdeclared hsame
      rw [hdeclared, hint, hsame]
    rw [hsliders', hint', hsliders, hint]
    exact ⟨hnames, hintNames, map_current (fun _ _ => rfl) hheeds.sliders hsize,
      map_current (fun _ _ => rfl) hheeds.intSliders hintSize⟩
  · subst hprior
    refine load_ok.mpr ⟨_, read_again hd hsliders hint, finish_stamped _ d hfinish, fun htree => ?_⟩
    exact hrules

/-- The tiling with all sliders set to `x`. -/
def adjusted (x : α) (t : Tiling α) : Tiling α :=
  { t with sliders := t.sliders.map ({ · with current := x }) }

omit [Scalar α] in
theorem declared_adjusted (x : α) (t : Tiling α) : (t.adjusted x).declared = t.declared := by
  simp only [declared, adjusted, Array.map_map]
  rfl

/-! ### A description with a slider -/

open Drafting

/-- A slider, and a square. -/
def slidable : String := "slider(w,1,0,2)e2.tile(1,355/226,*4)"

/-- The desk behind the slider. -/
def slid (prior : Option (Tiling Whole)) : Desk Whole :=
  ⟨15, withSlider prior ⟨"w", 1, 1, 0, 2⟩ (unitsBound (start .default prior).draft)⟩

set_option maxRecDepth 10000 in
theorem slid_round (prior : Option (Tiling Whole)) :
    round prior () slidable.toByteArray (start .default prior) = .ok (.inl ()) (slid prior) := by
  have hgap : gap slidable.toByteArray (start .default prior : Desk Whole).offset = 0 := by cbv
  have hbyte : slidable.toByteArray[0]? = some 115 := by cbv
  have hfields : sliderFields (real : Drafting Whole Whole) slidable.toByteArray
      ⟨7, unitsBound (start .default prior).draft⟩ =
        .ok ⟨"w", 1, 1, 0, 2⟩ ⟨15, unitsBound (start .default prior).draft⟩ := by
    have hname : Reader.identifier slidable.toByteArray 7 = .ok "w" 8 := by cbv
    refine (ofReader_bind hname).trans ?_
    cbv
  rw [round_apply, hgap, if_neg (by cbv), entry_apply, if_neg (by rw [hbyte]; decide),
    command_of_call (n := "slider") (i := 6) (j := 6) (k := 7) (by cbv) rfl (by cbv) (by cbv)]
  exact bind_ok.mpr ⟨(), slid prior, slider_apply (by cbv) hfields, rfl⟩

set_option maxRecDepth 10000 in
theorem slidable_loads (prior : Option (Tiling Whole)) : ∃ t,
    load slidable .default prior (fun _ => .ok ()) = .ok t ∧ t.sliders.size = 1 := by
  have hgoes : description prior slidable.toByteArray (start .default prior) =
      description prior slidable.toByteArray (slid prior) :=
    descend_of_inl (slid_round prior) (Or.inl (by cbv))
  have hloads : accepts (fun _ s => (s.draft.tiling.finish .default).toOption.any
      (·.sliders.size == 1)) (description prior slidable.toByteArray (slid prior)) = true := by cbv
  obtain ⟨_, s, hs, hfinish⟩ := accepts_iff.mp hloads
  obtain ⟨t, ht, hsize⟩ := toOption_any_iff.mp hfinish
  refine ⟨t, load_ok.mpr ⟨_, read_ok.mpr ⟨?_, s, hgoes.trans hs, rfl⟩, ht, fun _ => rfl⟩,
    beq_iff_eq.mp hsize⟩
  cbv

/-- The slider is set from 1 to 2, or left alone. -/
theorem slidable_faithful : ∃ t u : Tiling Whole,
    load slidable .default none (fun _ => .ok ()) = .ok t ∧
    load slidable .default (some (t.adjusted 2)) (fun _ => .ok ()) = .ok u ∧
    u.sliders.map (·.current) = #[2] ∧
    load slidable .default (some t) (fun _ => .ok ()) = .ok { t with order := t.order + 1 } := by
  obtain ⟨t, ht, hsize⟩ := slidable_loads none
  obtain ⟨u, hu, -⟩ := slidable_loads (some (t.adjusted 2))
  obtain ⟨hchanged, hagain⟩ := load_faithful ht
  refine ⟨t, u, ht, hu, ?_, hagain rfl _ rfl⟩
  rw [(hchanged _ _ _ u (declared_adjusted 2 t) hu).2.2.1]
  obtain ⟨x, hx⟩ := Array.size_eq_one_iff.mp hsize
  simp [adjusted, hx]

end Tiling

end Mosaic
