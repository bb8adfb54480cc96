import Mosaic.Proofs.Description.Orderly
import Mosaic.Proofs.Shape.Apeirogon

/-!
# Description — how a draft grows

Directives add sliders and shapes to the draft (`Tiling.Grows`).  The sliders that are there stay as
they are, and a new one has the value that the prior tiling gives it by its number
(`Tiling.Heeds`).  The shapes that are there keep their boundary.  A new apeirogon ends at infinity;
only in a combinatorial tiling it is a placeholder, and a tiling stays combinatorial once it is.
-/

namespace Mosaic

variable {α β : Type}

/-- The sliders `ys` are the sliders `xs` and further ones, which have the values that `value` gives
them. -/
structure Slider.Extends (value : Nat → β → β) (xs ys : Array (Slider β)) : Prop where
  kept : ∀ {q : Nat} {x : Slider β}, xs[q]? = some x → ys[q]? = some x
  added : ∀ {q : Nat} {y : Slider β}, xs.size ≤ q → ys[q]? = some y → y.current = value q y.zero

namespace Slider.Extends

variable {value : Nat → β → β} {xs ys zs : Array (Slider β)}

theorem refl (xs : Array (Slider β)) : Slider.Extends value xs xs where
  kept h := h
  added hq h := by
    rw [Array.getElem?_eq_none hq] at h
    cases h

theorem trans (h : Slider.Extends value xs ys) (h' : Slider.Extends value ys zs) :
    Slider.Extends value xs zs where
  kept hx := h'.kept (h.kept hx)
  added {q z} hq hz := by
    cases hy : ys[q]? with
    | none => exact h'.added (Array.getElem?_eq_none_iff.mp hy) hz
    | some y =>
        obtain rfl : y = z := Option.some.inj ((h'.kept hy).symm.trans hz)
        exact h.added hq hy

/-- A slider with the value that its prior tiling gives it. -/
theorem push {y : Slider β} (hy : y.current = value xs.size y.zero) :
    Slider.Extends value xs (xs.push y) where
  kept {q x} hx := by
    have hq := (Array.getElem?_eq_some_iff.mp hx).1
    rw [Array.getElem?_push, if_neg (by omega), hx]
  added {q z} hq hz := by
    rw [Array.getElem?_push] at hz
    split at hz
    · rename_i hsize
      cases hz
      rw [hy, hsize]
    · rw [Array.getElem?_eq_none hq] at hz
      cases hz

end Slider.Extends

/-! ### Shapes -/

namespace Shape

/-- Gluing an edge leaves the boundary of the shape as it is. -/
theorem glue_sameBoundary (s : Shape α) (e : Nat) (c : Connection) :
    s.SameBoundary (s.glue e c) := by
  rw [glue]
  split
  · exact .refl s
  · exact { SameBoundary.refl s with connections_size := size_foldl_set _ _ }

/-- A repetition leaves the boundary of the shape as it is. -/
theorem setRepeat_sameBoundary {s r : Shape α} {count : Nat} (h : s.setRepeat count = some r) :
    s.SameBoundary r := by
  rw [setRepeat] at h
  split at h
  · cases h
  · cases h
    exact { SameBoundary.refl s with connections_size := Array.size_mapIdx }

end Shape

/-! ### Drafts -/

namespace Tiling

/-- The value of slider `q` that is declared with the value `zero`: the one that `prior` gives it,
if there is one. -/
def realValue (prior : Option (Tiling α)) (q : Nat) (zero : α) : α :=
  ((prior.bind (·.sliders[q]?)).map (·.current)).getD zero

/-- The same of a slider for integers. -/
def intValue (prior : Option (Tiling α)) (q : Nat) (zero : Int) : Int :=
  ((prior.bind (·.intSliders[q]?)).map (·.current)).getD zero

/-- All sliders have the values that `prior` gives them. -/
structure Heeds (prior : Option (Tiling α)) (t : Tiling α) : Prop where
  sliders : ∀ {q : Nat} {x : Slider α}, t.sliders[q]? = some x →
    x.current = realValue prior q x.zero
  intSliders : ∀ {q : Nat} {x : Slider Int}, t.intSliders[q]? = some x →
    x.current = intValue prior q x.zero

variable [Scalar α]

/-- The tiling `u` has come out of the tiling `t` by adding to it. -/
structure Grows (prior : Option (Tiling α)) (t u : Tiling α) : Prop where
  order : u.order = t.order
  sliders : Slider.Extends (realValue prior) t.sliders u.sliders
  intSliders : Slider.Extends (intValue prior) t.intSliders u.intSliders
  combinatorial : t.isCombinatorial = true → u.isCombinatorial = true
  kept : ∀ {i : Nat} {s : Shape α}, t.shapes[i]? = some s →
    ∃ r, u.shapes[i]? = some r ∧ s.SameBoundary r
  ends : ∀ {i : Nat} {r : Shape α}, t.shapes.size ≤ i → u.shapes[i]? = some r →
    u.isCombinatorial = false → r.apeirogonal = true → ∃ n, r.EndsAtInfinity n
  placeholders : ∀ {i : Nat} {r : Shape α}, t.shapes.size ≤ i → u.shapes[i]? = some r →
    t.isCombinatorial = true → r.IsPlaceholder

variable {prior : Option (Tiling α)} {t u v : Tiling α}

/-- Sliders that are there from an earlier point on have the values that they have later. -/
theorem Heeds.of_grows (h : u.Heeds prior) {prior' : Option (Tiling α)} (hg : t.Grows prior' u) :
    t.Heeds prior where
  sliders hx := h.sliders (hg.sliders.kept hx)
  intSliders hx := h.intSliders (hg.intSliders.kept hx)

namespace Grows

/-- Whatever changes neither the sliders nor the shapes. -/
theorem congr (horder : u.order = t.order) (hsliders : u.sliders = t.sliders)
    (hint : u.intSliders = t.intSliders) (hshapes : u.shapes = t.shapes)
    (hcombinatorial : t.isCombinatorial = true → u.isCombinatorial = true) : t.Grows prior u where
  order := horder
  sliders := hsliders ▸ .refl _
  intSliders := hint ▸ .refl _
  combinatorial := hcombinatorial
  kept {_ s} hs := ⟨s, hshapes ▸ hs, .refl s⟩
  ends hi hr _ _ := by
    rw [hshapes, Array.getElem?_eq_none hi] at hr
    cases hr
  placeholders hi hr _ := by
    rw [hshapes, Array.getElem?_eq_none hi] at hr
    cases hr

theorem refl (t : Tiling α) : t.Grows prior t := congr rfl rfl rfl rfl id

theorem trans (h : t.Grows prior u) (h' : u.Grows prior v) : t.Grows prior v where
  order := h'.order.trans h.order
  sliders := h.sliders.trans h'.sliders
  intSliders := h.intSliders.trans h'.intSliders
  combinatorial hc := h'.combinatorial (h.combinatorial hc)
  kept hs := by
    obtain ⟨r, hr, hsr⟩ := h.kept hs
    obtain ⟨q, hq, hrq⟩ := h'.kept hr
    exact ⟨q, hq, hsr.trans hrq⟩
  -- a shape that is new in `v` is new since `t` or since `u`
  ends {i r} hi hr hc hap := by
    cases hs : u.shapes[i]? with
    | none => exact h'.ends (Array.getElem?_eq_none_iff.mp hs) hr hc hap
    | some s =>
        obtain ⟨r', hr', hsr⟩ := h'.kept hs
        obtain rfl : r' = r := Option.some.inj (hr'.symm.trans hr)
        have hcu : u.isCombinatorial = false := by
          cases hcu : u.isCombinatorial with
          | false => rfl
          | true => exact absurd ((h'.combinatorial hcu).symm.trans hc) (nomatch ·)
        obtain ⟨n, hn⟩ := h.ends hi hs hcu (hsr.apeirogonal.symm.trans hap)
        exact ⟨n, hn.of_sameBoundary hsr⟩
  placeholders {i r} hi hr hc := by
    cases hs : u.shapes[i]? with
    | none =>
        exact h'.placeholders (Array.getElem?_eq_none_iff.mp hs) hr (h.combinatorial hc)
    | some s =>
        obtain ⟨r', hr', hsr⟩ := h'.kept hs
        obtain rfl : r' = r := Option.some.inj (hr'.symm.trans hr)
        exact (h.placeholders hi hs hc).of_sameBoundary hsr

/-- Whatever revises shapes without changing their boundaries. -/
theorem revise {g : Nat → Shape α → Shape α} (horder : u.order = t.order)
    (hsliders : u.sliders = t.sliders) (hint : u.intSliders = t.intSliders)
    (hcombinatorial : t.isCombinatorial = true → u.isCombinatorial = true)
    (hshapes : ∀ i : Nat, u.shapes[i]? = (t.shapes[i]?).map (g i))
    (hg : ∀ (i : Nat) (s : Shape α), t.shapes[i]? = some s → s.SameBoundary (g i s)) :
    t.Grows prior u where
  order := horder
  sliders := hsliders ▸ .refl _
  intSliders := hint ▸ .refl _
  combinatorial := hcombinatorial
  kept {i s} hs := ⟨g i s, by rw [hshapes, hs, Option.map_some], hg i s hs⟩
  ends hi hr _ _ := by
    rw [hshapes, Array.getElem?_eq_none hi] at hr
    cases hr
  placeholders hi hr _ := by
    rw [hshapes, Array.getElem?_eq_none hi] at hr
    cases hr

/-- A change that leaves the boundary of a shape as it is. -/
theorem modifyShape {a : Nat} {f : Shape α → Shape α}
    (hf : ∀ s, t.shapes[a]? = some s → s.SameBoundary (f s)) :
    t.Grows prior (t.modifyShape a f) := by
  refine revise rfl rfl rfl id (t.getElem?_modifyShape a f) fun i s hs => ?_
  split
  · rename_i hia
    exact hf s (hia ▸ hs)
  · exact .refl s

/-- Gluing two edges leaves the boundaries as they are. -/
theorem connect (a e b f : Nat) (mirror : Bool) : t.Grows prior (t.connect a e b f mirror) :=
  (modifyShape fun s _ => s.glue_sameBoundary e _).trans
    (modifyShape fun s _ => s.glue_sameBoundary f _)

theorem setStretchShear (a e : Nat) (stretch shear : α) :
    t.Grows prior (t.setStretchShear a e stretch shear) := by
  have hput (i : Nat) (p : α × α) (s : Shape α) :
      s.SameBoundary { s with stretchShear := s.stretchShear.setIfInBounds i p } :=
    ⟨rfl, rfl, rfl, rfl, rfl, rfl⟩
  exact (modifyShape fun s _ => hput e _ s).trans (modifyShape fun s _ => hput _ _ s)

/-- One more slider. -/
theorem pushSlider {x : Slider α} (hx : x.current = realValue prior t.sliders.size x.zero) :
    t.Grows prior { t with sliders := t.sliders.push x } :=
  { refl t with sliders := .push hx }

/-- One more slider for integers. -/
theorem pushIntSlider {x : Slider Int} (hx : x.current = intValue prior t.intSliders.size x.zero) :
    t.Grows prior { t with intSliders := t.intSliders.push x } :=
  { refl t with intSliders := .push hx }

/-- One more shape: an apeirogon ends at infinity, unless only its combinatorics count. -/
theorem pushShape {s : Shape α}
    (hends : t.isCombinatorial = false → s.apeirogonal = true → ∃ n, s.EndsAtInfinity n)
    (hplaceholder : t.isCombinatorial = true → s.IsPlaceholder) :
    t.Grows prior { t with shapes := t.shapes.push s } := by
  have hnew {i r} (hi : t.shapes.size ≤ i) (hr : (t.shapes.push s)[i]? = some r) : s = r := by
    rw [Array.getElem?_push] at hr
    split at hr
    · exact Option.some.inj hr
    · rw [Array.getElem?_eq_none hi] at hr
      cases hr
  exact
    { refl t with
      kept := fun {i r} hr => by
        have hi := (Array.getElem?_eq_some_iff.mp hr).1
        exact ⟨r, by rw [Array.getElem?_push, if_neg (by omega), hr], .refl r⟩
      ends := fun hi hr hc hap => hnew hi hr ▸ hends hc (hnew hi hr ▸ hap)
      placeholders := fun hi hr hc => hnew hi hr ▸ hplaceholder hc }

end Grows

end Tiling

end Mosaic
