import Mosaic.Proofs.Description.Drafting
import Mosaic.Proofs.Description.Growth
import Mosaic.Proofs.Expression.Lockstep

/-!
# Description — reading a description twice

Two runs over descriptions that share a stretch are compared with drafts in hand, which may differ
in the generation of the tiling and, unless the comparison is exact, in everything but the names of
the sliders (`Draft.Alike`).  What the runs have in common so far is a growing draft
(`Drafting.lockstep`).

* `read_follows`, `read_closes`, …: what holds of a reader holds of it with a draft in hand.
* `still_keeps`, `modifyTiling_keeps`, …: computations on the draft.
* `real_paces`, `indexBelow_paces`, …: expressions in the scope of the draft.
-/

namespace Mosaic

variable {α β : Type}

/-- The names of the sliders. -/
def Tiling.sliderNames (t : Tiling α) : Array String × Array String :=
  (t.sliders.map (·.name), t.intSliders.map (·.name))

/-- What directives must not change unless they add to it. -/
def Tiling.stem (t : Tiling α) :
    Nat × Array (Slider α) × Array (Slider Int) × Bool × Array (Shape α) :=
  (t.order, t.sliders, t.intSliders, t.isCombinatorial, t.shapes)

/-- Drafts of two runs at the same place: the sliders have the same names and, in an exact
comparison, only the generation of the tilings may differ. -/
structure Draft.Alike (exact : Prop) (d e : Draft α) : Prop where
  names : e.tiling.sliderNames = d.tiling.sliderNames
  tiling : exact → ∃ order, e.tiling = { d.tiling with order }
  angleUnit : exact → e.angleUnit = d.angleUnit
  distanceUnit : exact → e.distanceUnit = d.distanceUnit
  bindings : exact → ∀ name : String, e.bindings[name]? = d.bindings[name]?

theorem Draft.Alike.refl {exact : Prop} (d : Draft α) : d.Alike exact d :=
  ⟨rfl, fun _ => ⟨_, rfl⟩, fun _ => rfl, fun _ => rfl, fun _ _ => rfl⟩

/-- What does not depend on the generation is the same. -/
theorem Draft.Alike.agree {exact : Prop} {d e : Draft α} (h : d.Alike exact e) (he : exact)
    (f : Tiling α → β) (hf : ∀ t order, f { t with order } = f t) : f d.tiling = f e.tiling := by
  obtain ⟨order, ht⟩ := h.tiling he
  exact ((congrArg f ht).trans (hf _ order)).symm

/-- A change of both tilings that does not depend on their generation. -/
theorem Draft.Alike.edit {exact : Prop} {d e : Draft α} (h : d.Alike exact e)
    {f g : Tiling α → Tiling α} (hf : ∀ t, (f t).sliderNames = t.sliderNames)
    (hg : ∀ t, (g t).sliderNames = t.sliderNames)
    (hfg : exact → ∀ t order, g { t with order } = { f t with order }) :
    Draft.Alike exact { d with tiling := f d.tiling } { e with tiling := g e.tiling } :=
  { h with
    names := (hg _).trans (h.names.trans (hf _).symm)
    tiling := fun he => by
      obtain ⟨order, ht⟩ := h.tiling he
      exact ⟨order, by rw [ht, hfg he]⟩ }

instance {exact : Prop} : Std.Refl (Draft.Alike (α := α) exact) := ⟨Draft.Alike.refl⟩

instance {exact : Prop} [Scalar α] : Std.Refl fun s s' : Scope α => exact → s.Agree s' :=
  ⟨fun _ _ => ⟨fun _ => rfl, fun _ _ => rfl⟩⟩

/-- A tiling grows if its shapes, sliders and flags are left as they are. -/
theorem Tiling.Grows.of_stem [Scalar α] {prior : Option (Tiling α)} {t u : Tiling α}
    (h : u.stem = t.stem) : t.Grows prior u := by
  simp only [stem, Prod.mk.injEq] at h
  obtain ⟨horder, hsliders, hint, hcombinatorial, hshapes⟩ := h
  exact .congr horder hsliders hint hshapes fun hc => hcombinatorial.trans hc

/-- The names of sliders are part of what is left as it is. -/
theorem Tiling.sliderNames_of_stem {t u : Tiling α} (h : u.stem = t.stem) :
    u.sliderNames = t.sliderNames := by
  simp only [stem, Prod.mk.injEq] at h
  obtain ⟨-, hsliders, hint, -⟩ := h
  rw [sliderNames, hsliders, hint, sliderNames]

namespace Drafting

open Lockstep

variable [Scalar α]

/-- The comparison of two runs on a stretch of their descriptions.  In an exact one the first run is
followed as long as its sliders have the values that the second run gives them. -/
def lockstep (S : Stretch) (exact : Prop) (prior prior' : Option (Tiling α)) :
    Lockstep (LoadError α) (Desk α) where
  first := S.first
  second := S.second
  place := (·.offset)
  exact := exact
  leads s t := s.offset ≤ t.offset ∧ s.draft.tiling.Grows prior t.draft.tiling
  inside s := s.offset < S.hi ∧ (exact → s.draft.tiling.Heeds prior')
  reached s := s.offset ≤ S.hi ∧ (exact → s.draft.tiling.Heeds prior')
  like s u := (S.lockstep exact).like s.offset u.offset ∧ s.draft.Alike exact u.draft
  lets s e := ∀ i t, e = .inspection i t → s.draft.tiling.Grows prior t
  refl _ := ⟨Nat.le_refl _, .refl _⟩
  trans h h' := ⟨Nat.le_trans h.1 h'.1, h.2.trans h'.2⟩
  lets_of_leads h h' i t he := h.2.trans (h' i t he)
  reached_of_inside h := ⟨Nat.le_of_lt h.1, h.2⟩
  inside_of_leads h h' := ⟨Nat.lt_of_le_of_lt h.1 h'.1, fun he => (h'.2 he).of_grows h.2⟩
  reached_of_leads h h' := ⟨Nat.le_trans h.1 h'.1, fun he => (h'.2 he).of_grows h.2⟩
  advances h ht hu hv := (S.lockstep exact).advances h.1 ht.1 hu.1 hv.1

variable {S : Stretch} {exact : Prop} {prior prior' : Option (Tiling α)}
  {R : β → β → Prop}

/-! ### Readings -/

section Readings

variable {r r' : Reader β}

/-- What a reader does it does with a draft in hand. -/
theorem read_steps {P : β → Nat → Prop} {Q : β → Desk α → Prop}
    (h : (S.lockstep exact).Steps P R r r') (hP : ∀ b s, Q b s → P b s.offset) :
    (lockstep S exact prior prior').Steps Q R (ofReader r : Drafting α β) (ofReader r') where
  leads hr := by
    obtain ⟨hok, hdraft⟩ := ofReader_ok hr
    exact ⟨h.leads hok, hdraft ▸ .refl _⟩
  answers {s b s' u} hr hQ hu := by
    obtain ⟨hok, hdraft⟩ := ofReader_ok hr
    have hanswer := h.answers hok (hP _ _ hQ) hu.1
    change (lockstep S exact prior prior').Answers R b s' ((ofReader r' : Drafting α β) S.second u)
    change (S.lockstep exact).Answers R b s'.offset (r' S.second u.offset) at hanswer
    unfold ofReader
    generalize r' S.second u.offset = answered at hanswer
    cases hanswer with
    | ok hR hv => exact .ok hR ⟨hv, hdraft ▸ hu.2⟩
    | error hne => exact .error hne
  lets hr i t he := by
    subst he
    exact (ofReader_error hr).elim

/-- What reads the two texts in lockstep does so on the desks. -/
theorem read_follows (h : (S.lockstep exact).Follows R r r') :
    (lockstep S exact prior prior').Follows R (ofReader r : Drafting α β) (ofReader r') :=
  read_steps h fun _ _ hin => hin.1

theorem read_keeps (h : (S.lockstep exact).Keeps R r r') :
    (lockstep S exact prior prior').Keeps R (ofReader r : Drafting α β) (ofReader r') :=
  read_steps h fun _ _ hr => hr.1

theorem read_closes (h : (S.lockstep exact).Closes R r r') :
    (lockstep S exact prior prior').Closes R (ofReader r : Drafting α β) (ofReader r') where
  keeps := read_keeps h.keeps
  closes hr hreached := by
    obtain ⟨hok, hdraft⟩ := ofReader_ok hr
    exact ⟨h.closes hok hreached.1, fun he => hdraft ▸ hreached.2 he⟩

/-- A test of the two texts is a test on the desks. -/
theorem read_tests {taken : β → Prop} (h : (S.lockstep exact).Tests taken r r') :
    (lockstep S exact prior prior').Tests taken (ofReader r : Drafting α β) (ofReader r') where
  steps := read_steps h.steps fun _ _ => Or.imp And.left (And.imp_right And.left)
  closes hr htaken hreached := by
    obtain ⟨hok, hdraft⟩ := ofReader_ok hr
    exact ⟨h.closes hok htaken hreached.1, fun he => hdraft ▸ hreached.2 he⟩

theorem read_refuses (h : (S.lockstep exact).Refuses r) :
    (lockstep S exact prior prior').Refuses (ofReader r : Drafting α β) where
  never hr := h.never (ofReader_ok hr).1
  lets hr i t he := by
    subst he
    exact (ofReader_error hr).elim

theorem fail_refuses (fault : Fault) :
    (lockstep S exact prior prior').Refuses (ofReader (Reader.fail fault) : Drafting α β) :=
  read_refuses (Stretch.fail_refuses fault)

theorem failAt_refuses (place : Nat) (fault : Fault) :
    (lockstep S exact prior prior').Refuses (ofReader (Reader.failAt place fault) : Drafting α β) :=
  read_refuses (Stretch.failAt_refuses place fault)

theorem offset_keeps : (lockstep S exact prior prior').Keeps (fun _ _ => True)
    (ofReader Reader.offset : Drafting α Nat) (ofReader Reader.offset) :=
  read_keeps Stretch.offset_keeps

/-- Both texts have the token, or neither. -/
theorem eat_tests {token : String} {c : Char}
    (htoken : token.toByteArray.data.toList = [c.toUInt8]) :
    (lockstep S exact prior prior').Tests (· = true)
      (ofReader (Reader.eat token) : Drafting α Bool) (ofReader (Reader.eat token)) :=
  read_tests (Stretch.eat_tests htoken)

/-- Both texts have the token that has to be there, or both are refused. -/
theorem expect_closes {token : String} {c : Char}
    (htoken : token.toByteArray.data.toList = [c.toUInt8]) :
    (lockstep S exact prior prior').Closes Eq
      (ofReader (Reader.expect token) : Drafting α Unit) (ofReader (Reader.expect token)) :=
  read_closes (Stretch.expect_closes htoken)

theorem identifier_follows : (lockstep S exact prior prior').Follows Eq
    (ofReader Reader.identifier : Drafting α String) (ofReader Reader.identifier) :=
  read_follows Stretch.identifier_follows

end Readings

/-! ### Computations on the draft -/

section Drafts

/-- A computation that leaves the cursor where it is. -/
theorem still_keeps {x y : Drafting α β}
    (hx : ∀ {s b s'}, x S.first s = .ok b s' →
      s'.offset = s.offset ∧ s.draft.tiling.Grows prior s'.draft.tiling)
    (hlets : ∀ {s i t s'}, x S.first s = .error (.inspection i t) s' →
      s.draft.tiling.Grows prior t)
    (hy : ∀ {s b s' u}, x S.first s = .ok b s' → (exact → s'.draft.tiling.Heeds prior') →
      s.draft.Alike exact u.draft → match y S.second u with
        | .ok c v => R b c ∧ v.offset = u.offset ∧ s'.draft.Alike exact v.draft
        | .error _ _ => ¬ exact) :
    (lockstep S exact prior prior').Keeps R x y where
  leads h := ⟨Nat.le_of_eq (hx h).1.symm, (hx h).2⟩
  answers {s b s' u} h hr hu := by
    have hanswer := hy h hr.2 hu.2
    change (lockstep S exact prior prior').Answers R b s' (y S.second u)
    generalize y S.second u = answered at hanswer
    cases answered with
    | ok c v =>
        obtain ⟨hR, hv, hdraft⟩ := hanswer
        exact .ok hR ⟨(hx h).1 ▸ hv ▸ hu.1, hdraft⟩
    | error _ _ => exact .error hanswer
  lets h i t he := by
    subst he
    exact hlets h

theorem draft_keeps : (lockstep S exact prior prior').Keeps (Draft.Alike exact) draft draft :=
  still_keeps (fun h => by cases h; exact ⟨rfl, .refl _⟩) (fun h => nomatch h)
    fun h _ hu => by cases h; exact ⟨hu, rfl, hu⟩

/-- A change that both drafts are given alike leaves them alike. -/
theorem modifyDraft_keeps {f g : Draft α → Draft α}
    (hf : ∀ d : Draft α, d.tiling.Grows prior (f d).tiling)
    (hfg : ∀ d e : Draft α, (exact → (f d).tiling.Heeds prior') → d.Alike exact e →
      (f d).Alike exact (g e)) :
    (lockstep S exact prior prior').Keeps Eq (modifyDraft f) (modifyDraft g) :=
  still_keeps (fun h => by cases h; exact ⟨rfl, hf _⟩) (fun h => nomatch h)
    fun h hheeds hu => by cases h; exact ⟨rfl, rfl, hfg _ _ hheeds hu⟩

/-- A change of the tiling that does not depend on its generation. -/
theorem modifyTiling_keeps {f g : Tiling α → Tiling α} (hf : ∀ t : Tiling α, t.Grows prior (f t))
    (hfn : ∀ t, (f t).sliderNames = t.sliderNames) (hgn : ∀ t, (g t).sliderNames = t.sliderNames)
    (hfg : exact → ∀ t order, g { t with order } = { f t with order }) :
    (lockstep S exact prior prior').Keeps Eq (modifyTiling f) (modifyTiling g) :=
  modifyDraft_keeps (fun d => hf d.tiling) fun _ _ _ h => h.edit hfn hgn hfg

/-- A change of something else than sliders and shapes. -/
theorem setting_keeps {f g : Tiling α → Tiling α} (hf : ∀ t, (f t).stem = t.stem)
    (hg : ∀ t, (g t).stem = t.stem)
    (hfg : exact → ∀ t order, g { t with order } = { f t with order }) :
    (lockstep S exact prior prior').Keeps Eq (modifyTiling f) (modifyTiling g) :=
  modifyTiling_keeps (fun t => .of_stem (hf t)) (fun t => Tiling.sliderNames_of_stem (hf t))
    (fun t => Tiling.sliderNames_of_stem (hg t)) hfg

/-- A variable that is bound in both drafts. -/
theorem bindVariable_keeps (name : String) {x y : α}
    (h : (lockstep S exact prior prior').Val x y) :
    (lockstep S exact prior prior').Keeps Eq (bindVariable name x) (bindVariable name y) :=
  modifyDraft_keeps (fun d => .refl _) fun d e _ hde =>
    { hde with
      bindings := fun he other => by
        change (e.bindings.insert name y)[other]? = (d.bindings.insert name x)[other]?
        rw [Std.TreeMap.getElem?_insert, Std.TreeMap.getElem?_insert, hde.bindings he, h he] }

end Drafts

/-! ### Expressions and indices -/

section Expressions

/-- Drafts that are alike have scopes that agree. -/
theorem scope_keeps : (lockstep S exact prior prior').Keeps (fun s s' => exact → s.Agree s')
    (scope : Drafting α (Scope α)) scope :=
  draft_keeps.bind fun _ _ h => .pure fun he => by
    exact Scope.agree_of (h.agree he (·.space) fun _ _ => rfl)
      fun name => (h.bindings he name).symm

/-- An expression is read in the scope of the draft. -/
theorem scoped_follows {r : Scope α → Reader β}
    (h : ∀ s s' : Scope α, (exact → s.Agree s') → (S.lockstep exact).Follows R (r s) (r s')) :
    (lockstep S exact prior prior').Follows R (do r (← scope) : Drafting α β)
      (do r (← scope)) :=
  scope_keeps.follows.bind fun s s' hs => read_follows (h s s' hs)

/-- Expressions are read in lockstep; their values agree if the sliders do. -/
theorem sum_paces : (lockstep S exact prior prior').Paces (sum : Drafting α α) sum :=
  scoped_follows (r := Expression.sum) fun _ _ => Expression.sum_paces

theorem real_paces : (lockstep S exact prior prior').Paces (real : Drafting α α) real :=
  scoped_follows (r := Expression.real) fun _ _ => Expression.real_paces

theorem integer_paces : (lockstep S exact prior prior').Paces (integer : Drafting α Int) integer :=
  scoped_follows (r := Expression.integer) fun _ _ => Expression.integer_paces

theorem realThenClose_closes : (lockstep S exact prior prior').Closes
    (lockstep S exact prior prior').Val (realThenClose : Drafting α α) realThenClose :=
  .bind scope_keeps.follows fun _ _ hs => read_closes (Expression.realThenClose_closes hs)

/-- An index is in bounds of both drafts or of neither. -/
theorem indexBelow_paces {bound bound' : Nat}
    (h : (lockstep S exact prior prior').Val bound bound') :
    (lockstep S exact prior prior').Paces (indexBelow bound : Drafting α Nat)
      (indexBelow bound') := by
  refine offset_keeps.follows.bind fun place place' _ => integer_paces.bind fun v v' hv => ?_
  cases v with
  | negSucc n => exact .refuse (failAt_refuses _ _)
  | ofNat n =>
      cases v' with
      | negSucc n' =>
          refine Steps.outrun (y := if n < bound then pure n else
            ofReader (Reader.failAt place (.badIndex n))) ?_ (fun he => nomatch hv he)
            (failAt_refuses _ _)
          exact .ite (fun _ => .pure (.refl n)) fun _ => .refuse (failAt_refuses _ _)
      | ofNat n' =>
          have hn : (lockstep S exact prior prior').Val n n' := fun he => Int.ofNat.inj (hv he)
          dsimp only
          rw [← ite_not (n < bound), ← ite_not (n' < bound')]
          exact .guard (fun he => by rw [hn he, h he]) (failAt_refuses _ _) (failAt_refuses _ _)
            fun _ => .pure hn

theorem shapeIndex_paces :
    (lockstep S exact prior prior').Paces (shapeIndex : Drafting α Nat) shapeIndex :=
  draft_keeps.follows.bind fun _ _ h => indexBelow_paces fun he =>
    h.agree he (·.shapes.size) fun _ _ => rfl

theorem edgeIndex_paces {a b : Nat} (hab : (lockstep S exact prior prior').Val a b) :
    (lockstep S exact prior prior').Paces (edgeIndex a : Drafting α Nat) (edgeIndex b) :=
  draft_keeps.follows.bind fun d e h => indexBelow_paces fun he => by
    rw [hab he]
    exact h.agree he (fun t => (t.shape b).size) fun _ _ => rfl

end Expressions

end Drafting

end Mosaic
