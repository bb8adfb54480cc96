import Mosaic.Proofs.Descent

/-!
# Lockstep — two runs of one program

What a program does with one text is compared with what it, or a program of the same form, does
with another one that agrees with the first on a stretch.  The first run is taken to answer; the
second one is shown to keep pace with it, from states that are alike to states that are alike
(`Lockstep.Answers`).  In an `exact` comparison it answers as well, and the same values; otherwise
the values read may be others, and only the runs that answer are compared.

A run may look a few bytes ahead of where it stops.  So the second run follows a computation that
stops inside the stretch (`Follows`), but one that stops at the end of the stretch only if the last
thing it does is to take a token (`Closes`) or not to read at all (`Keeps`).

* `Lockstep`: the two texts and the relations between states of the two runs.
* `Steps.bind`, `Steps.ite`, `Steps.guard`, `Steps.iterate`: one rule for each way to build a
  program, with `Closes.bind` and `Closes.andThen` for the end of the stretch.
-/

namespace Mosaic

/-- What is compared in two runs over states of type `σ`. -/
structure Lockstep (ε σ : Type) where
  /-- The texts of the two runs. -/
  first : ByteArray
  second : ByteArray
  /-- Where the cursor of a state stands. -/
  place : σ → Nat
  /-- Whether the second run sees the values that the first one has seen. -/
  exact : Prop
  /-- How the states of the first run follow each other. -/
  leads : σ → σ → Prop
  /-- Which states lie in the stretch that the texts share, and which at its end at most. -/
  inside : σ → Prop
  reached : σ → Prop
  /-- States that the two runs are in at the same time. -/
  like : σ → σ → Prop
  /-- What the first run may fail with from a state on. -/
  lets : σ → ε → Prop
  refl : ∀ s, leads s s
  trans : ∀ {s t u}, leads s t → leads t u → leads s u
  lets_of_leads : ∀ {s t e}, leads s t → lets t e → lets s e
  reached_of_inside : ∀ {s}, inside s → reached s
  inside_of_leads : ∀ {s t}, leads s t → inside t → inside s
  reached_of_leads : ∀ {s t}, leads s t → reached t → reached s
  /-- Where the first run advances in its text, the second one does. -/
  advances : ∀ {s t u v}, leads s t → reached t → like s u → like t v → place s < place t →
    place s < first.size → place u < place v ∧ place u < second.size

namespace Lockstep

variable {ε σ β γ : Type}

/-- A program of the two runs. -/
abbrev Program (ε σ β : Type) := ReaderT ByteArray (EStateM ε σ) β

/-- Values that are equal in an exact comparison. -/
def Val (L : Lockstep ε σ) (b c : β) : Prop := L.exact → b = c

theorem Val.refl {L : Lockstep ε σ} (b : β) : L.Val b b := fun _ => rfl

theorem Val.map {L : Lockstep ε σ} {b b' : β} (hb : L.Val b b') (f : β → γ) :
    L.Val (f b) (f b') := fun he => by rw [hb he]

theorem Val.map₂ {L : Lockstep ε σ} {b b' : β} {c c' : γ} {δ : Type} (hb : L.Val b b')
    (hc : L.Val c c') (f : β → γ → δ) : L.Val (f b c) (f b' c') := fun he => by rw [hb he, hc he]

instance (L : Lockstep ε σ) : Std.Refl (L.Val (β := β)) := ⟨Val.refl⟩

instance : Std.Refl fun _ _ : β => True := ⟨fun _ => trivial⟩

/-- The second run answers something related to `b` and is in a state like `s`; only if the
comparison is not exact it may fail. -/
inductive Answers (L : Lockstep ε σ) (R : β → β → Prop) (b : β) (s : σ) :
    EStateM.Result ε σ β → Prop where
  | ok {c : β} {u : σ} (hR : R b c) (hu : L.like s u) : Answers L R b s (.ok c u)
  | error {e : ε} {u : σ} (h : ¬ L.exact) : Answers L R b s (.error e u)

/-- The second run, of `y`, keeps pace with the first one, of `x`, as far as this answers something
in a state that `P` allows. -/
structure Steps (L : Lockstep ε σ) (P : β → σ → Prop) (R : β → β → Prop) (x y : Program ε σ β) :
    Prop where
  leads : ∀ {s b s'}, x L.first s = .ok b s' → L.leads s s'
  answers : ∀ {s b s' u}, x L.first s = .ok b s' → P b s' → L.like s u →
    L.Answers R b s' (y L.second u)
  lets : ∀ {s e s'}, x L.first s = .error e s' → L.lets s e

/-- The second run follows the first one inside the stretch. -/
abbrev Follows (L : Lockstep ε σ) (R : β → β → Prop) (x y : Program ε σ β) : Prop :=
  L.Steps (fun _ => L.inside) R x y

/-- The second run follows the first one, and in an exact comparison it answers the same. -/
abbrev Paces (L : Lockstep ε σ) (x y : Program ε σ β) : Prop := L.Follows L.Val x y

/-- The second run follows the first one up to the end of the stretch. -/
abbrev Keeps (L : Lockstep ε σ) (R : β → β → Prop) (x y : Program ε σ β) : Prop :=
  L.Steps (fun _ => L.reached) R x y

/-- The second run follows the first one up to the end of the stretch, which the first one comes
to from inside. -/
structure Closes (L : Lockstep ε σ) (R : β → β → Prop) (x y : Program ε σ β) : Prop where
  keeps : L.Keeps R x y
  closes : ∀ {s b s'}, x L.first s = .ok b s' → L.reached s' → L.inside s

/-- A program that never answers. -/
structure Refuses (L : Lockstep ε σ) (x : Program ε σ β) : Prop where
  never : ∀ {text s b s'}, x text s ≠ .ok b s'
  lets : ∀ {s e s'}, x L.first s = .error e s' → L.lets s e

/-- A program that asks for a token.  Where it has `taken` one it may be at the end of the
stretch. -/
structure Tests (L : Lockstep ε σ) (taken : β → Prop) (x y : Program ε σ β) : Prop where
  steps : L.Steps (fun b s => L.inside s ∨ taken b ∧ L.reached s) Eq x y
  closes : ∀ {s b s'}, x L.first s = .ok b s' → taken b → L.reached s' → L.inside s

variable {L : Lockstep ε σ} {P P' : β → σ → Prop} {Q : γ → σ → Prop}
  {R : β → β → Prop} {S : γ → γ → Prop}
  {x y : Program ε σ β}

/-! ### All sorts of steps -/

namespace Steps

/-- What has to hold in the end may be strengthened. -/
theorem mono (h : L.Steps P R x y) (hP : ∀ b s, P' b s → P b s) : L.Steps P' R x y where
  leads := h.leads
  answers hx hp hu := h.answers hx (hP _ _ hp) hu
  lets := h.lets

/-- How the answers compare may be weakened. -/
theorem imp (h : L.Steps P R x y) {R' : β → β → Prop} (hR : ∀ b c, R b c → R' b c) :
    L.Steps P R' x y where
  leads := h.leads
  answers {s b s' u} hx hp hu := by
    have hanswer := h.answers hx hp hu
    generalize y L.second u = r at hanswer ⊢
    cases hanswer with
    | ok hR' hv => exact .ok (hR _ _ hR') hv
    | error h => exact .error h
  lets := h.lets

theorem pure {b c : β} (hR : R b c) : L.Steps P R (pure b) (pure c) where
  leads h := by
    cases h
    exact L.refl _
  answers h _ hu := by
    cases h
    exact .ok hR hu
  lets h := nomatch h

/-- A program that is refused goes with every other one. -/
theorem refuse (h : L.Refuses x) : L.Steps P R x y where
  leads hx := absurd hx h.never
  answers hx := absurd hx h.never
  lets := h.lets

/-- The general rule for sequences: where the second part stops tells where the first one has
stopped, and all that the first part answers has the property `F`. -/
theorem bindOf [Std.Refl R] {F : β → Prop} {f g : β → Program ε σ γ} (hx : L.Steps P R x y)
    (hF : ∀ {s b s'}, x L.first s = .ok b s' → F b)
    (hf : ∀ b c, F b → R b c → L.Steps Q S (f b) (g c))
    (hPQ : ∀ {b t c s'}, F b → f b L.first t = .ok c s' → Q c s' → P b t) :
    L.Steps Q S (x >>= f) (y >>= g) where
  leads h := by
    obtain ⟨b, t, hb, h⟩ := bind_ok.mp h
    exact L.trans (hx.leads hb) ((hf b b (hF hb) (Std.Refl.refl b)).leads h)
  answers {s c s' u} h hq hu := by
    obtain ⟨b, t, hb, h⟩ := bind_ok.mp h
    have hanswer := hx.answers hb (hPQ (hF hb) h hq) hu
    change L.Answers S c s' ((y L.second >>= fun b => g b L.second) u)
    generalize hy : y L.second u = r at hanswer
    cases hanswer with
    | ok hR hv =>
        have hlast := (hf _ _ (hF hb) hR).answers h hq hv
        generalize hg : g _ L.second _ = r at hlast
        cases r with
        | ok c v => rwa [bind_ok.mpr ⟨_, _, hy, hg⟩]
        | error e v => rwa [bind_error.mpr (Or.inr ⟨_, _, hy, hg⟩)]
    | error hne =>
        rw [bind_error.mpr (Or.inl hy)]
        exact .error hne
  lets h := by
    rcases bind_error.mp h with h | ⟨b, t, hb, h⟩
    · exact hx.lets h
    · exact L.lets_of_leads (hx.leads hb) ((hf b b (hF hb) (Std.Refl.refl b)).lets h)

/-- Programs in lockstep, one after the other. -/
theorem bind [Std.Refl R] {f g : β → Program ε σ γ} (hx : L.Steps P R x y)
    (hf : ∀ b c, R b c → L.Steps Q S (f b) (g c))
    (hPQ : ∀ {b t c s'}, f b L.first t = .ok c s' → Q c s' → P b t) :
    L.Steps Q S (x >>= f) (y >>= g) :=
  hx.bindOf (F := fun _ => True) (fun _ => trivial) (fun b c _ => hf b c) fun _ => hPQ

/-- Both runs take the same branch. -/
theorem ite {c : Prop} [Decidable c] {x' y' : Program ε σ β} (hx : c → L.Steps P R x y)
    (hx' : ¬ c → L.Steps P R x' y') :
    L.Steps P R (if c then x else x') (if c then y else y') := by
  split
  · exact hx ‹_›
  · exact hx' ‹_›

/-- Only in a comparison that is not exact the second run may be refused. -/
theorem outrun {y' : Program ε σ β} (h : L.Steps P R x y) (hne : ¬ L.exact)
    (hy : L.Refuses y') : L.Steps P R x y' where
  leads := h.leads
  answers {s b s' u} _ _ _ := by
    generalize hr : y' L.second u = r
    cases r with
    | ok _ _ => exact absurd hr hy.never
    | error _ _ => exact .error hne
  lets := h.lets

/-- Both runs have to get past the same guard. -/
theorem guard {c c' : Prop} [Decidable c] [Decidable c'] (hc : L.exact → (c ↔ c'))
    {x' y' : Program ε σ β} (hx : L.Refuses x') (hy : L.Refuses y')
    (h : ¬ c → L.Steps P R x y) : L.Steps P R (if c then x' else x) (if c' then y' else y) := by
  by_cases hcx : c
  · rw [if_pos hcx]
    exact .refuse hx
  · rw [if_neg hcx]
    by_cases hcy : c'
    · rw [if_pos hcy]
      exact (h hcx).outrun (fun he => hcx ((hc he).mpr hcy)) hy
    · rw [if_neg hcy]
      exact h hcx

end Steps

namespace Refuses

theorem bind {f : β → Program ε σ γ} (h : L.Refuses x) : L.Refuses (x >>= f) where
  never hx := by
    obtain ⟨_, _, hb, _⟩ := bind_ok.mp hx
    exact h.never hb
  lets hx := by
    rcases bind_error.mp hx with hx | ⟨_, _, hb, _⟩
    · exact h.lets hx
    · exact absurd hb h.never

end Refuses

/-! ### The end of the stretch -/

theorem Keeps.follows (h : L.Keeps R x y) : L.Follows R x y :=
  h.mono fun _ _ => L.reached_of_inside

theorem Tests.follows {taken : β → Prop} (h : L.Tests taken x y) : L.Follows Eq x y :=
  h.steps.mono fun _ _ => Or.inl

/-- Both runs have taken a token, or both have not. -/
theorem Follows.ifTaken {x y : Program ε σ Bool} {a b a' b' : Program ε σ γ}
    (hx : L.Tests (· = true) x y) (ha : L.Follows S a a') (hb : L.Follows S b b') :
    L.Follows S (do if ← x then a else b) (do if ← y then a' else b') := by
  refine Steps.bind hx.follows (fun taken _ h => h ▸ .ite (fun _ => ha) fun _ => hb)
    fun {taken _ _ _} h hin => L.inside_of_leads ?_ hin
  split at h
  · exact ha.leads h
  · exact hb.leads h

theorem Follows.bind [Std.Refl R] {f g : β → Program ε σ γ} (hx : L.Follows R x y)
    (hf : ∀ b c, R b c → L.Follows S (f b) (g c)) : L.Follows S (x >>= f) (y >>= g) :=
  Steps.bind hx hf fun {b _ _ _} h hin =>
    L.inside_of_leads ((hf b b (Std.Refl.refl b)).leads h) hin

/-- Programs that keep the pace, one after the other. -/
theorem Keeps.bind [Std.Refl R] {f g : β → Program ε σ γ} (hx : L.Keeps R x y)
    (hf : ∀ b c, R b c → L.Keeps S (f b) (g c)) : L.Keeps S (x >>= f) (y >>= g) :=
  Steps.bind hx hf fun {b _ _ _} h hin =>
    L.reached_of_leads ((hf b b (Std.Refl.refl b)).leads h) hin

namespace Closes

/-- A program that closes in the stretch is followed. -/
theorem follows (h : L.Closes R x y) : L.Follows R x y := h.keeps.follows

theorem refuse (h : L.Refuses x) : L.Closes R x y := ⟨.refuse h, fun hx => absurd hx h.never⟩

theorem outrun {y' : Program ε σ β} (h : L.Closes R x y) (hne : ¬ L.exact) (hy : L.Refuses y') :
    L.Closes R x y' := ⟨h.keeps.outrun hne hy, h.closes⟩

/-- A sequence closes if its last part does. -/
theorem bind [Std.Refl R] {f g : β → Program ε σ γ} (hx : L.Follows R x y)
    (hf : ∀ b c, R b c → L.Closes S (f b) (g c)) : L.Closes S (x >>= f) (y >>= g) where
  keeps := Steps.bind hx (fun b c h => (hf b c h).keeps) fun {b _ _ _} h hr =>
    (hf b b (Std.Refl.refl b)).closes h hr
  closes h hr := by
    obtain ⟨b, t, hb, h⟩ := bind_ok.mp h
    exact L.inside_of_leads (hx.leads hb) ((hf b b (Std.Refl.refl b)).closes h hr)

/-- What does not read may come after the close. -/
theorem andThenOf [Std.Refl R] {F : β → Prop} {f g : β → Program ε σ γ} (hx : L.Closes R x y)
    (hF : ∀ {s b s'}, x L.first s = .ok b s' → F b)
    (hf : ∀ b c, F b → R b c → L.Keeps S (f b) (g c)) : L.Closes S (x >>= f) (y >>= g) where
  keeps := hx.keeps.bindOf hF hf fun {b _ _ _} hb h hr =>
    L.reached_of_leads ((hf b b hb (Std.Refl.refl b)).leads h) hr
  closes h hr := by
    obtain ⟨b, t, hb, h⟩ := bind_ok.mp h
    exact hx.closes hb (L.reached_of_leads ((hf b b (hF hb) (Std.Refl.refl b)).leads h) hr)

/-- What is done after the token that closes. -/
theorem andThen [Std.Refl R] {f g : β → Program ε σ γ} (hx : L.Closes R x y)
    (hf : ∀ b c, R b c → L.Keeps S (f b) (g c)) : L.Closes S (x >>= f) (y >>= g) :=
  hx.andThenOf (F := fun _ => True) (fun _ => trivial) fun b c _ => hf b c

theorem ite {c : Prop} [Decidable c] {x' y' : Program ε σ β} (hx : c → L.Closes R x y)
    (hx' : ¬ c → L.Closes R x' y') :
    L.Closes R (if c then x else x') (if c then y else y') where
  keeps := .ite (fun h => (hx h).keeps) fun h => (hx' h).keeps
  closes h hr := by
    split at h
    · exact (hx ‹_›).closes h hr
    · exact (hx' ‹_›).closes h hr

theorem guard {c c' : Prop} [Decidable c] [Decidable c'] (hc : L.exact → (c ↔ c'))
    {x' y' : Program ε σ β} (hx : L.Refuses x') (hy : L.Refuses y')
    (h : ¬ c → L.Closes R x y) : L.Closes R (if c then x' else x) (if c' then y' else y) where
  keeps := .guard hc hx hy fun hcx => (h hcx).keeps
  closes hok hr := by
    split at hok
    · exact absurd hok hx.never
    · exact (h ‹_›).closes hok hr

/-- A token that is taken closes what it begins; where it is not there, the rest has to close. -/
theorem tests {taken : β → Prop} (hx : L.Tests taken x y) {f g : β → Program ε σ γ}
    (hf : ∀ b, taken b → L.Keeps S (f b) (g b)) (hf' : ∀ b, ¬ taken b → L.Closes S (f b) (g b)) :
    L.Closes S (x >>= f) (y >>= g) where
  keeps := by
    refine Steps.bind hx.steps (fun b c hbc => ?_) fun {b t _ s'} h hr => ?_
    · subst hbc
      by_cases hb : taken b
      · exact hf b hb
      · exact (hf' b hb).keeps
    · by_cases hb : taken b
      · exact .inr ⟨hb, L.reached_of_leads ((hf b hb).leads h) hr⟩
      · exact .inl ((hf' b hb).closes h hr)
  closes h hr := by
    obtain ⟨b, t, hb, h⟩ := bind_ok.mp h
    by_cases htaken : taken b
    · exact hx.closes hb htaken (L.reached_of_leads ((hf b htaken).leads h) hr)
    · exact L.inside_of_leads (hx.steps.leads hb) ((hf' b htaken).closes h hr)

/-- Programs in lockstep, chosen by a token that is there or not. -/
theorem ifTaken {x y : Program ε σ Bool} {a b a' b' : Program ε σ γ}
    (hx : L.Tests (· = true) x y) (ha : L.Keeps S a a') (hb : L.Closes S b b') :
    L.Closes S (do if ← x then a else b) (do if ← y then a' else b') := by
  refine .tests hx (fun taken htaken => ?_) fun taken htaken => ?_
  · rwa [if_pos htaken, if_pos htaken]
  · rwa [if_neg htaken, if_neg htaken]

end Closes

/-! ### Loops -/

section Iterate

/-- A loop whose rounds advance the cursor. -/
def loop (place : σ → Nat) (stalled : ByteArray → σ → ε) (step : γ → Program ε σ (γ ⊕ β)) (c : γ) :
    Program ε σ β := fun text =>
  descend (fun _ s => (text.size - place s, 0)) (stalled text) (fun c => step c text) c

variable {stalled : ByteArray → σ → ε} {step step' : γ → Program ε σ (γ ⊕ β)}

/-- The rank of a loop falls if the cursor goes on inside the text. -/
theorem below_iff {a b c : Nat} : Below (a - c, 0) (a - b, 0) ↔ b < c ∧ b < a := by
  simp only [Below, Nat.lt_irrefl, and_false, or_false]
  omega

/-- The states that a loop goes through follow each other. -/
theorem leads_of_rounds {P : γ ⊕ β → σ → Prop} [Std.Refl S] (hstep : ∀ c d, S c d →
      L.Steps P (Sum.LiftRel S R) (step c) (step' d)) {c d : γ} {s t : σ}
    (h : Rounds (fun c => step c L.first) c s d t) : L.leads s t :=
  h.keeps (P := fun _ t => L.leads s t)
    (fun y _ _ _ _ hle hround => L.trans hle ((hstep y y (Std.Refl.refl y)).leads hround))
    (L.refl s)

/-- A loop that answers leads to its answer. -/
theorem leads_of_loop {P : γ ⊕ β → σ → Prop} [Std.Refl S] (hstep : ∀ c d, S c d →
      L.Steps P (Sum.LiftRel S R) (step c) (step' d)) {c : γ} {b : β} {s t : σ}
    (h : loop L.place stalled step c L.first s = .ok b t) : L.leads s t := by
  obtain ⟨d, u, hrounds, hlast⟩ := descend_ok h
  exact L.trans (leads_of_rounds hstep hrounds) ((hstep d d (Std.Refl.refl d)).leads hlast)

/-- A round that goes on, and the loop after it. -/
theorem loop_of_inl {place : σ → Nat} {text : ByteArray} {c c' : γ} {s t : σ}
    (h : step c text s = .ok (.inl c') t) (hadv : place s < place t ∧ place s < text.size) :
    loop place stalled step c text s = loop place stalled step c' text t :=
  descend_of_inl h (below_iff.mpr hadv)

/-- In an exact comparison the second loop comes to every round that the first one comes to. -/
theorem Steps.rounds {P : γ ⊕ β → σ → Prop} [Std.Refl S] (he : L.exact)
    (hP : ∀ {c s}, L.reached s → P (.inl c) s) (hadv : ∀ {c c' s t},
      step c L.first s = .ok (.inl c') t → L.place s < L.place t ∧ L.place s < L.first.size)
    (hstep : ∀ c d, S c d → L.Steps P (Sum.LiftRel S R) (step c) (step' d)) {c c' d : γ}
    {s t u : σ} (h : S c d) (hrounds : Rounds (fun c => step c L.first) c s c' t)
    (hu : L.like s u) (ht : L.reached t) : ∃ d' v, S c' d' ∧ L.like t v ∧
      loop L.place stalled step' d L.second u = loop L.place stalled step' d' L.second v := by
  induction hrounds with
  | refl => exact ⟨d, u, h, hu, rfl⟩
  | @more y z t' t _ hround ih =>
      have hleads := (hstep y y (Std.Refl.refl y)).leads hround
      obtain ⟨d', v, hd', hv, heq⟩ := ih (L.reached_of_leads hleads ht)
      have hanswer := (hstep y d' hd').answers hround (hP ht) hv
      generalize hy : step' d' L.second v = r at hanswer
      cases hanswer with
      | ok hR hw =>
          cases hR with
          | inl hR =>
              obtain ⟨hadvance, hin⟩ := hadv hround
              have hadvance' := L.advances hleads ht hv hw hadvance hin
              exact ⟨_, _, hR, hw, heq.trans (loop_of_inl hy hadvance')⟩
      | error hne => exact absurd he hne

/-- Two loops keep pace if their rounds do. -/
theorem Steps.iterate {P : σ → Prop} [Std.Refl S] (hP : ∀ {s t}, L.leads s t → P t → P s)
    (hreached : ∀ {s}, P s → L.reached s) (hstalled : ∀ s t, L.lets s (stalled L.first t))
    (hstep : ∀ c d, S c d → L.Steps (fun _ => P) (Sum.LiftRel S R) (step c) (step' d)) {c d : γ}
    (h : S c d) :
    L.Steps (fun _ => P) R (loop L.place stalled step c) (loop L.place stalled step' d) where
  leads hok := leads_of_loop hstep hok
  answers {s b s' u} hok hs' hu := by
    -- the induction is on the rounds of the first run; the second one has gone as many
    unfold loop at hok
    induction c, s using descend.induct (fun _ s => (L.first.size - L.place s, 0))
      (fun c => step c L.first) generalizing d u with
    | case1 c s e t hround =>
        rw [descend, hround] at hok
        cases hok
    | case2 c s b' t hround =>
        rw [descend, hround] at hok
        cases hok
        have hanswer := (hstep c d h).answers hround hs' hu
        unfold loop
        generalize hy : step' d L.second u = r at hanswer
        cases hanswer with
        | ok hR hv =>
            cases hR with
            | inr hR => rw [descend_of_inr hy]; exact .ok hR hv
        | error hne => rw [descend, hy]; exact .error hne
    | case3 =>
        rename_i c s before c' t hround hlt ih
        rw [descend, hround] at hok
        have hrest := (if_pos hlt).symm.trans hok
        have ht : P t := hP (leads_of_loop hstep hrest) hs'
        have hanswer := (hstep c d h).answers hround ht hu
        generalize hy : step' d L.second u = r at hanswer
        cases hanswer with
        | ok hR hv =>
            cases hR with
            | inl hR =>
                obtain ⟨hadv, hin⟩ := below_iff.mp hlt
                have hst := (hstep c c (Std.Refl.refl c)).leads hround
                rw [loop_of_inl hy (L.advances hst (hreached ht) hu hv hadv hin)]
                exact ih hR hrest hv
        | error hne =>
            unfold loop
            rw [descend, hy]
            exact .error hne
    | case4 =>
        rename_i c s before c' t hround hlt
        rw [descend, hround] at hok
        cases (if_neg hlt).symm.trans hok
  lets {s e s'} herror := by
    obtain ⟨c', t, hrounds, hlast | rfl⟩ := descend_error herror
    · exact L.lets_of_leads (leads_of_rounds hstep hrounds)
        ((hstep c' c' (Std.Refl.refl c')).lets hlast)
    · exact hstalled _ _

/-- Loops are followed if their rounds are. -/
theorem Follows.iterate [Std.Refl S] (hstalled : ∀ s t, L.lets s (stalled L.first t))
    (hstep : ∀ c d, S c d → L.Follows (Sum.LiftRel S R) (step c) (step' d)) {c d : γ} (h : S c d) :
    L.Follows R (loop L.place stalled step c) (loop L.place stalled step' d) :=
  Steps.iterate L.inside_of_leads L.reached_of_inside hstalled hstep h

/-- A loop closes if its rounds do. -/
theorem Closes.iterate [Std.Refl S] (hstalled : ∀ s t, L.lets s (stalled L.first t))
    (hstep : ∀ c d, S c d → L.Closes (Sum.LiftRel S R) (step c) (step' d)) {c d : γ} (h : S c d) :
    L.Closes R (loop L.place stalled step c) (loop L.place stalled step' d) where
  keeps := Steps.iterate L.reached_of_leads id hstalled (fun c d hcd => (hstep c d hcd).keeps) h
  closes hok hr := by
    have hclosed := hstep c c (Std.Refl.refl c)
    obtain ⟨c', t, hrounds, hlast⟩ := descend_ok hok
    have ht := L.reached_of_leads ((hstep c' c' (Std.Refl.refl c')).keeps.leads hlast) hr
    rcases hrounds.cases_head with ⟨rfl, rfl⟩ | ⟨c₁, s₁, hfirst, hrest⟩
    · exact hclosed.closes hlast hr
    · have hleads := leads_of_rounds (fun c d hcd => (hstep c d hcd).keeps) hrest
      exact hclosed.closes hfirst (L.reached_of_leads hleads ht)

end Iterate

end Lockstep

end Mosaic
