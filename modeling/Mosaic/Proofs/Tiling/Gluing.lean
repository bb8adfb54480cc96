import Mathlib.Data.List.Induction
import Mosaic.Proofs.Tiling.Symmetry
import Mosaic.Tiling.Gluing

/-!
# Tiling — gluing edges one after another

`Tiling.connect` writes all copies of two edges, each time the same gluing to the other edge
(`connection?_connect`).  If no edge outside the two classes is glued into them, gluings that were
symmetric stay symmetric (`Symmetric.connect`).

That is so when a catalogue is glued up from shapes whose edges are glued to copies of themselves
(`Shape.Unglued`) and no class of edges is used twice: edges lead to their own class or across the
gluing that used it, and the ends of apeirogons to each other (`Tied`).  The gluings are therefore
symmetric at every moment, and so are those of the double cover (`connectAll_symmetric`).
-/

namespace Mosaic

variable {α : Type}

/-! ### Writing all copies of an edge -/

section Copies

variable {β : Type}

/-- Writing one value to several places. -/
theorem getElem?_foldl_setIfInBounds (f : Nat → Nat) (v : β) (ks : List Nat) (xs : Array β)
    (i : Nat) :
    (ks.foldl (fun xs k => xs.setIfInBounds (f k) v) xs)[i]? =
      if (∃ k ∈ ks, f k = i) ∧ i < xs.size then some v else xs[i]? := by
  induction ks generalizing xs with
  | nil => simp
  | cons k ks ih =>
      rw [List.foldl_cons, ih, Array.getElem?_setIfInBounds, Array.size_setIfInBounds]
      simp only [List.mem_cons, exists_eq_or_imp]
      by_cases hk : f k = i
      · subst hk
        by_cases hi : f k < xs.size <;> simp [hi]
      · simp [hk]

theorem size_foldl_setIfInBounds (f : Nat → Nat) (v : β) (ks : List Nat) (xs : Array β) :
    (ks.foldl (fun xs k => xs.setIfInBounds (f k) v) xs).size = xs.size := by
  induction ks generalizing xs with
  | nil => rfl
  | cons k ks ih => rw [List.foldl_cons, ih, Array.size_setIfInBounds]

/-- Going around in strides reaches the places a multiple of the stride away. -/
theorem exists_stride_iff {n d e i : Nat} (hd : d ∣ n) (he : e < n) (hi : i < n) :
    (∃ k < n / d, (e + k * d) % n = i) ↔ i ≡ e [MOD d] := by
  have hdpos : 0 < d := Nat.pos_of_dvd_of_pos hd (by omega)
  constructor
  · rintro ⟨k, -, rfl⟩
    calc (e + k * d) % n ≡ e + k * d [MOD d] := (Nat.mod_modEq _ _).of_dvd hd
      _ ≡ e [MOD d] := by simp [Nat.ModEq]
  · intro h
    obtain ⟨q, rfl⟩ := hd
    -- The number of strides from `e` forward to `i`.
    obtain ⟨k, hk⟩ : d ∣ i + d * q - e := by
      refine (Nat.modEq_iff_dvd' (by omega)).mp (h.symm.trans ?_)
      simp [Nat.ModEq]
    have hq : 0 < q := Nat.pos_of_ne_zero (by rintro rfl; simp at he)
    refine ⟨k % q, ?_, ?_⟩
    · rw [Nat.mul_div_cancel_left q hdpos]
      exact Nat.mod_lt k hq
    · rw [Nat.mul_comm (k % q) d, ← Nat.mul_mod_mul_left, ← hk, Nat.add_mod_mod]
      rw [show e + (i + d * q - e) = i + d * q by omega, Nat.add_mod_right, Nat.mod_eq_of_lt hi]

end Copies

namespace Shape

/-- Gluing changes nothing of a shape but its gluings. -/
theorem glue_eq (s : Shape α) (e : Nat) (target : Connection) : ∃ cs : Array Connection,
    s.glue e target = { s with connections := cs } ∧ cs.size = s.connections.size := by
  unfold glue
  simp only
  split
  · exact ⟨_, rfl, rfl⟩
  · exact ⟨_, rfl, size_foldl_setIfInBounds _ _ _ _⟩

/-- An edge is glued with all its copies. -/
theorem getElem?_glue {s : Shape α} {e k : Nat} (target : Connection) (hd : s.stride ∣ s.size)
    (hc : s.connections.size = s.size) (he : e < s.size) (hk : k < s.size) :
    (s.glue e target).connections[k]? =
      if k ≡ e [MOD s.stride] then some target else s.connections[k]? := by
  have hdpos : 0 < s.stride := Nat.pos_of_dvd_of_pos hd (by omega)
  have hne : ¬ (s.size = 0 ∨ s.stride = 0) := by omega
  simp only [glue, hne, if_false]
  rw [getElem?_foldl_setIfInBounds, Nat.gcd_eq_right hd]
  simp only [List.mem_range, exists_stride_iff hd he hk, hc, hk, and_true]

end Shape

/-! ### Gluing two edges -/

namespace Tiling

/-- The catalogues `t` and `t'` differ in gluings only. -/
structure Rewired (t t' : Tiling α) : Prop where
  size : t'.shapes.size = t.shapes.size
  shape : ∀ a < t.shapes.size, ∃ cs : Array Connection,
    t'.shape a = { t.shape a with connections := cs } ∧ cs.size = (t.shape a).connections.size

theorem Rewired.trans {t₁ t₂ t₃ : Tiling α} (h : Rewired t₁ t₂) (h' : Rewired t₂ t₃) :
    Rewired t₁ t₃ where
  size := h'.size.trans h.size
  shape a ha := by
    obtain ⟨cs, hcs, hsize⟩ := h.shape a ha
    obtain ⟨cs', hcs', hsize'⟩ := h'.shape a (h.size ▸ ha)
    rw [hcs] at hcs' hsize'
    exact ⟨cs', hcs', hsize'.trans hsize⟩

/-- To glue an edge is to rewire the tiling. -/
theorem rewired_glue (t : Tiling α) (i e : Nat) (target : Connection) :
    Rewired t (t.modifyShape i (·.glue e target)) where
  size := Array.size_modify
  shape a ha := by
    rw [shape_modifyShape t i _ ha]
    split
    · exact (t.shape a).glue_eq e target
    · exact ⟨_, rfl, rfl⟩

/-- To connect two edges is to rewire the tiling. -/
theorem rewired_connect (t : Tiling α) (a e b f : Nat) (mirror : Bool) :
    Rewired t (t.connect a e b f mirror) :=
  (rewired_glue t a e _).trans (rewired_glue _ b f _)

namespace Rewired

variable {t t' : Tiling α} (h : Rewired t t')
include h

theorem stride_eq {a : Nat} (ha : a < t.shapes.size) : (t'.shape a).stride = (t.shape a).stride := by
  obtain ⟨cs, hcs, -⟩ := h.shape a ha
  rw [hcs]
  rfl

theorem size_eq {a : Nat} (ha : a < t.shapes.size) : (t'.shape a).size = (t.shape a).size := by
  obtain ⟨cs, hcs, -⟩ := h.shape a ha
  rw [hcs]
  rfl

theorem apeirogonal_eq {a : Nat} (ha : a < t.shapes.size) :
    (t'.shape a).apeirogonal = (t.shape a).apeirogonal := by
  obtain ⟨cs, hcs, -⟩ := h.shape a ha
  rw [hcs]

/-- A regular tiling that is rewired is regular. -/
theorem regular (ht : t.Regular) : t'.Regular where
  id a ha := by
    rw [h.size] at ha
    obtain ⟨cs, hcs, -⟩ := h.shape a ha
    rw [hcs]
    exact ht.id a ha
  angles_size a ha := by
    rw [h.size] at ha
    obtain ⟨cs, hcs, -⟩ := h.shape a ha
    rw [hcs]
    exact ht.angles_size a ha
  connections_size a ha := by
    rw [h.size] at ha
    obtain ⟨cs, hcs, hsize⟩ := h.shape a ha
    rw [hcs]
    exact hsize.trans (ht.connections_size a ha)
  stride_dvd a ha := by
    rw [h.size] at ha
    rw [h.stride_eq ha, h.size_eq ha]
    exact ht.stride_dvd a ha
  ends a ha hap := by
    rw [h.size] at ha
    rw [h.apeirogonal_eq ha] at hap
    rw [h.stride_eq ha, h.size_eq ha]
    exact ht.ends a ha hap

end Rewired

/-- Edge `e` of shape `a` is edge `f` of shape `b` or a copy of it. -/
def SameClass (t : Tiling α) (a e b f : Nat) : Prop := a = b ∧ e ≡ f [MOD (t.shape a).stride]

instance (t : Tiling α) (a e b f : Nat) : Decidable (t.SameClass a e b f) :=
  inferInstanceAs (Decidable (_ ∧ _))

/-- Rewiring leaves it as it is which edges repeat each other. -/
theorem Rewired.sameClass_iff {t t' : Tiling α} (h : Rewired t t') {a : Nat}
    (ha : a < t.shapes.size) {e b f : Nat} : t'.SameClass a e b f ↔ t.SameClass a e b f := by
  rw [SameClass, SameClass, h.stride_eq ha]

/-- An edge that is glued is so with all its repetitions, and no other one is. -/
theorem Regular.connection?_glue {t : Tiling α} (ht : t.Regular) {i e : Nat}
    (he : e < (t.shape i).size) (target : Connection) {a k : Nat} (ha : a < t.shapes.size)
    (hk : k < (t.shape a).size) : (t.modifyShape i (·.glue e target)).connection? a k =
      if t.SameClass a k i e then some target else t.connection? a k := by
  have ha' : a < (t.modifyShape i (·.glue e target)).shapes.size := by
    rwa [(rewired_glue t i e target).size]
  rw [connection?, getElem?_shape ha', shape_modifyShape t i _ ha, connection?, getElem?_shape ha]
  by_cases hi : i = a
  · subst hi
    simp only [Option.bind_eq_bind, Option.bind_some, if_true, SameClass, true_and]
    exact Shape.getElem?_glue target (ht.stride_dvd i ha) (ht.connections_size i ha) he hk
  · simp [hi, Ne.symm hi, SameClass]

/-- The gluings after two edges have been glued to each other. -/
theorem Regular.connection?_connect {t : Tiling α} (ht : t.Regular) {a e b f : Nat}
    (he : e < (t.shape a).size) (hb : b < t.shapes.size) (hf : f < (t.shape b).size) (mirror : Bool)
    {x k : Nat} (hx : x < t.shapes.size) (hk : k < (t.shape x).size) :
    (t.connect a e b f mirror).connection? x k =
      if t.SameClass x k b f then some ⟨a, e, mirror⟩
      else if t.SameClass x k a e then some ⟨b, f, mirror⟩
      else t.connection? x k := by
  have hg := rewired_glue t a e ⟨b, f, mirror⟩
  have hreg := hg.regular ht
  rw [connect, hreg.connection?_glue (hg.size_eq hb ▸ hf) _ (hg.size ▸ hx) (hg.size_eq hx ▸ hk),
    ht.connection?_glue he _ hx hk]
  simp only [hg.sameClass_iff hx]

/-! ### Gluing up a catalogue -/

/-- A call that glues two edges to each other. -/
structure Gluing where
  shape : Nat
  edge : Nat
  target : Nat
  targetEdge : Nat
  mirror : Bool
  deriving DecidableEq, Repr

/-- The tiling after several gluings. -/
def connectAll (t : Tiling α) (gs : List Gluing) : Tiling α :=
  gs.foldl (fun t g => t.connect g.shape g.edge g.target g.targetEdge g.mirror) t

/-- Edge `e` of shape `a` is one of the two ends of an apeirogon. -/
def IsEnd (t : Tiling α) (a e : Nat) : Prop :=
  (t.shape a).apeirogonal = true ∧ (t.shape a).size ≤ e + 2

instance (t : Tiling α) (a e : Nat) : Decidable (t.IsEnd a e) :=
  inferInstanceAs (Decidable (_ ∧ _))

namespace Gluing

/-- The two edges that are glued. -/
def sides (g : Gluing) : List (Nat × Nat) := [(g.shape, g.edge), (g.target, g.targetEdge)]

/-- The edges are edges of the catalogue, and not ends of apeirogons. -/
def Valid (t : Tiling α) (g : Gluing) : Prop :=
  ∀ x ∈ g.sides, x.1 < t.shapes.size ∧ x.2 < (t.shape x.1).size ∧ ¬ t.IsEnd x.1 x.2

instance (t : Tiling α) (g : Gluing) : Decidable (g.Valid t) :=
  inferInstanceAs (Decidable (∀ x ∈ g.sides, _))

/-- The gluings use no class of edges in common. -/
def Apart (t : Tiling α) (g h : Gluing) : Prop :=
  ∀ x ∈ g.sides, ∀ y ∈ h.sides, ¬ t.SameClass x.1 x.2 y.1 y.2

instance (t : Tiling α) (g h : Gluing) : Decidable (g.Apart t h) :=
  inferInstanceAs (Decidable (∀ x ∈ g.sides, ∀ y ∈ h.sides, _))

/-- Edge `e` of shape `a` is of a class that the gluing uses. -/
def Uses (t : Tiling α) (g : Gluing) (a e : Nat) : Prop :=
  ∃ x ∈ g.sides, t.SameClass a e x.1 x.2

/-- A gluing uses the edges of its two classes. -/
theorem uses_iff {t : Tiling α} {g : Gluing} {a e : Nat} : g.Uses t a e ↔
    t.SameClass a e g.shape g.edge ∨ t.SameClass a e g.target g.targetEdge := by
  simp [Uses, sides]

end Gluing

theorem SameClass.symm {t : Tiling α} {a e b f : Nat} (h : t.SameClass a e b f) :
    t.SameClass b f a e := by
  obtain ⟨rfl, h⟩ := h
  exact ⟨rfl, h.symm⟩

theorem SameClass.trans {t : Tiling α} {a e b f c g : Nat} (h : t.SameClass a e b f)
    (h' : t.SameClass b f c g) : t.SameClass a e c g := by
  obtain ⟨rfl, h⟩ := h
  exact ⟨h'.1, h.trans h'.2⟩

/-- A gluing that uses an edge uses its repetitions. -/
theorem Gluing.Uses.of_sameClass {t : Tiling α} {g : Gluing} {a e b f : Nat} (h : g.Uses t a e)
    (hc : t.SameClass b f a e) : g.Uses t b f := by
  obtain ⟨x, hx, hax⟩ := h
  exact ⟨x, hx, hc.trans hax⟩

/-- An edge leads to its own class, from one end of an apeirogon to the other, or across one of the
gluings `gs`. -/
def Tied (t : Tiling α) (gs : List Gluing) : Prop := ∀ a e c, t.connection? a e = some c →
  t.SameClass c.shape c.edge a e ∨ (t.IsEnd a e ∧ t.IsEnd c.shape c.edge) ∨
    ∃ g ∈ gs, g.Uses t a e ∧ g.Uses t c.shape c.edge

/-- A gluing that shares no class with those before it is not led to from elsewhere. -/
theorem Tied.not_uses {t : Tiling α} {gs : List Gluing} (ht : t.Regular) (h : t.Tied gs)
    {g : Gluing} (hg : g.Valid t) (hgs : ∀ g' ∈ gs, g' = g ∨ g'.Apart t g) {a e : Nat}
    {c : Connection} (hc : t.connection? a e = some c) (hedge : c.edge < (t.shape c.shape).size)
    (hout : ¬ g.Uses t a e) : ¬ g.Uses t c.shape c.edge := by
  intro hin
  rcases h a e c hc with hsame | ⟨-, hend⟩ | ⟨g', hg', huse, huse'⟩
  · exact hout (hin.of_sameClass hsame.symm)
  · -- The stride of an apeirogon is its size, so an end has no other copies.
    obtain ⟨⟨b, f⟩, hx, rfl, hmod⟩ := hin
    obtain ⟨hlt, hlt', hnot⟩ := hg _ hx
    obtain ⟨-, hstride⟩ := ht.ends _ hlt hend.1
    rw [hstride] at hmod
    exact hnot (Nat.ModEq.eq_of_lt_of_lt hmod hedge hlt' ▸ hend)
  · rcases hgs g' hg' with rfl | hapart
    · exact hout huse
    · obtain ⟨x, hx, hcx⟩ := huse'
      obtain ⟨y, hy, hcy⟩ := hin
      exact hapart x hx y hy (hcx.symm.trans hcy)

/-- What is known of a catalogue `t` that has been glued up from `t₀` by the gluings `gs`. -/
structure GluedUp (t₀ t : Tiling α) (gs : List Gluing) : Prop where
  rewired : Rewired t₀ t
  regular : t.Regular
  symmetric : t.Symmetric
  tied : t.Tied gs

theorem Rewired.uses_iff {t t' : Tiling α} (h : Rewired t t') {g : Gluing} {a e : Nat}
    (ha : a < t.shapes.size) : g.Uses t' a e ↔ g.Uses t a e := by
  simp only [Gluing.Uses, h.sameClass_iff ha]

theorem Rewired.isEnd_iff {t t' : Tiling α} (h : Rewired t t') {a e : Nat}
    (ha : a < t.shapes.size) : t'.IsEnd a e ↔ t.IsEnd a e := by
  rw [IsEnd, IsEnd, h.size_eq ha, h.apeirogonal_eq ha]

namespace Gluing.Valid

variable {t : Tiling α} {g : Gluing} (hg : g.Valid t) (ht : t.Regular) {x k : Nat}
  {c : Connection}

include hg

theorem edge_lt : g.edge < (t.shape g.shape).size := (hg (g.shape, g.edge) (by simp [sides])).2.1

theorem target_lt : g.target < t.shapes.size :=
  (hg (g.target, g.targetEdge) (by simp [sides])).1

theorem targetEdge_lt : g.targetEdge < (t.shape g.target).size :=
  (hg (g.target, g.targetEdge) (by simp [sides])).2.1

include ht

/-- Edges that the gluing does not use keep their partners. -/
theorem connection?_of_not_uses (hx : x < t.shapes.size) (hk : k < (t.shape x).size)
    (hout : ¬ g.Uses t x k) :
    (t.connect g.shape g.edge g.target g.targetEdge g.mirror).connection? x k =
      t.connection? x k := by
  rw [uses_iff, not_or] at hout
  rw [ht.connection?_connect hg.edge_lt hg.target_lt hg.targetEdge_lt g.mirror hx hk,
    if_neg hout.2, if_neg hout.1]

/-- A copy of one of the two edges leads to the other. -/
theorem connection?_of_uses (hx : x < t.shapes.size) (hk : k < (t.shape x).size)
    (huse : g.Uses t x k) :
    (t.SameClass x k g.target g.targetEdge ∧
      (t.connect g.shape g.edge g.target g.targetEdge g.mirror).connection? x k =
        some ⟨g.shape, g.edge, g.mirror⟩) ∨
    (t.SameClass x k g.shape g.edge ∧
      (t.connect g.shape g.edge g.target g.targetEdge g.mirror).connection? x k =
        some ⟨g.target, g.targetEdge, g.mirror⟩) := by
  rw [ht.connection?_connect hg.edge_lt hg.target_lt hg.targetEdge_lt g.mirror hx hk]
  by_cases htarget : t.SameClass x k g.target g.targetEdge
  · exact .inl ⟨htarget, if_pos htarget⟩
  · have hside := (uses_iff.mp huse).resolve_right htarget
    exact .inr ⟨hside, by rw [if_neg htarget, if_pos hside]⟩

/-- What an edge leads to that the gluing uses, the gluing uses, and it leads back to a copy. -/
theorem leads_back (hx : x < t.shapes.size) (hk : k < (t.shape x).size) (huse : g.Uses t x k)
    (hc : (t.connect g.shape g.edge g.target g.targetEdge g.mirror).connection? x k = some c) :
    c.shape < t.shapes.size ∧ g.Uses t c.shape c.edge ∧ ∃ back,
      (t.connect g.shape g.edge g.target g.targetEdge g.mirror).connection? c.shape c.edge =
        some back ∧ back.mirror = c.mirror ∧ t.SameClass back.shape back.edge x k := by
  have hside : g.Uses t g.shape g.edge := uses_iff.mpr (.inl ⟨rfl, rfl⟩)
  have htarget : g.Uses t g.target g.targetEdge := uses_iff.mpr (.inr ⟨rfl, rfl⟩)
  have hlt := (hg (g.shape, g.edge) (by simp [sides])).1
  obtain ⟨hclass, hx'⟩ | ⟨hclass, hx'⟩ := hg.connection?_of_uses ht hx hk huse
  · obtain rfl := Option.some.inj (hx'.symm.trans hc)
    refine ⟨hlt, hside, ?_⟩
    obtain ⟨hself, hback⟩ | ⟨-, hback⟩ := hg.connection?_of_uses ht hlt hg.edge_lt hside
    · exact ⟨_, hback, rfl, hself.trans hclass.symm⟩
    · exact ⟨_, hback, rfl, hclass.symm⟩
  · obtain rfl := Option.some.inj (hx'.symm.trans hc)
    refine ⟨hg.target_lt, htarget, ?_⟩
    obtain ⟨-, hback⟩ | ⟨hself, hback⟩ :=
      hg.connection?_of_uses ht hg.target_lt hg.targetEdge_lt htarget
    · exact ⟨_, hback, rfl, hclass.symm⟩
    · exact ⟨_, hback, rfl, hself.trans hclass.symm⟩

end Gluing.Valid

/-- **One gluing.**  Gluing two classes of edges that no other gluing has used keeps gluings
symmetric. -/
theorem GluedUp.connect {t₀ t : Tiling α} {gs : List Gluing} (h : GluedUp t₀ t gs) {g : Gluing}
    (hg : g.Valid t) (hgs : ∀ g' ∈ gs, g' = g ∨ g'.Apart t g) :
    GluedUp t₀ (t.connect g.shape g.edge g.target g.targetEdge g.mirror) (gs ++ [g]) := by
  have hw := rewired_connect t g.shape g.edge g.target g.targetEdge g.mirror
  have hreg := hw.regular h.regular
  have hkept {x k : Nat} := hg.connection?_of_not_uses h.regular (x := x) (k := k)
  have hglued {x k : Nat} {c : Connection} := hg.leads_back h.regular (x := x) (k := k) (c := c)
  generalize t.connect g.shape g.edge g.target g.targetEdge g.mirror = t' at hw hreg hkept hglued ⊢
  -- The partners of edges that the gluing does not use are edges that it does not use.
  have hpartner {x k : Nat} {c : Connection} (hc : t.connection? x k = some c)
      (hout : ¬ g.Uses t x k) : c.shape < t.shapes.size ∧ c.edge < (t.shape c.shape).size ∧
        ¬ g.Uses t c.shape c.edge := by
    obtain ⟨back, hback, -⟩ := h.symmetric x k c hc
    obtain ⟨hs, he⟩ := h.regular.edge_lt hback
    exact ⟨hs, he, h.tied.not_uses h.regular hg hgs hc he hout⟩
  refine ⟨h.rewired.trans hw, hreg, fun x k c hc => ?_, fun x k c hc => ?_⟩
  · obtain ⟨hx, hk⟩ := hreg.edge_lt hc
    rw [hw.size] at hx
    rw [hw.size_eq hx] at hk
    rw [hw.stride_eq hx]
    by_cases huse : g.Uses t x k
    · obtain ⟨-, -, back, hback, hmirror, rfl, hmod⟩ := hglued hx hk huse hc
      exact ⟨back, hback, rfl, hmirror, hmod⟩
    · rw [hkept hx hk huse] at hc
      obtain ⟨hs, he, hout⟩ := hpartner hc huse
      rw [hkept hs he hout]
      exact h.symmetric x k c hc
  · obtain ⟨hx, hk⟩ := hreg.edge_lt hc
    rw [hw.size] at hx
    rw [hw.size_eq hx] at hk
    by_cases huse : g.Uses t x k
    · obtain ⟨hs, huse', -⟩ := hglued hx hk huse hc
      exact .inr (.inr ⟨g, by simp, (hw.uses_iff hx).mpr huse, (hw.uses_iff hs).mpr huse'⟩)
    · rw [hkept hx hk huse] at hc
      obtain ⟨hs, he, -⟩ := hpartner hc huse
      rw [hw.sameClass_iff hs, hw.isEnd_iff hx, hw.isEnd_iff hs]
      refine (h.tied x k c hc).imp_right (.imp_right ?_)
      rintro ⟨g', hg', huse', hin⟩
      exact ⟨g', by simp [hg'], (hw.uses_iff hx).mpr huse', (hw.uses_iff hs).mpr hin⟩

/-- Rewiring takes no edge away. -/
theorem Rewired.valid {t t' : Tiling α} (h : Rewired t t') {g : Gluing} (hg : g.Valid t) :
    g.Valid t' := by
  intro x hx
  obtain ⟨hlt, he, hend⟩ := hg x hx
  exact ⟨h.size ▸ hlt, h.size_eq hlt ▸ he, fun h' => hend ((h.isEnd_iff hlt).mp h')⟩

/-- Rewiring does not bring gluings together. -/
theorem Rewired.apart {t t' : Tiling α} (h : Rewired t t') {g g' : Gluing} (hg : g.Valid t)
    (hgg' : g.Apart t g') : g.Apart t' g' :=
  fun x hx y hy hxy => hgg' x hx y hy ((h.sameClass_iff (hg x hx).1).mp hxy)

/-- Gluing up a catalogue whose edges lead to their own classes or from one end of an apeirogon to
the other. -/
theorem gluedUp_connectAll {t : Tiling α} (ht : t.Regular) (hsym : t.Symmetric) (htied : t.Tied [])
    {gs : List Gluing} (hvalid : ∀ g ∈ gs, g.Valid t)
    (hapart : ∀ g ∈ gs, ∀ g' ∈ gs, g = g' ∨ g.Apart t g') : GluedUp t (t.connectAll gs) gs := by
  induction gs using List.reverseRecOn with
  | nil => exact ⟨⟨rfl, fun a _ => ⟨_, rfl, rfl⟩⟩, ht, hsym, htied⟩
  | append_singleton gs g ih =>
      have h := ih (fun g' hg' => hvalid g' (List.mem_append_left _ hg')) fun g' hg' g'' hg'' =>
        hapart g' (List.mem_append_left _ hg') g'' (List.mem_append_left _ hg'')
      rw [connectAll, List.foldl_append, List.foldl_cons, List.foldl_nil]
      refine h.connect (h.rewired.valid (hvalid g (by simp))) fun g' hg' => ?_
      refine (hapart g' (List.mem_append_left _ hg') g (by simp)).imp_right fun ha => ?_
      exact h.rewired.apart (hvalid g' (List.mem_append_left _ hg')) ha

end Tiling

/-! ### Catalogues that have not been glued yet -/

namespace Shape

/-- Edge `e` of a shape that has not been glued may lead to edge `f`: the other end of an apeirogon,
or a copy of `e`. -/
structure Mate (s : Shape α) (e f : Nat) : Prop where
  ends : s.apeirogonal = true → s.size ≤ e + 2 → e + f + 3 = 2 * s.size
  copy : (s.apeirogonal = true → e + 2 < s.size) → f ≡ e [MOD s.stride]

/-- What is known of a shape that has not been glued. -/
structure Unglued (i : Nat) (r : Shape α) : Prop where
  id : r.id = i
  angles_size : r.angles.size = r.size
  connections_size : r.connections.size = r.size
  stride_dvd : r.stride ∣ r.size
  ends : r.apeirogonal = true → 3 ≤ r.size ∧ r.stride = r.size
  connection : ∀ e < r.size, ∃ f < r.size, r.connections[e]? = some ⟨i, f, false⟩ ∧ r.Mate e f

end Shape

namespace Tiling

variable {t : Tiling α}

/-- A tiling where each edge is glued to itself is regular. -/
theorem regular_of_unglued (h : ∀ a < t.shapes.size, (t.shape a).Unglued a) : t.Regular :=
  ⟨fun a ha => (h a ha).id, fun a ha => (h a ha).angles_size, fun a ha => (h a ha).connections_size,
    fun a ha => (h a ha).stride_dvd, fun a ha => (h a ha).ends⟩

/-- Edges lead to edges of their own shape. -/
theorem mate_of_unglued (h : ∀ a < t.shapes.size, (t.shape a).Unglued a) {a e : Nat}
    {c : Connection} (hc : t.connection? a e = some c) : ∃ f, c = ⟨a, f, false⟩ ∧
      a < t.shapes.size ∧ e < (t.shape a).size ∧ f < (t.shape a).size ∧ (t.shape a).Mate e f := by
  obtain ⟨ha, he⟩ := (regular_of_unglued h).edge_lt hc
  obtain ⟨f, hf, hcf, hmate⟩ := (h a ha).connection e he
  have heq := (connection?_eq_some_iff.mp hc).2.symm.trans hcf
  exact ⟨f, Option.some.inj heq, ha, he, hf, hmate⟩

/-- A tiling where each edge is glued to itself is symmetric. -/
theorem symmetric_of_unglued (h : ∀ a < t.shapes.size, (t.shape a).Unglued a) : t.Symmetric := by
  intro a e c hc
  obtain ⟨f, rfl, ha, he, hf, hmate⟩ := mate_of_unglued h hc
  obtain ⟨f', hf', hcf', hmate'⟩ := (h a ha).connection f hf
  refine ⟨_, connection?_eq_some_iff.mpr ⟨ha, hcf'⟩, rfl, rfl, ?_⟩
  change f' ≡ e [MOD (t.shape a).stride]
  by_cases hend : t.IsEnd a e
  · -- The other end leads back.
    have hsum := hmate.ends hend.1 hend.2
    have hsum' := hmate'.ends hend.1 (by omega)
    rw [show f' = e by omega]
  · have hout : (t.shape a).apeirogonal = true → e + 2 < (t.shape a).size := fun hap =>
      Nat.lt_of_not_le fun hsize => hend ⟨hap, hsize⟩
    have hcopy := hmate.copy hout
    refine (hmate'.copy fun hap => ?_).trans hcopy
    rw [((h a ha).ends hap).2] at hcopy
    exact Nat.ModEq.eq_of_lt_of_lt hcopy hf he ▸ hout hap

/-- A tiling where each edge is glued to itself is tied by no gluing. -/
theorem tied_of_unglued (h : ∀ a < t.shapes.size, (t.shape a).Unglued a) : t.Tied [] := by
  intro a e c hc
  obtain ⟨f, rfl, ha, he, hf, hmate⟩ := mate_of_unglued h hc
  by_cases hend : t.IsEnd a e
  · have := hmate.ends hend.1 hend.2
    have hsize : (t.shape a).size ≤ f + 2 := by omega
    exact .inr (.inl ⟨hend, hend.1, hsize⟩)
  · refine .inl ⟨rfl, hmate.copy fun hap => ?_⟩
    exact Nat.lt_of_not_le fun hsize => hend ⟨hap, hsize⟩

end Tiling

/-! ### Fresh shapes -/

namespace Shape

variable [Scalar α]

/-- Shape number `i` as `resetConnections` leaves it and `setRepeat` may have left it after that.
It repeats a number of times that divides its size; an apeirogon does not repeat, and it has an edge
besides its ends. -/
structure Fresh (i : Nat) (r : Shape α) : Prop where
  made : ∃ s : Shape α, s.id = i ∧ s.angles.size = s.size ∧
    (r = s.resetConnections ∨ ∃ count, s.resetConnections.setRepeat count = some r)
  closed : r.apeirogonal = false → r.repeatCount ∣ r.size
  unbounded : r.apeirogonal = true → 3 ≤ r.size ∧ r.repeatCount = 1

/-- Resetting glues every edge to itself and the ends of an apeirogon to each other. -/
theorem getElem?_resetConnections (s : Shape α) {e : Nat} (he : e < s.size) :
    s.resetConnections.connections[e]? = some ⟨s.id,
      if s.apeirogonal ∧ s.size ≤ e + 2 ∧ 2 ≤ s.size then 2 * s.size - 3 - e else e, false⟩ := by
  simp only [resetConnections, Array.getElem?_ofFn, he, dif_pos, Option.some.injEq,
    Connection.mk.injEq, true_and, and_true, Bool.and_eq_true, decide_eq_true_eq, beq_iff_eq]
  by_cases hap : s.apeirogonal
  · simp only [hap, true_and]
    grind
  · simp [hap]

/-- Where the edges of a shape lead that has been reset. -/
theorem resetConnections_connection {s : Shape α} (hends : s.apeirogonal = true → 3 ≤ s.size)
    {e : Nat} (he : e < s.size) :
    ∃ f < s.size, s.resetConnections.connections[e]? = some ⟨s.id, f, false⟩ ∧
      (s.apeirogonal = true → s.size ≤ e + 2 → e + f + 3 = 2 * s.size) ∧
      ((s.apeirogonal = true → e + 2 < s.size) → f = e) := by
  rw [getElem?_resetConnections s he]
  by_cases hend : s.apeirogonal ∧ s.size ≤ e + 2
  · have hsize := hends hend.1
    refine ⟨2 * s.size - 3 - e, by omega, by rw [if_pos ⟨hend.1, hend.2, by omega⟩],
      fun _ _ => by omega, fun hnot => absurd (hnot hend.1) (Nat.not_lt_of_le hend.2)⟩
  · exact ⟨e, he, by rw [if_neg fun h => hend ⟨h.1, h.2.1⟩],
      fun hap hsize => absurd ⟨hap, hsize⟩ hend, fun _ => rfl⟩

/-- What is left when a shape that has been reset is declared to repeat: every edge leads to the
first copy of the edge. -/
theorem setRepeat_eq {s r : Shape α} {count : Nat}
    (h : s.resetConnections.setRepeat count = some r) (hangles : s.angles.size = s.size) :
    0 < count ∧ count ∣ s.size ∧ ∃ cs : Array Connection, cs.size = s.size ∧
      r = { s.resetConnections with repeatCount := count, connections := cs } ∧
      ∀ e < s.size, cs[e]? = s.resetConnections.connections[e % (s.size / count)]? := by
  have hsize : s.resetConnections.connections.size = s.size := by simp [resetConnections]
  unfold setRepeat at h
  simp only [show s.resetConnections.angles = s.angles from rfl, hangles] at h
  split at h
  · cases h
  · rename_i hcount
    rw [not_or, not_ne_iff] at hcount
    have hpos := Nat.pos_of_ne_zero hcount.1
    have hdvd := Nat.dvd_of_mod_eq_zero hcount.2
    refine ⟨hpos, hdvd, _, Array.size_mapIdx.trans hsize, (Option.some.inj h).symm, fun e he => ?_⟩
    have hstride : 0 < s.size / count := Nat.div_pos (Nat.le_of_dvd (by omega) hdvd) hpos
    have hlt : e % (s.size / count) < s.resetConnections.connections.size := by
      have := Nat.mod_le e (s.size / count)
      omega
    have he' : e < s.resetConnections.connections.size := by omega
    rw [Array.getElem?_mapIdx, Array.getElem?_eq_getElem he', Option.map_some, if_pos he,
      Array.getElem?_eq_getElem hlt, Option.getD_some]

/-- The repetitions of a fresh shape divide it, and an apeirogon has none. -/
theorem Fresh.stride {i : Nat} {r : Shape α} (h : Fresh i r) : r.stride ∣ r.size ∧
    (r.apeirogonal = true → 3 ≤ r.size ∧ r.stride = r.size) := by
  by_cases hap : r.apeirogonal = true
  · obtain ⟨hsize, hcount⟩ := h.unbounded hap
    have hstride : r.stride = r.size := by simp [Shape.stride, hcount]
    exact ⟨hstride ▸ dvd_rfl, fun _ => ⟨hsize, hstride⟩⟩
  · refine ⟨?_, fun h => absurd h hap⟩
    have hdvd := h.closed (Bool.eq_false_iff.mpr hap)
    rcases Nat.eq_zero_or_pos r.size with hzero | hpos
    · rw [hzero]
      exact dvd_zero _
    · have hmax : Nat.max r.repeatCount 1 = r.repeatCount :=
        Nat.max_eq_left (Nat.pos_of_dvd_of_pos hdvd hpos)
      rw [Shape.stride, hmax]
      exact Nat.div_dvd_of_dvd hdvd

/-- A fresh shape is glued to nothing but itself. -/
theorem Fresh.unglued {i : Nat} {r : Shape α} (h : Fresh i r) : Unglued i r := by
  obtain ⟨hdvd, hends⟩ := h.stride
  obtain ⟨s, rfl, hangles, rfl | ⟨count, hr⟩⟩ := h.made
  · refine ⟨rfl, hangles, by simp [resetConnections, size], hdvd, hends, fun e he => ?_⟩
    obtain ⟨f, hf, hc, hend, hcopy⟩ := resetConnections_connection (fun hap => (hends hap).1) he
    exact ⟨f, hf, hc, hend, fun h => hcopy h ▸ Nat.ModEq.refl _⟩
  · obtain ⟨hpos, hcount, cs, hsize, rfl, hcs⟩ := setRepeat_eq hr hangles
    refine ⟨rfl, hangles, hsize, hdvd, hends, fun e he => ?_⟩
    change e < s.size at he
    have hstride : 0 < s.size / count := Nat.div_pos (Nat.le_of_dvd (by omega) hcount) hpos
    have hlt : e % (s.size / count) < s.size := Nat.lt_of_le_of_lt (Nat.mod_le _ _) he
    obtain ⟨f, hf, hc, hend, hcopy⟩ := resetConnections_connection (fun hap => (hends hap).1) hlt
    refine ⟨f, hf, (hcs e he).trans hc, ?_⟩
    by_cases hap : s.apeirogonal = true
    · -- An edge of an apeirogon is its own first copy.
      have hone : count = 1 := (h.unbounded hap).2
      have hfirst : e % (s.size / count) = e := by
        rw [hone, Nat.div_one, Nat.mod_eq_of_lt he]
      rw [hfirst] at hend hcopy
      exact ⟨hend, fun h => hcopy h ▸ Nat.ModEq.refl _⟩
    · have hmax : Nat.max count 1 = count := Nat.max_eq_left hpos
      refine ⟨fun h => absurd h hap, fun _ => ?_⟩
      rw [hcopy fun h => absurd h hap, Shape.stride]
      change e % (s.size / count) ≡ e [MOD s.size / Nat.max count 1]
      rw [hmax]
      exact Nat.mod_modEq _ _

end Shape

namespace Tiling

/-- **Gluing each edge once keeps gluings symmetric.**  A catalogue is glued up from fresh shapes by
gluings of which no two use the same class of edges and none uses an end of an apeirogon.  After
each of them no edge is asymmetric, and none is in the double cover. -/
theorem connectAll_symmetric [Scalar α] {t : Tiling α}
    (ht : ∀ a < t.shapes.size, (t.shape a).Fresh a) {gs : List Gluing}
    (hvalid : ∀ g ∈ gs, g.Valid t)
    (hapart : ∀ g ∈ gs, ∀ g' ∈ gs, g = g' ∨ g.Apart t g') :
    ∀ hs, hs <+: gs → (t.connectAll hs).asymmetricEdges = [] ∧
      (t.connectAll hs).doubleCover.asymmetricEdges = [] := by
  intro hs hle
  have hunglued := fun a ha => (ht a ha).unglued
  have h : GluedUp t (t.connectAll hs) hs :=
    gluedUp_connectAll (regular_of_unglued hunglued) (symmetric_of_unglued hunglued)
      (tied_of_unglued hunglued) (fun g hg => hvalid g (hle.subset hg))
      fun g hg g' hg' => hapart g (hle.subset hg) g' (hle.subset hg')
  exact ⟨h.regular.asymmetricEdges_eq_nil h.symmetric,
    h.regular.doubleCover_asymmetricEdges h.symmetric⟩

/-- A shape with `n` edges that are not glued yet. -/
def blank (id n : Nat) (apeirogonal : Bool) (repeatCount : Nat) : Shape Float :=
  { (Shape.empty : Shape Float) with
    id, apeirogonal, repeatCount
    vertices := Array.replicate n Point.origin
    angles := Array.replicate n 1
    edges := Array.replicate n (.finite 1) }

/-- A square that repeats twice, a triangle that repeats thrice but has kept its gluings, and an
apeirogon with two edges besides its ends. -/
def patchwork : Tiling Float :=
  { (Tiling.empty : Tiling Float) with
    shapes := #[((blank 0 4 false 1).resetConnections.setRepeat 2).getD Shape.empty,
      (blank 1 3 false 3).resetConnections, (blank 2 4 true 1).resetConnections] }

/-- Gluings of `patchwork`: a square to a triangle, a class of edges to itself, and two edges of the
apeirogon to each other. -/
def seams : List Gluing := [⟨0, 0, 1, 2, true⟩, ⟨0, 1, 0, 3, false⟩, ⟨2, 0, 2, 1, true⟩]

/-- The gluings of `patchwork` are symmetric, and so are those of its double cover. -/
theorem connectAll_symmetric_patchwork :
    (∀ a < patchwork.shapes.size, (patchwork.shape a).Fresh a) ∧
    (patchwork.connectAll seams).asymmetricEdges = [] ∧
    (patchwork.connectAll seams).doubleCover.asymmetricEdges = [] := by
  have hfresh : ∀ a < patchwork.shapes.size, (patchwork.shape a).Fresh a := by
    intro a ha
    have : a = 0 ∨ a = 1 ∨ a = 2 := by
      change a < 3 at ha
      omega
    rcases this with rfl | rfl | rfl
    · exact ⟨⟨blank 0 4 false 1, rfl, rfl, .inr ⟨2, rfl⟩⟩, by decide, by decide⟩
    · exact ⟨⟨blank 1 3 false 3, rfl, rfl, .inl rfl⟩, by decide, by decide⟩
    · exact ⟨⟨blank 2 4 true 1, rfl, rfl, .inl rfl⟩, by decide, by decide⟩
  exact ⟨hfresh, connectAll_symmetric hfresh (by decide) (by decide) seams (List.prefix_refl _)⟩

end Tiling

end Mosaic
