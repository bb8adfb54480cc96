import Mosaic.Conversion.Minimise
import Mosaic.Proofs.Conversion.Coherence

/-!
# Conversion — what minimisation does to the records

Minimisation identifies directions of classes of equal degree, so it never fails; it adds no record
and turns all classes of a target alike (`Surveying.Folds`, `Surveying.minimise_total`).  Only
directions whose profiles agree are identified (`EqualTable.holds_settle`), but nothing is known of
what lies across their edges.
-/

namespace Mosaic

namespace EqualTable

variable {k i j : Nat} {next : Nat → Nat} {t : EqualTable}

theorem holds_ofRelation {r : Nat → Nat → Bool} (hj : j < k) :
    holds k (ofRelation k r) i j = if i < k then r i j else false := by
  have hdiv : (i * k + j) / k = i := by
    rw [Nat.mul_comm, Nat.mul_add_div (Nat.zero_lt_of_lt hj), Nat.div_eq_of_lt hj, Nat.add_zero]
  have hmod : (i * k + j) % k = j := by
    rw [Nat.mul_comm, Nat.mul_add_mod, Nat.mod_eq_of_lt hj]
  have hlt : i * k + j < k * k ↔ i < k := by
    rw [← Nat.div_lt_iff_lt_mul (Nat.zero_lt_of_lt hj), hdiv]
  unfold holds ofRelation
  rw [Array.getElem?_ofFn]
  simp only [hlt, hdiv, hmod]
  split <;> rfl

theorem holds_settleFrom {fuel : Nat} (hj : j < k) (h : holds k (settleFrom k next fuel t) i j) :
    holds k t i j = true := by
  induction fuel generalizing t with
  | zero => exact h
  | succ fuel ih =>
      rw [settleFrom] at h
      split at h
      · exact h
      · have hswept := ih h
        rw [sweep, holds_ofRelation hj] at hswept
        split at hswept
        · exact (Bool.and_eq_true _ _ |>.mp hswept).1
        · cases hswept

/-- Sweeping only loses pairs. -/
theorem holds_settle {r : Nat → Nat → Bool} (hj : j < k)
    (h : holds k (settle k next (ofRelation k r)) i j) : r i j = true := by
  have hfirst := holds_settleFrom hj h
  rw [holds_ofRelation hj] at hfirst
  split at hfirst
  · exact hfirst
  · cases hfirst

/-- Sweeping loses nothing of a relation that is kept along successors. -/
theorem holds_settleFrom_of_stable {fuel : Nat} (hnext : ∀ i < k, next i < k)
    (h : ∀ i < k, ∀ j < k, holds k t i j = true → holds k t (next i) (next j) = true)
    (hi : i < k) (hj : j < k) : holds k (settleFrom k next fuel t) i j = holds k t i j := by
  induction fuel generalizing t with
  | zero => rfl
  | succ fuel ih =>
      have hswept : ∀ i < k, ∀ j < k, holds k (sweep k next t) i j = holds k t i j := by
        intro i hi j hj
        rw [sweep, holds_ofRelation hj, if_pos hi, Bool.and_eq_left_iff_imp]
        exact h i hi j hj
      rw [settleFrom]
      split
      · rfl
      · refine (ih fun i hi j hj => ?_).trans (hswept i hi j hj)
        rw [hswept i hi j hj, hswept _ (hnext i hi) _ (hnext j hj)]
        exact h i hi j hj

end EqualTable

namespace Surveying

variable {α σ κ : Type} (cx : CellComplex α σ κ)

/-- Classes of `s` have been joined, and those of one target have been turned alike.  What is its
own target has been so before, and has kept its sample. -/
structure Folds (s u : Survey σ κ) : Prop where
  source : u.source = s.source
  recorded : ∀ k : Nat, (u.classes[k]?).isSome = (s.classes[k]?).isSome
  degree : ∀ {k : Nat} {r r' : ClassRecord κ}, s.classes[k]? = some r → u.classes[k]? = some r' →
    cx.degree s.source r'.sample = cx.degree s.source r.sample
  period : ∀ {k : Nat} {r r' : ClassRecord κ}, s.classes[k]? = some r → u.classes[k]? = some r' →
    r'.period ∣ r.period
  follows : ∀ {k : Nat} {r r' r'' : ClassRecord κ}, s.classes[k]? = some r →
    u.classes[k]? = some r' → u.classes[r.target]? = some r'' →
    r'.target = r''.target ∧ (r'.shift : Int) ≡ r.shift + r''.shift [ZMOD r'.period]
  root : ∀ {k : Nat} {r' : ClassRecord κ}, u.classes[k]? = some r' → r'.target = k →
    ∃ r : ClassRecord κ, s.classes[k]? = some r ∧ r.target = k ∧ r.sample = r'.sample

variable {cx} {s₀ : σ} {s t u : Survey σ κ} {w w' : Walker κ}

section

variable {p k k₁ k₂ : Nat} {d : Int} {r r₁ r₂ : ClassRecord κ} (hs : Rooted cx s₀ s)
  (h₁ : s.classes[k₁]? = some r₁) (hr : s.classes[k]? = some r)

include hs h₁ hr

/-- A record has the target of one of the two that are joined, or it stays as it is. -/
theorem Rooted.join_sample (h₂ : s.classes[k₂]? = some r₂)
    (hdegree : cx.degree s.source r₁.sample = cx.degree s.source r₂.sample)
    (hp₁ : p ∣ r₁.period) (hp₂ : p ∣ r₂.period) :
    cx.degree s.source (r.join r₁ r₂ p d).sample = cx.degree s.source r.sample ∧
      (r.join r₁ r₂ p d).period ∣ r.period := by
  refine ⟨?_, hs.fitting.join_period_dvd h₁ h₂ hp₁ hp₂ hr⟩
  by_cases hor : r.target = r₁.target ∨ r.target = r₂.target
  · obtain ⟨-, hsample, -⟩ := ClassRecord.join_of_or (p := p) (d := d) hor
      fun heq => (hs.agree hr h₁ heq).1
    rw [hsample]
    rcases hor with ht | ht
    · rw [(hs.agree hr h₁ ht).1]
    · rw [(hs.agree hr h₂ ht).1, hdegree]
  · rw [not_or] at hor
    rw [ClassRecord.join_of_ne hor.1 hor.2]

/-- A record is turned by as much as that of its target. -/
theorem Rooted.join_follows (hp : 0 < p) {R : ClassRecord κ} (htarget : R.target = r.target)
    (hshift : R.shift = 0) : (r.join r₁ r₂ p d).target = (R.join r₁ r₂ p d).target ∧
      ((r.join r₁ r₂ p d).shift : Int) ≡ r.shift + (R.join r₁ r₂ p d).shift
        [ZMOD (r.join r₁ r₂ p d).period] := by
  refine ⟨by rw [ClassRecord.join_target, ClassRecord.join_target, htarget], ?_⟩
  by_cases hor : r.target = r₁.target ∨ r.target = r₂.target
  · have hturn := ClassRecord.join_shift (d := d) hp hor
    have hturn' := ClassRecord.join_shift (d := d) hp (htarget.symm ▸ hor)
    rw [htarget, hshift, Nat.cast_zero, zero_add] at hturn'
    rw [(ClassRecord.join_of_or hor fun heq => (hs.agree hr h₁ heq).1).2.2]
    exact hturn.trans (hturn'.symm.add_left _)
  · have hor' := hor
    rw [← htarget] at hor'
    rw [not_or] at hor hor'
    rw [ClassRecord.join_of_ne hor.1 hor.2, ClassRecord.join_of_ne hor'.1 hor'.2, hshift,
      Nat.cast_zero, add_zero]

/-- What is its own target now was so, and has kept its sample. -/
theorem Rooted.join_root (htarget : (r.join r₁ r₂ p d).target = k) :
    r.target = k ∧ r.sample = (r.join r₁ r₂ p d).sample := by
  have hk := hs.fitting.join_root h₁ hr htarget
  refine ⟨hk, ?_⟩
  by_cases hor : r.target = r₁.target ∨ r.target = r₂.target
  · obtain ⟨ht, hsample, -⟩ := ClassRecord.join_of_or (p := p) (d := d) hor
      fun heq => (hs.agree hr h₁ heq).1
    rw [hsample, (hs.agree hr h₁ (hk.trans (htarget.symm.trans ht))).1]
  · rw [not_or] at hor
    rw [ClassRecord.join_of_ne hor.1 hor.2]

end

namespace Folds

theorem refl (hs : Rooted cx s₀ s) : Folds cx s s := by
  refine ⟨rfl, fun _ => rfl, fun hr hr' => ?_, fun hr hr' => ?_, fun hr hr' hr'' => ?_,
    fun hr htarget => ⟨_, hr, htarget, rfl⟩⟩
  · cases hr.symm.trans hr'
    rfl
  · cases hr.symm.trans hr'
    exact dvd_rfl
  · cases hr.symm.trans hr'
    obtain ⟨R, hR, htarget, hshift⟩ := hs.root hr
    cases hR.symm.trans hr''
    rw [hshift, Nat.cast_zero, add_zero]
    exact ⟨htarget.symm, rfl⟩

theorem exists_record (h : Folds cx s u) {k : Nat} {r : ClassRecord κ}
    (hr : s.classes[k]? = some r) : ∃ r', u.classes[k]? = some r' :=
  Option.isSome_iff_exists.mp ((h.recorded k).trans (Option.isSome_iff_exists.mpr ⟨r, hr⟩))

/-- The turns add up. -/
theorem trans (hu : Rooted cx s₀ u) (ht : Coherent cx t) (h : Folds cx s u)
    (h' : Folds cx u t) : Folds cx s t where
  source := h'.source.trans h.source
  recorded k := (h'.recorded k).trans (h.recorded k)
  degree hr hr'' := by
    obtain ⟨r', hr'⟩ := h.exists_record hr
    rw [← h.degree hr hr', ← h.source, h'.degree hr' hr'']
  period hr hr'' := by
    obtain ⟨r', hr'⟩ := h.exists_record hr
    exact (h'.period hr' hr'').trans (h.period hr hr')
  follows {k r r'' R''} hr hr'' hR'' := by
    obtain ⟨r', hr'⟩ := h.exists_record hr
    obtain ⟨R', hR'⟩ : ∃ R', u.classes[r.target]? = some R' :=
      Option.isSome_iff_exists.mp ((h'.recorded _).symm.trans
        (Option.isSome_iff_exists.mpr ⟨R'', hR''⟩))
    obtain ⟨htarget, hshift⟩ := h.follows hr hr' hR'
    -- Both records have one target in between, and are turned with its record then.
    obtain ⟨R, hR, -⟩ := hu.root hr'
    obtain ⟨Q, hQ⟩ := h'.exists_record hR
    obtain ⟨htarget₁, hshift₁⟩ := h'.follows hr' hr'' hQ
    obtain ⟨htarget₂, hshift₂⟩ := h'.follows hR' hR'' (htarget ▸ hQ)
    have hboth : r''.target = R''.target := htarget₁.trans htarget₂.symm
    refine ⟨hboth, ?_⟩
    rw [← (ht.agree hr'' hR'' hboth).2] at hshift₂
    calc (r''.shift : Int)
        ≡ r'.shift + Q.shift [ZMOD r''.period] := hshift₁
      _ ≡ r.shift + R'.shift + Q.shift [ZMOD r''.period] :=
          (hshift.of_dvd (Int.natCast_dvd_natCast.mpr (h'.period hr' hr''))).add_right _
      _ = r.shift + (R'.shift + Q.shift) := add_assoc _ _ _
      _ ≡ r.shift + R''.shift [ZMOD r''.period] := hshift₂.symm.add_left _
  root hr'' htarget := by
    obtain ⟨r', hr', htarget', hsample'⟩ := h'.root hr'' htarget
    obtain ⟨r, hr, htarget, hsample⟩ := h.root hr' htarget'
    exact ⟨r, hr, htarget, hsample.trans hsample'⟩

/-- Joining records whose samples have as many edges. -/
theorem of_joined {k₁ k₂ : Nat} {r₁ r₂ : ClassRecord κ} (hs : Rooted cx s₀ s)
    (h₁ : s.classes[k₁]? = some r₁) (h₂ : s.classes[k₂]? = some r₂)
    (hdegree : cx.degree s.source r₁.sample = cx.degree s.source r₂.sample)
    (hjoined : Joined s r₁ r₂ t) : Folds cx s t := by
  cases hjoined with
  | same => exact .refl hs
  | @joined p n d cs hp₁ hp₂ _ hcs =>
      have hp : 0 < p := Nat.pos_of_dvd_of_pos hp₁ (hs.period_pos h₁)
      have hget {k : Nat} {r r' : ClassRecord κ} (hr : s.classes[k]? = some r)
          (hr' : cs[k]? = some r') : r' = r.join r₁ r₂ p d := by
        rw [hcs, hr, Option.map_some] at hr'
        exact (Option.some.inj hr').symm
      constructor
      case source => rfl
      case recorded => exact fun k => by rw [hcs, Option.isSome_map]
      case degree =>
        intro k r r' hr hr'
        rw [hget hr hr']
        exact (hs.join_sample h₁ hr h₂ hdegree hp₁ hp₂).1
      case period =>
        intro k r r' hr hr'
        rw [hget hr hr']
        exact (hs.join_sample h₁ hr h₂ hdegree hp₁ hp₂).2
      case follows =>
        intro k r r' r'' hr hr' hr''
        obtain ⟨R, hR, htarget, hshift⟩ := hs.root hr
        rw [hget hr hr', hget hR hr'']
        exact hs.join_follows h₁ hr hp htarget hshift
      case root =>
        intro k r' hr' htarget
        rw [hcs] at hr'
        obtain ⟨r, hr, rfl⟩ := Option.map_eq_some_iff.mp hr'
        exact ⟨r, hr, hs.join_root h₁ hr htarget⟩

end Folds

/-- Walkers in cells of equal degree whose classes are recorded are identified. -/
theorem identify_total {r r' : ClassRecord κ} (hu : Coherent cx u)
    (hr : u.classes[cx.classOf u.source w.cell]? = some r)
    (hr' : u.classes[cx.classOf u.source w'.cell]? = some r')
    (hdegree : cx.degree u.source w.cell = cx.degree u.source w'.cell) :
    ∃ t, identify cx w w' u = .ok () t ∧ Joined u r r' t := by
  obtain ⟨t, ht⟩ : ∃ t, identify cx w w' u = .ok () t := by
    rw [identify_eq hr hr', if_pos hdegree]
    exact ⟨_, rfl⟩
  obtain ⟨r₁, r₂, s₁, s₂, hr₁, hr₂, -, hmatch⟩ := identify_ok ht
  cases (record_eq_ok hr).symm.trans hr₁
  cases (record_eq_ok hr').symm.trans hr₂
  exact ⟨t, ht, hu.joined hr hr' hmatch⟩

/-- The walker that stands for a direction of a class of `s`, which is on the sample of its target
by now. -/
theorem walkerAt_ok {a : Address} {r' : ClassRecord κ} (hr' : u.classes[a.master]? = some r') :
    walkerAt cx a u =
      .ok (some (cx.turned u.source ⟨r'.sample, 0⟩ ((r'.shift : Int) + a.spin))) u := by
  refine bind_ok.mpr ⟨u, u, rfl, ?_⟩
  rw [hr']
  exact bind_ok.mpr ⟨_, u, turn_ok.mpr ⟨rfl, rfl⟩, rfl⟩

/-- Two classes of `s` whose samples have as many edges. -/
theorem Folds.identifyAddresses {a b : Address} {r r' : ClassRecord κ} (hu : Rooted cx s₀ u)
    (h : Folds cx s u) (hr : s.classes[a.master]? = some r) (hr' : s.classes[b.master]? = some r')
    (hdegree : cx.degree s.source r.sample = cx.degree s.source r'.sample) :
    ∃ t, identifyAddresses cx a b u = .ok () t ∧ Rooted cx s₀ t ∧ Folds cx s t := by
  have hrecord {k : Nat} {r : ClassRecord κ} (hr : s.classes[k]? = some r) :
      ∃ r₁ R : ClassRecord κ, u.classes[k]? = some r₁ ∧
        u.classes[cx.classOf u.source r₁.sample]? = some R ∧ R.sample = r₁.sample ∧
        cx.degree s.source r₁.sample = cx.degree s.source r.sample := by
    obtain ⟨r₁, hr₁⟩ := h.exists_record hr
    obtain ⟨R, hR, htarget, -⟩ := hu.root hr₁
    refine ⟨r₁, R, hr₁, ?_, (hu.agree hR hr₁ htarget).1, h.degree hr hr₁⟩
    rw [hu.sample_class hr₁, hR]
  obtain ⟨r₁, R, hr₁, hR, hsample, hd⟩ := hrecord hr
  obtain ⟨r₂, R', hr₂, hR', hsample', hd'⟩ := hrecord hr'
  have hd₁₂ : cx.degree s.source r₁.sample = cx.degree s.source r₂.sample :=
    hd.trans (hdegree.trans hd'.symm)
  obtain ⟨t, ht, hjoined⟩ : ∃ t, identify cx
      (cx.turned u.source ⟨r₁.sample, 0⟩ ((r₁.shift : Int) + a.spin))
      (cx.turned u.source ⟨r₂.sample, 0⟩ ((r₂.shift : Int) + b.spin)) u = .ok () t ∧
      Joined u R R' t :=
    identify_total hu.toCoherent hR hR' (h.source ▸ hd₁₂)
  have hu' := hu.joined hR hjoined
  rw [← hsample, ← hsample', ← h.source] at hd₁₂
  refine ⟨t, ?_, hu', h.trans hu hu'.toCoherent (.of_joined hu hR hR' hd₁₂ hjoined)⟩
  exact bind_ok.mpr ⟨_, u, walkerAt_ok hr₁, bind_ok.mpr ⟨_, u, walkerAt_ok hr₂, ht⟩⟩

variable [Scalar α]

variable (cx) in
/-- Two directions are of classes that are recorded, and have profiles that agree. -/
def alike (s : Survey σ κ) (a b : Address) : Bool :=
  match (s.classes[a.master]?).map (profile cx s.source · a.spin),
    (s.classes[b.master]?).map (profile cx s.source · b.spin) with
  | some p, some q => p.agrees q
  | _, _ => false

variable (cx) in
/-- The directions with these numbers look alike. -/
def looksAlike (s : Survey σ κ) (i j : Nat) : Bool :=
  (((addresses s.classes)[i]?).bind fun a =>
    ((addresses s.classes)[j]?).map (alike cx s a)).getD false

/-- The number of the direction that follows another one around its class. -/
def following (s : Survey σ κ) (i : Nat) : Nat := (((addresses s.classes)[i]?).map (·.next)).getD 0

variable (cx) in
/-- The numbers of directions that look alike, and all that follow them do. -/
def indistinguishable (s : Survey σ κ) : Nat → Nat → Bool :=
  let k := (addresses s.classes).size
  EqualTable.holds k (EqualTable.settle k (following s) (EqualTable.ofRelation k (looksAlike cx s)))

variable (cx) in
/-- Identifies the directions with numbers that are related. -/
def identifyRelated (directions : Array Address) (related : Nat → Nat → Bool) :
    Surveying α σ κ Unit :=
  (List.range directions.size).forM fun i => (List.range directions.size).forM fun j => do
    if i ≠ j && related i j then
      match directions[i]?, directions[j]? with
      | some a, some b => identifyAddresses cx a b
      | _, _ => return ()

theorem minimise_eq : minimise cx s =
    identifyRelated cx (addresses s.classes) (indistinguishable cx s) s := by
  let found : Array (Option (Profile α)) := (addresses s.classes).map fun a =>
    (s.classes[a.master]?).map fun r => profile cx s.source r a.spin
  have hagree : (fun i j : Nat => match (found[i]?).join, (found[j]?).join with
      | some p, some q => p.agrees q
      | _, _ => false) = looksAlike cx s := by
    funext i j
    simp only [looksAlike, found, Array.getElem?_map]
    cases (addresses s.classes)[i]? with
    | none => rfl
    | some a =>
        cases (addresses s.classes)[j]? with
        | none => simp
        | some b => rfl
  rw [indistinguishable]
  simp only [← hagree]
  rfl

/-- Directions that look alike are of classes whose samples have as many edges. -/
theorem degree_of_alike {a b : Address} (h : alike cx s a b = true) :
    ∃ r r' : ClassRecord κ, s.classes[a.master]? = some r ∧ s.classes[b.master]? = some r' ∧
      cx.degree s.source r.sample = cx.degree s.source r'.sample := by
  rw [alike] at h
  split at h
  · rename_i p q hp hq
    obtain ⟨r, hr, rfl⟩ := Option.map_eq_some_iff.mp hp
    obtain ⟨r', hr', rfl⟩ := Option.map_eq_some_iff.mp hq
    rw [Profile.agrees, Bool.and_eq_true, beq_iff_eq] at h
    exact ⟨r, r', hr, hr', h.1⟩
  · cases h

/-- **Minimisation answers.**  It joins classes and leaves the complex as it is. -/
theorem minimise_total (hs : Rooted cx s₀ s) :
    ∃ u, minimise cx s = .ok () u ∧ Rooted cx s₀ u ∧ Folds cx s u := by
  rw [minimise_eq, identifyRelated]
  refine forM_total (P := fun u => Rooted cx s₀ u ∧ Folds cx s u) (fun i _ u hu => ?_)
    ⟨hs, .refl hs⟩
  refine forM_total (fun j hj u hu => ?_) hu
  split
  case isFalse => exact ⟨u, rfl, hu⟩
  rename_i hrelated
  cases ha : (addresses s.classes)[i]? with
  | none => exact ⟨u, rfl, hu⟩
  | some a =>
      cases hb : (addresses s.classes)[j]? with
      | none => exact ⟨u, rfl, hu⟩
      | some b =>
          have halike := EqualTable.holds_settle (List.mem_range.mp hj)
            (Bool.and_eq_true _ _ |>.mp hrelated).2
          rw [looksAlike, ha, hb, Option.bind_some, Option.map_some, Option.getD_some] at halike
          obtain ⟨r, r', hr, hr', hdegree⟩ := degree_of_alike halike
          exact hu.2.identifyAddresses hu.1 hr hr' hdegree

/-- Directions of which it is known which look alike, so that those that follow them do, too. -/
theorem minimise_of_stable (related : Nat → Nat → Bool)
    (hlooks : ∀ i < (addresses s.classes).size, ∀ j < (addresses s.classes).size,
      looksAlike cx s i j = related i j)
    (hlt : ∀ i < (addresses s.classes).size, following s i < (addresses s.classes).size)
    (hstable : ∀ i < (addresses s.classes).size, ∀ j < (addresses s.classes).size,
      related i j = true → related (following s i) (following s j) = true) :
    minimise cx s = identifyRelated cx (addresses s.classes) related s := by
  rw [minimise_eq, identifyRelated, identifyRelated]
  refine congrFun (forM_congr fun i hi => forM_congr fun j hj => ?_) s
  rw [List.mem_range] at hi hj
  have hholds {i j : Nat} (hi : i < (addresses s.classes).size)
      (hj : j < (addresses s.classes).size) : EqualTable.holds (addresses s.classes).size
        (EqualTable.ofRelation (addresses s.classes).size (looksAlike cx s)) i j = related i j := by
    rw [EqualTable.holds_ofRelation hj, if_pos hi, hlooks i hi j hj]
  have hrelated : indistinguishable cx s i j = related i j := by
    refine (EqualTable.holds_settleFrom_of_stable hlt (fun i hi j hj => ?_) hi hj).trans
      (hholds hi hj)
    rw [hholds hi hj, hholds (hlt i hi) (hlt j hj)]
    exact hstable i hi j hj
  simp only [hrelated]

end Surveying

end Mosaic
