import Mathlib.Data.List.Nodup
import Mathlib.Data.List.Perm.Subperm
import Mosaic.Anchor.Word

/-!
# Anchor — words up to swaps of commuting letters

Two words that differ by swaps of neighbouring letters that commute name the same pentagon; each is
a *shuffle* of the other (`Shuffle`).  A letter *leads* a word when everything before its first
occurrence commutes with it (`Leads`), so that swaps bring it to the front (`Leads.shuffle`).

* `cancel?_eq`: the letter that `cancel?` takes out is one that leads, at its first occurrence.
* `mem_heads`: `heads` lists exactly the letters that lead.  It stops at the third letter it has
  seen; that loses nothing, because no letter commutes with three others (`length_le_two`).
* `normalForm_eq_iff`: two words have one normal form exactly when each is a shuffle of the other.
-/

namespace Mosaic

namespace Side

theorem commutes_comm (a b : Side) : a.commutes b = b.commutes a := by
  simp only [commutes, Bool.or_comm]

theorem commutes_irrefl : ∀ a : Side, ¬ a.commutes a := by decide

theorem ne_of_commutes {a b : Side} (h : a.commutes b) : a ≠ b := by
  rintro rfl
  exact commutes_irrefl a h

/-- The two sides that a side commutes with. -/
theorem mem_of_commutes : ∀ {a c : Side}, a.commutes c → a ∈ [c.next, c.next.next.next.next] := by
  decide

/-- No letter commutes with three others. -/
theorem length_le_two {seen : List Side} (hn : seen.Nodup) {c : Side}
    (h : ∀ b ∈ seen, b.commutes c) : seen.length ≤ 2 :=
  (hn.subperm fun b hb => mem_of_commutes (h b hb)).length_le

end Side

namespace Word

/-- `v` is `u` with neighbouring letters that commute swapped, any number of times. -/
inductive Shuffle : Word → Word → Prop where
  | refl (u : Word) : Shuffle u u
  | cons (c : Side) {u v : Word} (h : Shuffle u v) : Shuffle (c :: u) (c :: v)
  | swap {a b : Side} (u : Word) (h : a.commutes b) : Shuffle (a :: b :: u) (b :: a :: u)
  | trans {u v w : Word} (h₁ : Shuffle u v) (h₂ : Shuffle v w) : Shuffle u w

namespace Shuffle

theorem symm {u v : Word} (h : Shuffle u v) : Shuffle v u := by
  induction h with
  | refl u => exact .refl u
  | cons c _ ih => exact .cons c ih
  | swap u h => exact .swap u (Side.commutes_comm _ _ ▸ h)
  | trans _ _ ih₁ ih₂ => exact .trans ih₂ ih₁

theorem length_eq {u v : Word} (h : Shuffle u v) : u.length = v.length := by
  induction h with
  | refl => rfl
  | cons _ _ ih => simp [ih]
  | swap => rfl
  | trans _ _ ih₁ ih₂ => exact ih₁.trans ih₂

/-- Taking out the first occurrence of a letter respects shuffles. -/
theorem erase {u v : Word} (h : Shuffle u v) (s : Side) : Shuffle (u.erase s) (v.erase s) := by
  induction h with
  | refl u => exact .refl _
  | cons c h ih =>
      by_cases hc : c = s
      · subst hc; simpa using h
      · simpa [List.erase_cons, hc] using ih.cons c
  | @swap a b u h =>
      by_cases ha : a = s
      · subst ha
        simp [(Side.ne_of_commutes h).symm, Shuffle.refl]
      · by_cases hb : b = s
        · subst hb; simp [ha, Shuffle.refl]
        · simpa [List.erase_cons, ha, hb] using Shuffle.swap (u.erase s) h
  | trans _ _ ih₁ ih₂ => exact ih₁.trans ih₂

end Shuffle

/-! ### Letters that lead -/

/-- `s` occurs in the word, and everything before its first occurrence commutes with it. -/
def Leads (s : Side) : Word → Prop
  | [] => False
  | c :: w => c = s ∨ (c.commutes s ∧ Leads s w)

@[simp] theorem leads_nil (s : Side) : ¬ Leads s [] := id

@[simp] theorem leads_cons (s c : Side) (w : Word) :
    Leads s (c :: w) ↔ c = s ∨ (c.commutes s ∧ Leads s w) := Iff.rfl

theorem leads_head (s : Side) (w : Word) : Leads s (s :: w) := Or.inl rfl

instance decidableLeads (s : Side) : (w : Word) → Decidable (Leads s w)
  | [] => isFalse (leads_nil s)
  | c :: w =>
    have := decidableLeads s w
    inferInstanceAs (Decidable (c = s ∨ (c.commutes s ∧ Leads s w)))

theorem Shuffle.leads_iff {u v : Word} (h : Shuffle u v) (s : Side) : Leads s u ↔ Leads s v := by
  induction h with
  | refl => rfl
  | cons c _ ih => simp only [leads_cons, ih]
  | @swap a b u h =>
      have h' : b.commutes a := Side.commutes_comm a b ▸ h
      by_cases ha : a = s
      · subst ha; simp [h']
      · by_cases hb : b = s
        · subst hb; simp [h]
        · simp only [leads_cons, ha, hb, false_or]
          exact ⟨fun ⟨h₁, h₂, h₃⟩ => ⟨h₂, h₁, h₃⟩, fun ⟨h₁, h₂, h₃⟩ => ⟨h₂, h₁, h₃⟩⟩
  | trans _ _ ih₁ ih₂ => exact ih₁.trans ih₂

/-- A letter that leads can be moved to the front. -/
theorem Leads.shuffle {s : Side} : ∀ {w : Word}, Leads s w → Shuffle w (s :: w.erase s)
  | c :: w, h => by
      by_cases hc : c = s
      · subst hc; simpa using Shuffle.refl (c :: w)
      · obtain ⟨hcs, hw⟩ := h.resolve_left hc
        have := (hw.shuffle.cons c).trans (.swap (w.erase s) hcs)
        simpa [List.erase_cons, hc] using this

theorem Leads.mem {s : Side} : ∀ {w : Word}, Leads s w → s ∈ w
  | c :: w, h => by
      rcases h with rfl | ⟨-, h⟩
      · exact List.mem_cons_self
      · exact List.mem_cons_of_mem c h.mem

/-- Taking out a letter that leads does not touch whether a letter that commutes with it leads. -/
theorem leads_erase_iff {s t : Side} (hst : s.commutes t) :
    ∀ {w : Word}, Leads s w → (Leads t (w.erase s) ↔ Leads t w)
  | c :: w, h => by
      by_cases hc : c = s
      · subst hc; simp [hst, Side.ne_of_commutes hst]
      · obtain ⟨-, hw⟩ := h.resolve_left hc
        simp [hc, leads_erase_iff hst hw]

/-- The letter that is cancelled is one that leads. -/
theorem cancel?_eq (s : Side) :
    ∀ w : Word, cancel? s w = if Leads s w then some (w.erase s) else none
  | [] => rfl
  | c :: w => by
      by_cases hc : c = s
      · subst hc; simp [cancel?]
      · by_cases hcs : c.commutes s
        · simp only [cancel?, hc, hcs, leads_cons, cancel?_eq s w]
          split <;> simp_all
        · simp [cancel?, hc, hcs]

/-! ### The normal form -/

/-- Among the letters past those in `seen` that can be moved to the front of a word, there is `c`
exactly when it leads the word and all of `seen` commutes with it. -/
theorem mem_headsPast {c : Side} : ∀ {w seen : Word}, seen.Nodup →
    (c ∈ headsPast seen w ↔ (∀ b ∈ seen, b.commutes c) ∧ Leads c w)
  | [], seen, _ => by simp [headsPast]
  | d :: w, seen, hn => by
      by_cases h₃ : 3 ≤ seen.length
      · have : ¬ ∀ b ∈ seen, b.commutes c := fun h => by
          have := Side.length_le_two hn h
          omega
        simp [headsPast, h₃, this]
      by_cases hd : d ∈ seen
      · -- `d` itself commutes with `c`, so it does not matter whether it stands in `w` again.
        simp only [headsPast, h₃, List.contains_iff_mem, hd, if_true, if_false, mem_headsPast hn,
          leads_cons]
        refine and_congr_right fun h => ?_
        simp [h d hd, Side.ne_of_commutes (h d hd)]
      have ih := mem_headsPast (c := c) (w := w) (List.nodup_cons.mpr ⟨hd, hn⟩)
      simp only [List.mem_cons, forall_eq_or_imp] at ih
      by_cases hall : seen.all (·.commutes d)
      · simp only [headsPast, h₃, List.contains_iff_mem, hd, hall, if_true, if_false,
          List.mem_cons, ih, leads_cons]
        have hcd : d = c → ∀ b ∈ seen, b.commutes c := by
          rintro rfl
          exact List.all_eq_true.mp hall
        grind
      · simp only [headsPast, h₃, List.contains_iff_mem, hd, hall, if_false, leads_cons]
        have hcd : d = c → ¬ ∀ b ∈ seen, b.commutes c := by
          rintro rfl h
          exact hall (List.all_eq_true.mpr h)
        grind

theorem mem_heads {c : Side} {w : Word} : c ∈ w.heads ↔ Leads c w := by
  simp [heads, mem_headsPast List.nodup_nil]

theorem least?_eq_none_iff : ∀ {l : List Side}, least? l = none ↔ l = []
  | [] => by simp [least?]
  | c :: l => by simp [least?]

/-- The least letter of a list. -/
theorem least?_eq_some_iff {c : Side} :
    ∀ {l : List Side}, least? l = some c ↔ c ∈ l ∧ ∀ d ∈ l, c ≤ d
  | [] => by simp [least?]
  | b :: l => by
      cases h : least? l with
      | none =>
          obtain rfl := least?_eq_none_iff.mp h
          simp +contextual [least?, eq_comm]
      | some m =>
          obtain ⟨hm, hle⟩ := least?_eq_some_iff.mp h
          simp only [least?, h, Option.some.injEq, List.mem_cons, forall_eq_or_imp]
          constructor
          · rintro rfl
            split <;> grind
          · rintro ⟨hc, hcb, hcl⟩
            have := hcl m hm
            split <;> grind

theorem least?_congr {l₁ l₂ : List Side} (h : ∀ c, c ∈ l₁ ↔ c ∈ l₂) :
    least? l₁ = least? l₂ := by
  refine Option.ext fun c => ?_
  simp only [least?_eq_some_iff, h]

/-- Every shuffle of a word has its least spelling. -/
theorem leastSpelling_congr {n : Nat} :
    ∀ {u v : Word}, Shuffle u v → leastSpelling n u = leastSpelling n v := by
  induction n with
  | zero => intro u v _; rfl
  | succ n ih =>
      intro u v h
      have hl : least? u.heads = least? v.heads :=
        least?_congr fun c => by rw [mem_heads, mem_heads, h.leads_iff c]
      simp only [leastSpelling, hl]
      cases least? v.heads with
      | none => rfl
      | some c => exact congrArg (c :: ·) (ih (h.erase c))

/-- The least spelling of a word is a shuffle of it. -/
theorem shuffle_leastSpelling {n : Nat} :
    ∀ {w : Word}, w.length ≤ n → Shuffle w (leastSpelling n w) := by
  induction n with
  | zero =>
      intro w hw
      obtain rfl : w = [] := List.eq_nil_of_length_eq_zero (Nat.le_zero.mp hw)
      exact .refl _
  | succ n ih =>
      intro w hw
      cases h : least? w.heads with
      | none =>
          have hnil := least?_eq_none_iff.mp h
          cases w with
          | nil => simp only [leastSpelling, h]; exact .refl _
          | cons c w =>
              have : c ∈ heads (c :: w) := mem_heads.mpr (leads_head c w)
              simp [hnil] at this
      | some c =>
          have hc := mem_heads.mp (least?_eq_some_iff.mp h).1
          have hlen : (w.erase c).length ≤ n := by
            rw [List.length_erase_of_mem hc.mem]
            omega
          simp only [leastSpelling, h]
          exact hc.shuffle.trans ((ih hlen).cons c)

theorem shuffle_normalForm (w : Word) : Shuffle w w.normalForm :=
  shuffle_leastSpelling (Nat.le_refl _)

/-- **Normal forms.**  Words have one normal form exactly when swaps of commuting letters lead from
one to the other. -/
theorem normalForm_eq_iff {u v : Word} : u.normalForm = v.normalForm ↔ Shuffle u v := by
  constructor
  · intro h
    exact (h ▸ shuffle_normalForm u).trans (shuffle_normalForm v).symm
  · intro h
    unfold normalForm
    rw [h.length_eq]
    exact leastSpelling_congr h

end Word

end Mosaic
