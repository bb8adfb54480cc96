import Mosaic.Proofs.Description.Finish
import Mosaic.Proofs.Description.Rounds

/-!
# Description — the stages of a load

A load goes through stages, the states between two directives (`Drafting.Stage`).  The tiling grows
from stage to stage, and to the tiling that is read or inspected (`Later.grows`, `Stage.read`,
`Stage.inspection`).
-/

namespace Mosaic

/-- A text and itself, up to some place after its end. -/
def Stretch.whole (text : ByteArray) (hi : Nat) (h : text.size ≤ hi) : Stretch where
  first := text
  second := text
  lo := 0
  hi := hi
  shift := 0
  byte _ _ _ := rfl
  seam c hc := by
    rw [Nat.add_zero, getElem?_neg text hi (by omega)] at hc
    cases hc

variable {α : Type} [Scalar α]

namespace Drafting

/-- The state that the load of a description begins in. -/
def start (settings : Settings) (prior : Option (Tiling α)) : Desk α :=
  ⟨0, { tiling := { (Tiling.empty : Tiling α) with
          affineLimit := settings.affineLimit
          order := (prior.map (·.order)).getD 0 + 1 }
        bindings := ∅
        angleUnit := 1
        distanceUnit := 1 }⟩

/-- Rounds that go on, from one stage to a later one. -/
abbrev Later (prior : Option (Tiling α)) (text : ByteArray) (s t : Desk α) : Prop :=
  Rounds (fun x => round prior x text) () s () t

/-- The load of a description comes to this state between two directives. -/
def Stage (settings : Settings) (prior : Option (Tiling α)) (text : ByteArray) (s : Desk α) :
    Prop :=
  Later prior text (start settings prior) s

variable {settings : Settings} {prior : Option (Tiling α)} {text : ByteArray} {s t u : Desk α}

/-- The rounds of a description, compared with themselves. -/
theorem round_whole (prior : Option (Tiling α)) (text : ByteArray) :
    (lockstep (.whole text _ (Nat.le_refl _)) False prior prior).Follows (Sum.LiftRel Eq Eq)
      (round prior ()) (round prior ()) :=
  round_follows

theorem description_whole (prior : Option (Tiling α)) (text : ByteArray) :
    (lockstep (.whole text _ (Nat.le_refl _)) False prior prior).Follows Eq
      (description prior) (description prior) :=
  description_follows

theorem Later.grows (h : Later prior text s t) : s.draft.tiling.Grows prior t.draft.tiling :=
  (Lockstep.leads_of_rounds (S := Eq) (fun _ _ _ => round_whole prior text) h).2

theorem description_grows (h : description prior text s = .ok () u) :
    s.draft.tiling.Grows prior u.draft.tiling :=
  ((description_whole prior text).leads h).2

theorem description_inspects {i : Nat} {v : Tiling α}
    (h : description prior text s = .error (.inspection i v) u) : s.draft.tiling.Grows prior v :=
  (description_whole prior text).lets h i v rfl

/-- The description goes on from every stage. -/
theorem Later.description_eq (h : Later prior text s t) :
    description prior text s = description prior text t :=
  h.descend_eq fun hround => Lockstep.below_iff.mpr (round_advances hround)

/-- A run that shares the text up to a stage comes to a stage like it. -/
theorem Later.accompanied {S : Stretch} {prior' : Option (Tiling α)} {exact : Prop}
    (h : Later prior S.first s t) (hexact : exact)
    (hu : (lockstep S exact prior prior').like s u)
    (ht : (lockstep S exact prior prior').reached t) :
    ∃ v, (lockstep S exact prior prior').like t v ∧
      description prior' S.second u = description prior' S.second v := by
  rw [description_loop]
  obtain ⟨_, v, -, hv, heq⟩ := Lockstep.Steps.rounds (S := Eq)
    (L := lockstep S exact prior prior') hexact (fun hr => .inr ⟨rfl, hr⟩)
    round_advances (fun _ _ _ => round_steps) rfl h hu ht
  exact ⟨v, hv, heq⟩

/-- What grows from the beginning of a load has the values that the prior tiling gives. -/
theorem heeds_of_start {t : Tiling α} (h : (start settings prior).draft.tiling.Grows prior t) :
    t.Heeds prior where
  sliders hx := h.sliders.added (Nat.zero_le _) hx
  intSliders hx := h.intSliders.added (Nat.zero_le _) hx

end Drafting

open Drafting

namespace Tiling

variable {source : String} {settings : Settings} {prior : Option (Tiling α)}
  {rules : Tiling α → Except String Unit} {t u : Tiling α} {i : Nat}

theorem read_ok : read source settings prior = .ok u ↔ source.utf8ByteSize ≤ maxSourceLength ∧
    ∃ desk, description prior source.toByteArray (start settings prior) = .ok () desk ∧
      desk.draft.tiling = u := by
  rw [read]
  split
  · rename_i hlong
    exact iff_of_false (fun h => nomatch h) fun h => absurd h.1 (Nat.not_le_of_lt hlong)
  · rename_i hshort
    dsimp only
    split
    all_goals
      rename_i hrun
      change description prior source.toByteArray (start settings prior) = _ at hrun
      simp [hrun, Nat.le_of_not_lt hshort]

/-- A source that is not read is too long, or its description fails. -/
theorem read_error {e : LoadError α} (h : read source settings prior = .error e) :
    (maxSourceLength < source.utf8ByteSize ∧
        e = .malformed ⟨.sourceTooLong maxSourceLength, Position.none⟩) ∨
      ∃ desk, description prior source.toByteArray (start settings prior) = .error e desk := by
  rw [read] at h
  split at h
  · cases h
    exact .inl ⟨‹_›, rfl⟩
  · dsimp only at h
    split at h
    · cases h
    · rename_i desk hrun
      cases h
      exact .inr ⟨desk, hrun⟩

theorem read_inspection (h : read source settings prior = .error (.inspection i t)) : ∃ desk,
    description prior source.toByteArray (start settings prior) =
      .error (.inspection i t) desk := by
  obtain ⟨-, h⟩ | h := read_error h
  · cases h
  · exact h

theorem load_ok : load source settings prior rules = .ok t ↔ ∃ u,
    read source settings prior = .ok u ∧ u.finish settings = .ok t ∧
      (t.haveTree = true → rules t = .ok ()) := by
  rw [load]
  cases read source settings prior with
  | error e => simp [bind, Except.bind]
  | ok u =>
      simp only [bind, Except.bind, Except.ok.injEq, exists_eq_left']
      cases u.finish settings with
      | error e => simp
      | ok v =>
          dsimp only
          cases htree : v.haveTree with
          | false =>
              refine ⟨fun h => ?_, fun h => h.1⟩
              cases h
              exact ⟨rfl, fun h => nomatch htree.symm.trans h⟩
          | true =>
              cases hrules : rules v with
              | error reason =>
                  refine iff_of_false (fun h => nomatch h) fun h => ?_
                  cases h.1
                  exact nomatch hrules.symm.trans (h.2 htree)
              | ok _ =>
                  refine ⟨fun h => ?_, fun h => h.1⟩
                  cases h
                  exact ⟨rfl, fun _ => hrules⟩

/-- A load fails while the source is read, or because of what has been read. -/
theorem load_error {e : LoadError α} (h : load source settings prior rules = .error e) :
    read source settings prior = .error e ∨
      (∃ u, read source settings prior = .ok u ∧ u.finish settings = .error e) ∨
      ∃ reason, e = .rulesRejected reason := by
  rw [load] at h
  cases hread : read source settings prior with
  | error e =>
      rw [hread] at h
      cases h
      exact .inl rfl
  | ok u =>
      rw [hread] at h
      simp only [bind, Except.bind] at h
      cases hfinish : u.finish settings with
      | error e =>
          rw [hfinish] at h
          cases h
          exact .inr (.inl ⟨u, rfl, hfinish⟩)
      | ok v =>
          rw [hfinish] at h
          dsimp only at h
          split at h
          · split at h
            · cases h
            · cases h
              exact .inr (.inr ⟨_, rfl⟩)
          · cases h

theorem load_inspection (h : load source settings prior rules = .error (.inspection i t)) :
    read source settings prior = .error (.inspection i t) := by
  obtain h | ⟨u, -, h⟩ | ⟨reason, hreason⟩ := load_error h
  · exact h
  · obtain ⟨x, hx, -⟩ := finish_error h
    cases hx
  · cases hreason

end Tiling

namespace Drafting

variable {source : String} {settings : Settings} {prior : Option (Tiling α)}
  {rules : Tiling α → Except String Unit} {s : Desk α} {t : Tiling α}

/-- From every stage the tiling grows to the one that is read. -/
theorem Stage.read (h : Stage settings prior source.toByteArray s)
    (ht : Tiling.read source settings prior = .ok t) : s.draft.tiling.Grows prior t := by
  obtain ⟨-, desk, hdesk, rfl⟩ := Tiling.read_ok.mp ht
  exact description_grows (h.description_eq.symm.trans hdesk)

/-- From every stage the tiling grows to the one that the description asks to inspect. -/
theorem Stage.inspection {i : Nat} (h : Stage settings prior source.toByteArray s)
    (ht : Tiling.read source settings prior = .error (.inspection i t)) :
    s.draft.tiling.Grows prior t := by
  obtain ⟨desk, hdesk⟩ := Tiling.read_inspection ht
  exact description_inspects (h.description_eq.symm.trans hdesk)

end Drafting

end Mosaic
