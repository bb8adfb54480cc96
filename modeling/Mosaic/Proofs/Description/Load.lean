import Mathlib
import Mosaic.Proofs.Description.Directive
import Mosaic.Proofs.Description.Stage
import Mosaic.Proofs.Scalar.Whole

/-!
# Description — what a load lets out

Comments and directives keep the catalogue orderly, so reading a description ends with an orderly
catalogue, and so does the request to inspect one.  The double cover and the analysis of valences
keep it (`Tiling.load_orderly`).
-/

namespace Mosaic

variable {α : Type} [Scalar α]

namespace Drafting

omit [Scalar α] in
/-- A comment leaves the shapes as they are. -/
theorem comment_orders : Orders (comment : Drafting α Unit) := by
  intro t ht
  refine .bind (.read fun _ => .bind (.read fun c => ?_))
  extract_lets doubled finish
  have hfinish : ∀ r, Yields Tiling.Orderly (finish r) t fun _ u => u.Orderly := by
    intro r
    refine .bind (.read fun _ => .bind (.read fun s => ?_))
    refine .ite (fun _ => .modifyTiling ?_) fun _ => ?_
    · split_ifs
      · exact ht.congr rfl ht.sliders
      · exact ht.congr rfl ht.sliders
    · exact .pure ht
  exact .ite (fun _ => .bind (.read fun _ => hfinish ())) fun _ => hfinish ()

/-- A directive leaves an orderly tiling orderly. -/
theorem command_orders (prior : Option (Tiling α)) {t : Tiling α} (ht : t.Orderly) :
    Yields Tiling.Orderly (command prior) t fun _ u => u.Orderly := by
  refine .bind (.read fun place => .bind (.read fun name => ?_))
  refine .ite (fun _ => .bind .failAt) fun _ => .bind (.read fun isFlag => ?_)
  refine .ite (fun _ => ?_) fun _ => .bind (.read fun isCall => .ite (fun _ => ?_) fun _ => ?_)
  · exact .bind ((flag_orders name place _ ht).mono fun _ _ hv => .pure hv)
  · exact .bind ((directive_orders prior name place _ ht).mono fun _ _ hv => .pure hv)
  · exact .bind .failAt

theorem round_orders (prior : Option (Tiling α)) {t : Tiling α} (ht : t.Orderly) :
    Yields Tiling.Orderly (round prior ()) t fun _ u => u.Orderly := by
  refine .bind (.modifyDraft fun d hd => ?_)
  have hd : d.tiling.Orderly := hd ▸ ht
  refine .bind (.read fun ended => .ite (fun _ => .pure hd) fun _ => ?_)
  refine .bind (.read fun c => .ite (fun _ => ?_) fun _ => command_orders prior hd)
  exact .bind ((comment_orders _ hd).mono fun _ _ hv => .pure hv)

theorem description_orders (prior : Option (Tiling α)) : Orders (description prior) :=
  fun _ ht => .iterate_keeps ht fun _ _ hu => round_orders prior hu

end Drafting

namespace Tiling

/-- A tiling without shapes is orderly. -/
theorem empty_orderly : (empty : Tiling α).Orderly := by
  refine ⟨fun i s hs => ?_, fun s hs => ?_, fun s hs => ?_, Nat.zero_le _⟩
  · cases hs
  · exact absurd hs (Array.not_mem_empty s)
  · exact absurd hs (Array.not_mem_empty s)

/-- The tiling that has been described is orderly, and so is one that is to be inspected. -/
theorem read_orderly (source : String) (settings : Settings) (prior : Option (Tiling α)) :
    (∀ t, read source settings prior = .ok t → t.Orderly) ∧
      ∀ i t, read source settings prior = .error (.inspection i t) → t.Orderly := by
  have hstart : (Drafting.start settings prior : Desk α).draft.tiling.Orderly :=
    empty_orderly.congr rfl (Nat.zero_le _)
  have hruns := Drafting.description_orders prior _ hstart source.toByteArray _ rfl
  refine ⟨fun t h => ?_, fun i t h => ?_⟩
  · obtain ⟨-, desk, hdesk, rfl⟩ := read_ok.mp h
    exact hruns.1 _ _ hdesk
  · obtain ⟨desk, hdesk⟩ := read_inspection h
    exact hruns.2 _ _ _ hdesk

/-- Finishing keeps a catalogue orderly, and a double cover has no mirrored gluing. -/
theorem finish_orderly {settings : Settings} {t u : Tiling α} (ht : t.Orderly)
    (h : t.finish settings = .ok u) : u.Orderly ∧ (settings.doubleCover = true → u.Oriented) := by
  have hannotates := finish_annotates h
  unfold cover at hannotates
  split at hannotates
  · exact ⟨hannotates.orderly ht.doubleCover, fun _ => hannotates.oriented t.doubleCover_oriented⟩
  · exact ⟨hannotates.orderly ht, fun h => absurd h ‹_›⟩

/-- **Every tiling that a load lets out is orderly**, and has no mirrored gluing if it was loaded
for a double cover.  So is the tiling that a description asks to inspect. -/
theorem load_orderly (source : String) (settings : Settings) (prior : Option (Tiling α))
    (rules : Tiling α → Except String Unit) :
    (∀ t, load source settings prior rules = .ok t →
      t.Orderly ∧ (settings.doubleCover = true → t.Oriented)) ∧
    ∀ i t, load source settings prior rules = .error (.inspection i t) → t.Orderly := by
  obtain ⟨hok, herror⟩ := read_orderly source settings prior
  refine ⟨fun t h => ?_, fun i t h => herror i t (load_inspection h)⟩
  obtain ⟨u, hu, hfinish, -⟩ := load_ok.mp h
  exact finish_orderly (hok u hu) hfinish

set_option maxRecDepth 10000 in
/-- Squares with a mirrored gluing load, as squares of two kinds. -/
theorem load_orderly_square : ∃ t : Tiling Whole,
    load "e2. tile(1,355/226,*4) c(0,0,0,1,1)" .default none (fun _ => .ok ()) = .ok t ∧
      t.shapes.size = 2 ∧ t.Orderly ∧ t.Oriented := by
  have hload : (match (load "e2. tile(1,355/226,*4) c(0,0,0,1,1)" .default none (fun _ => .ok ()) :
      Except (LoadError Whole) (Tiling Whole)) with
    | .ok t => t.shapes.size == 2
    | .error _ => false) = true := by cbv
  split at hload
  case h_1 t ht =>
    obtain ⟨horderly, horiented⟩ := (load_orderly _ _ _ _).1 t ht
    exact ⟨t, ht, beq_iff_eq.mp hload, horderly, horiented rfl⟩
  case h_2 => cases hload

end Tiling

end Mosaic
