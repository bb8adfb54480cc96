import Mosaic.Proofs.Description.Finish

/-!
# Tiling — the generation of a tiling

The generation tells holders of derived data that a tiling is another one.  Nothing that comes after
reading a description looks at it: the check of its gluings, the double cover and the analysis of
valences do the same to a tiling of any generation (`Tiling.finish_stamped`).
-/

namespace Mosaic

variable {α ε σ β γ : Type}

/-- The tiling with another generation. -/
def Tiling.stamped (order : Nat) (t : Tiling α) : Tiling α := { t with order }

namespace Tiling

variable (order : Nat) (t : Tiling α)

/-- The outcome of a computation that leaves a tiling with another generation. -/
def stampedResult : EStateM.Result ε (Tiling α) β → EStateM.Result ε (Tiling α) β
  | .ok b v => .ok b (v.stamped order)
  | .error e v => .error e (v.stamped order)

/-- A computation on a tiling that does not look at its generation. -/
def Unstamped (x : EStateM ε (Tiling α) β) : Prop :=
  ∀ u, x (u.stamped order) = stampedResult order (x u)

namespace Unstamped

variable {order t}

theorem pure (b : β) : Unstamped order (pure b : EStateM ε (Tiling α) β) := fun _ => rfl

theorem throw (e : ε) : Unstamped order (throw e : EStateM ε (Tiling α) β) := fun _ => rfl

/-- A change that does not look at the generation. -/
theorem modify {f : Tiling α → Tiling α} (hf : ∀ u, f (u.stamped order) = (f u).stamped order) :
    Unstamped order (modify f : EStateM ε (Tiling α) Unit) := fun u =>
  congrArg (EStateM.Result.ok ()) (hf u)

/-- What is done one after the other. -/
theorem bind {x : EStateM ε (Tiling α) β} {f : β → EStateM ε (Tiling α) γ}
    (hx : Unstamped order x) (hf : ∀ b, Unstamped order (f b)) : Unstamped order (x >>= f) := by
  intro u
  change EStateM.bind x f _ = stampedResult order (EStateM.bind x f u)
  unfold EStateM.bind
  rw [hx u]
  cases x u with
  | ok b v => exact hf b v
  | error e v => rfl

end Unstamped

variable [Scalar α]

/-! ### What a tiling is asked for -/

/-- A walk around a vertex does not look at the generation. -/
theorem continueWalk_stamped (periods : Array Nat) (i k fuel : Nat) :
    (t.stamped order).continueWalk periods i k fuel = t.continueWalk periods i k fuel := by
  induction fuel with
  | zero => rfl
  | succ fuel ih =>
      funext w
      rw [continueWalk, continueWalk, ih]
      rfl

/-- Nor do the walks around the vertices of a shape. -/
theorem walkShapeFrom_stamped (periods : Array Nat) (i : Nat) (ks : List Nat) :
    (t.stamped order).walkShapeFrom periods i ks = t.walkShapeFrom periods i ks := by
  induction ks with
  | nil => rfl
  | cons k ks ih =>
      funext done
      rw [walkShapeFrom, walkShapeFrom, ih, walkVertex, continueWalk_stamped]
      rfl

omit [Scalar α] in
/-- Refinement of the cycle lengths does not look at the generation. -/
theorem refineFrom_stamped (fuel : Nat) :
    (t.stamped order).refineFrom fuel = t.refineFrom fuel := by
  induction fuel with
  | zero => rfl
  | succ fuel ih =>
      funext last
      rw [refineFrom, refineFrom, ih]
      rfl

/-! ### The analysis of valences -/

/-- What walks write into the shapes leaves the generation as it is. -/
theorem walkShapes_unstamped (periods : Array Nat) (is : List Nat) :
    Unstamped order (t.walkShapes periods is) := by
  induction is with
  | nil => exact .pure _
  | cons i is ih =>
      rw [walkShapes]
      split
      · exact .throw _
      · exact .pure _
      · exact .bind (.modify fun _ => rfl) fun _ => ih

theorem walkShapes_stamped (periods : Array Nat) (is : List Nat) :
    (t.stamped order).walkShapes periods is = t.walkShapes periods is := by
  induction is with
  | nil => rfl
  | cons i is ih =>
      rw [walkShapes, walkShapes, ih, walkShapeFrom_stamped]
      rfl

/-- The passes leave the generation as it is. -/
theorem settleValence_unstamped (fuel : Nat) (periods : Array Nat) :
    Unstamped order (t.settleValence fuel periods) := by
  induction fuel generalizing periods with
  | zero => exact .pure ()
  | succ fuel ih =>
      rw [settleValence]
      split
      · exact .bind (.modify fun _ => rfl) fun _ => .throw _
      · refine .bind (.modify fun _ => rfl) fun _ => ?_
        split
        · exact .pure ()
        refine .bind (.modify fun _ => rfl) fun _ => ?_
        refine .bind (walkShapes_unstamped order t _ _) fun r => ?_
        cases r with
        | none => exact .pure ()
        | some r => exact .bind (.modify fun _ => rfl) fun _ => ih _

/-- The passes do not look at the generation. -/
theorem settleValence_stamped (fuel : Nat) :
    (t.stamped order).settleValence fuel = t.settleValence fuel := by
  induction fuel with
  | zero => rfl
  | succ fuel ih =>
      funext periods
      rw [settleValence, settleValence, ih]
      simp only [walkShapes_stamped, refinePeriods, refineFrom_stamped]
      rfl

/-- Tilings of different generations are analysed alike. -/
theorem analyseValence_stamped :
    analyseValence (t.stamped order) = stampedResult order (analyseValence t) := by
  -- what comes after the tiling has been read off the state
  let rest (t : Tiling α) : Analysis α Unit := do
    let periods := t.shapes.map (·.stride)
    modify (·.withPeriods periods)
    t.settleValence t.refineBound periods
    unless t.geometry.isAffine || t.isStar do modify withExtremes
  have hrest : Unstamped order (rest t) := by
    refine .bind (.modify fun _ => rfl) fun _ => ?_
    refine .bind (settleValence_unstamped order t _ _) fun _ => ?_
    split
    · exact .pure ()
    · exact .modify fun _ => rfl
  have hsame : rest (t.stamped order) = rest t := by
    simp only [rest, settleValence_stamped]
    rfl
  change rest (t.stamped order) (t.stamped order) = stampedResult order (rest t t)
  rw [hsame]
  exact hrest t

/-- The double cover is of the generation of its tiling. -/
theorem doubleCover_stamped : (t.stamped order).doubleCover = t.doubleCover.stamped order := by
  by_cases hm : t.mirrorCount = 0
  · have hm' : (t.stamped order).mirrorCount = 0 := hm
    rw [doubleCover, if_pos hm', doubleCover, if_pos hm]
    rfl
  · have hm' : (t.stamped order).mirrorCount ≠ 0 := hm
    rw [doubleCover, if_neg hm', doubleCover, if_neg hm]
    rfl

/-- The last part of a load does not look at the generation. -/
theorem finish_stamped {settings : Settings} {u : Tiling α} (h : t.finish settings = .ok u) :
    (t.stamped order).finish settings = .ok (u.stamped order) := by
  obtain ⟨hcheck, h⟩ := finish_ok.mp h
  have hcover : (t.stamped order).cover settings = (t.cover settings).stamped order := by
    unfold cover
    split
    · exact doubleCover_stamped order t
    · rfl
  refine finish_ok.mpr ⟨hcheck, ?_⟩
  rw [hcover]
  change if (t.cover settings).haveTree then _ else _
  split at h
  · rename_i htree
    rw [if_pos htree, h]
  · rename_i htree
    rw [if_neg htree, analyseValence_stamped, h]
    rfl

end Tiling

end Mosaic
