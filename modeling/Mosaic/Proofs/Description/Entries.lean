import Mosaic.Proofs.Description.Places
import Mosaic.Proofs.Description.TilePace
import Mosaic.Proofs.Expression.Completeness

/-!
# Description — the list of corners as it is written

A tile is written as a list of entries, each of one corner or of the two steps of an ideal corner
(`Entry`), and perhaps a factor after them (`Lists`).  What is written is what is read: the corners
are those of the entries, one after the other (`outline_of_lists`), and the tile is the one that is
added for them (`tile_of_lists`).

* `Turn`: one step as it is written, with the edge left out where a tile of unit edges has none.
* `Draft.value?`, `Draft.corner?`, `Turn.corner?`: what an expression and a step come to in a draft.
-/

namespace Mosaic

open Expression (Tree)

/-- What an expression comes to, unless it has an unknown name or is nested too deeply. -/
def Draft.value? {α : Type} [Scalar α] (d : Draft α) (t : Tree .sum) : Option α :=
  if t.depth ≤ Expression.maxDepth then t.value ⟨d.tiling.space, d.bindings⟩ else none

/-- A corner in the units of the description, if it is finite. -/
def Draft.corner? {α : Type} [Scalar α] (d : Draft α) (edge angle : α) (ideal : Bool) :
    Option (Corner α) :=
  if Scalar.isFinite (edge * d.distanceUnit) ∧ Scalar.isFinite (angle * d.angleUnit) then
    some ⟨edge * d.distanceUnit, angle * d.angleUnit, ideal⟩
  else none

/-- A step of a boundary as it is written. -/
structure Turn where
  edge : Option (Tree .sum)
  angle : Tree .sum
  ideal : Bool

/-- The edge that is written, or one. -/
def Turn.length? {α : Type} [Scalar α] (d : Draft α) (w : Turn) : Option α :=
  match w.edge with
  | none => some 1
  | some t => d.value? t

/-- The corner that is written. -/
def Turn.corner? {α : Type} [Scalar α] (d : Draft α) (w : Turn) : Option (Corner α) := do
  d.corner? (← w.length? d) (← d.value? w.angle) w.ideal

/-- An entry of the list of corners, in a tile of unit edges or in another one. -/
inductive Entry : (unit : Bool) → Type where
  /-- `d, a` -/
  | plain (d a : Tree .sum) : Entry false
  /-- `[d, a, d, a]` -/
  | bracketed (d a d' a' : Tree .sum) : Entry false
  /-- `d, [a, d, a]` -/
  | ideal (d a d' a' : Tree .sum) : Entry false
  /-- `a` -/
  | unitPlain (a : Tree .sum) : Entry true
  /-- `[a, d, a]` -/
  | unitIdeal (a d' a' : Tree .sum) : Entry true

namespace Entry

variable {unit : Bool}

/-- The steps of an entry. -/
def turns : {unit : Bool} → Entry unit → List Turn
  | _, plain d a => [⟨some d, a, false⟩]
  | _, bracketed d a d' a' | _, ideal d a d' a' => [⟨some d, a, true⟩, ⟨some d', a', false⟩]
  | _, unitPlain a => [⟨none, a, false⟩]
  | _, unitIdeal a d' a' => [⟨none, a, true⟩, ⟨some d', a', false⟩]

/-- The corners of a list of entries. -/
def corners? {α : Type} [Scalar α] (d : Draft α) (entries : List (Entry unit)) :
    Option (List (Corner α)) :=
  (entries.flatMap turns).mapM (Turn.corner? d)

/-- From `i` to `j` the end of an ideal corner is spelled, `a, d, a]`. -/
inductive IdealAt (text : ByteArray) (a d' a' : Tree .sum) (i j : Nat) : Prop where
  | mk {k l m n o : Nat} (ha : a.Spells text i k) (hfirst : Token text ',' k l)
      (hd' : d'.Spells text l m) (hsecond : Token text ',' m n) (ha' : a'.Spells text n o)
      (hclose : Token text ']' o j)

/-- From `i` to `j` the entry is spelled. -/
inductive Spells (text : ByteArray) : {unit : Bool} → Entry unit → (i j : Nat) → Prop where
  | plain {d a i j k l} (hd : d.Spells text i k) (hcomma : Token text ',' k l)
      (ha : a.Spells text l j) : Spells text (.plain d a) i j
  | bracketed {d a d' a' i j k l m} (hopen : Token text '[' i k) (hd : d.Spells text k l)
      (hcomma : Token text ',' l m) (hideal : IdealAt text a d' a' m j) :
      Spells text (.bracketed d a d' a') i j
  | ideal {d a d' a' i j k l m} (hd : d.Spells text i k) (hcomma : Token text ',' k l)
      (hopen : Token text '[' l m) (hideal : IdealAt text a d' a' m j) :
      Spells text (.ideal d a d' a') i j
  | unitPlain {a i j} (ha : a.Spells text i j) : Spells text (.unitPlain a) i j
  | unitIdeal {a d' a' i j k} (hopen : Token text '[' i k) (hideal : IdealAt text a d' a' k j) :
      Spells text (.unitIdeal a d' a') i j

/-- From `i` to `j` the entries are spelled, with a factor after them or none, up to the closing
parenthesis.  A comma may stand before the parenthesis. -/
inductive Lists (text : ByteArray) {unit : Bool} :
    List (Entry unit) → Option (Tree .sum) → (i j : Nat) → Prop where
  | close {i j} (hclose : Token text ')' i j) : Lists text [] none i j
  | factor {t i j k l} (hstar : Token text '*' i k) (ht : t.Spells text k l)
      (hclose : Token text ')' l j) : Lists text [] (some t) i j
  | last {e i j k} (he : e.Spells text i k) (hclose : Token text ')' k j) :
      Lists text [e] none i j
  | more {e es t i j k l} (he : e.Spells text i k) (hcomma : Token text ',' k l)
      (hrest : Lists text es t l j) : Lists text (e :: es) t i j

theorem IdealAt.lt {text : ByteArray} {a d' a' : Tree .sum} {i j : Nat}
    (h : IdealAt text a d' a' i j) : i < j := by
  obtain ⟨ha, hfirst, hd', hsecond, ha', hclose⟩ := h
  exact ha.lt.trans (hfirst.lt.1.trans (hd'.lt.trans (hsecond.lt.1.trans
    (ha'.lt.trans hclose.lt.1))))

namespace Spells

variable {text : ByteArray} {e : Entry unit} {i j k : Nat}

/-- No entry begins with a parenthesis or an asterisk. -/
theorem first_ne {a : Char} (h : e.Spells text i j) (ha : a.toUInt8 ≠ '['.toUInt8)
    (hopening : (a.toUInt8 == 43 || a.toUInt8 == 45 || Expression.opening a.toUInt8) = false) :
    text[gap text i]? ≠ some a.toUInt8 := by
  cases h with
  | plain hd _ _ | ideal hd _ _ _ | unitPlain hd => exact hd.first_ne hopening
  | bracketed hopen _ _ _ | unitIdeal hopen _ =>
      rw [hopen.byte]
      exact fun h => ha (Option.some.inj h).symm

theorem lt (h : e.Spells text i j) : i < j := by
  cases h with
  | plain hd hcomma ha => exact hd.lt.trans (hcomma.lt.1.trans ha.lt)
  | bracketed hopen hd hcomma hideal =>
      exact hopen.lt.1.trans (hd.lt.trans (hcomma.lt.1.trans hideal.lt))
  | ideal hd hcomma hopen hideal =>
      exact hd.lt.trans (hcomma.lt.1.trans (hopen.lt.1.trans hideal.lt))
  | unitPlain ha => exact ha.lt
  | unitIdeal hopen hideal => exact hopen.lt.1.trans hideal.lt

theorem of_gap (h : e.Spells text i j) (hk : gap text i = gap text k) : e.Spells text k j := by
  cases h with
  | plain hd hcomma ha => exact .plain (hd.of_gap hk) hcomma ha
  | bracketed hopen hd hcomma hideal => exact .bracketed (hopen.of_gap hk) hd hcomma hideal
  | ideal hd hcomma hopen hideal => exact .ideal (hd.of_gap hk) hcomma hopen hideal
  | unitPlain ha => exact .unitPlain (ha.of_gap hk)
  | unitIdeal hopen hideal => exact .unitIdeal (hopen.of_gap hk) hideal

end Spells

end Entry

namespace Drafting

open Entry

variable {α : Type} [Scalar α] {text : ByteArray} {d : Draft α} {i j k : Nat}

/-! ### Expressions and corners -/

/-- An expression that is written is read to its value. -/
theorem sum_of_spells {t : Tree .sum} {v : α} (h : t.Spells text i j) (hv : d.value? t = some v)
    (hj : Expression.Follows text .sum j) :
    (sum : Drafting α α) text ⟨i, d⟩ = .ok v ⟨gap text j, d⟩ := by
  obtain ⟨hdepth, hv⟩ := Option.ite_none_right_eq_some.mp hv
  have hsum : Expression.sum ⟨d.tiling.space, d.bindings⟩ text i = .ok v (gap text j) :=
    (Expression.answers h hdepth hv).sum_ends hj
  change (ofReader (Expression.sum ⟨d.tiling.space, d.bindings⟩) : Drafting α α) text ⟨i, d⟩ = _
  simp only [ofReader, hsum]

/-- An expression, and the token after it. -/
theorem sum_then_expect {β : Type} {t : Tree .sum} {v : α} {token : String} {c : Char}
    {f : α → Drafting α β} (h : t.Spells text i j) (hv : d.value? t = some v)
    (htoken : token.toByteArray.data.toList = [c.toUInt8]) (hc : Token text c j k)
    (hfollows : c ∈ Expression.Category.followers .sum) :
    (do let x ← sum; Reader.expect token; f x : Drafting α β) text ⟨i, d⟩ = f v text ⟨k, d⟩ :=
  (bind_apply (sum_of_spells h hv (.of_token hc hfollows))).trans <|
    ofReader_bind (Reader.expect_of_token htoken (hc.of_gap (gap_gap text j).symm))

theorem finite_bind {β : Type} {x : α} {f : α → Drafting α β} {s : Desk α}
    (h : Scalar.isFinite x = true) : (ofReader (Reader.finite x) >>= f) text s = f x text s :=
  ofReader_bind (show Reader.finite x text s.offset = .ok x s.offset by
    rw [Reader.finite, if_pos h]; rfl)

/-- A corner that is finite is added, if there is room for it. -/
theorem pushCorner_apply {corners : Array (Corner α)} {edge angle : α} {ideal : Bool}
    {c : Corner α} (hc : d.corner? edge angle ideal = some c)
    (hroom : corners.size < maxShapeEdges) :
    pushCorner corners edge angle ideal text ⟨i, d⟩ = .ok (corners.push c) ⟨i, d⟩ := by
  obtain ⟨⟨hedge, hangle⟩, hc⟩ := Option.ite_none_right_eq_some.mp hc
  cases hc
  refine (finite_bind hedge).trans ((finite_bind hangle).trans ?_)
  rw [if_neg (Nat.not_le_of_lt hroom)]
  rfl

/-- A step that comes to a corner has an edge and an angle. -/
theorem corner?_eq {w : Turn} {c : Corner α} (h : w.corner? d = some c) :
    ∃ edge angle, w.length? d = some edge ∧ d.value? w.angle = some angle ∧
      d.corner? edge angle w.ideal = some c := by
  obtain ⟨edge, hedge, h⟩ := Option.bind_eq_some_iff.mp h
  obtain ⟨angle, hangle, h⟩ := Option.bind_eq_some_iff.mp h
  exact ⟨edge, angle, hedge, hangle, h⟩

/-! ### Entries -/

/-- The rest of an ideal corner, after its bracket. -/
def idealTail (corners : Array (Corner α)) (edge : α) : Drafting α (Array (Corner α)) := do
  let a ← sum
  Reader.expect ","
  let corners ← pushCorner corners edge a true
  let d ← sum
  Reader.expect ","
  let a ← sum
  Reader.expect "]"
  pushCorner corners d a false

/-- The rest of an entry, after its edge. -/
def edgeTail (bracket : Bool) (corners : Array (Corner α)) (edge : α) :
    Drafting α (Array (Corner α)) := do
  if ← (if bracket then pure true else Reader.eat "[" : Drafting α Bool) then
    idealTail corners edge
  else pushCorner corners edge (← sum) false

/-- An entry of a tile with edges. -/
theorem tileEntry_eq (corners : Array (Corner α)) : tileEntry false corners = (do
    let bracket ← Reader.eat "["
    let d ← sum
    Reader.expect ","
    edgeTail bracket corners d) := rfl

/-- An entry of a tile of unit edges. -/
theorem tileEntry_unit (corners : Array (Corner α)) :
    tileEntry true corners = edgeTail false corners 1 := rfl

/-- An ideal corner that is written is read to its two steps. -/
theorem idealTail_apply {corners : Array (Corner α)} {a d' a' : Tree .sum} {edge x y z : α}
    {c c' : Corner α} (h : IdealAt text a d' a' i j) (hx : d.value? a = some x)
    (hy : d.value? d' = some y) (hz : d.value? a' = some z)
    (hc : d.corner? edge x true = some c) (hc' : d.corner? y z false = some c')
    (hroom : corners.size + 2 ≤ maxShapeEdges) :
    idealTail corners edge text ⟨i, d⟩ = .ok ((corners.push c).push c') ⟨j, d⟩ := by
  obtain ⟨ha, hfirst, hd', hsecond, ha', hclose⟩ := h
  refine (sum_then_expect ha hx rfl hfirst (by decide)).trans ?_
  refine (bind_apply (pushCorner_apply hc (by omega))).trans ?_
  refine (sum_then_expect hd' hy rfl hsecond (by decide)).trans ?_
  refine (sum_then_expect ha' hz rfl hclose (by decide)).trans ?_
  exact pushCorner_apply hc' (by rw [Array.size_push]; omega)

theorem edgeTail_of_token {corners : Array (Corner α)} {edge : α} (h : Token text '[' i j) :
    edgeTail false corners edge text ⟨i, d⟩ = idealTail corners edge text ⟨j, d⟩ :=
  ofReader_bind (Reader.eat_of_token rfl h)

/-- An entry without brackets is read to its step. -/
theorem edgeTail_plain {corners : Array (Corner α)} {a : Tree .sum} {edge x : α} {c : Corner α}
    (h : a.Spells text i j) (hj : Expression.Follows text .sum j) (hx : d.value? a = some x)
    (hc : d.corner? edge x false = some c) (hroom : corners.size + 1 ≤ maxShapeEdges) :
    edgeTail false corners edge text ⟨i, d⟩ = .ok (corners.push c) ⟨gap text j, d⟩ := by
  refine (ofReader_bind (Reader.eat_of_ne rfl (h.first_ne (by decide)))).trans ?_
  refine (bind_apply (sum_of_spells (h.of_gap (gap_gap text i).symm) hx hj)).trans ?_
  exact pushCorner_apply hc hroom

/-- What is written after an edge and a comma, with or without a bracket before the edge. -/
theorem tileEntry_edge {corners : Array (Corner α)} {t : Tree .sum} {edge : α} {k l : Nat}
    {bracket : Bool} (hi : Reader.eat "[" text i = .ok bracket k) (ht : t.Spells text k l)
    (hcomma : Token text ',' l j) (hv : d.value? t = some edge) :
    tileEntry false corners text ⟨i, d⟩ = edgeTail bracket corners edge text ⟨j, d⟩ := by
  rw [tileEntry_eq]
  exact (ofReader_bind hi).trans (sum_then_expect ht hv rfl hcomma (by decide))

theorem corners_one {w : Turn} {cs : List (Corner α)} (h : [w].mapM (Turn.corner? d) = some cs) :
    ∃ c, w.corner? d = some c ∧ cs = [c] := by
  rw [List.mapM_cons, List.mapM_nil] at h
  obtain ⟨c, l, hc, hl, rfl⟩ := Tree.binary_eq_some.mp h
  cases hl
  exact ⟨c, hc, rfl⟩

theorem corners_two {w w' : Turn} {cs : List (Corner α)}
    (h : [w, w'].mapM (Turn.corner? d) = some cs) :
    ∃ c c', w.corner? d = some c ∧ w'.corner? d = some c' ∧ cs = [c, c'] := by
  rw [List.mapM_cons] at h
  obtain ⟨c, l, hc, hl, rfl⟩ := Tree.binary_eq_some.mp h
  obtain ⟨c', hc', rfl⟩ := corners_one hl
  exact ⟨c, c', hc, hc', rfl⟩

/-- An entry that is spelled is read, up to blanks. -/
theorem tileEntry_of_spells {unit : Bool} {e : Entry unit} {corners : Array (Corner α)}
    {cs : List (Corner α)} (h : e.Spells text i j) (hj : Expression.Follows text .sum j)
    (hcs : e.turns.mapM (Turn.corner? d) = some cs)
    (hroom : corners.size + cs.length ≤ maxShapeEdges) : ∃ k, gap text k = gap text j ∧
      tileEntry unit corners text ⟨i, d⟩ = .ok (corners ++ cs.toArray) ⟨k, d⟩ := by
  have hplain (c : Corner α) : corners.push c = corners ++ [c].toArray := by simp
  have hideal (c c' : Corner α) : (corners.push c).push c' = corners ++ [c, c'].toArray :=
    Array.ext' (by simp)
  cases h with
  | plain hx hcomma ha =>
      obtain ⟨c, hc, rfl⟩ := corners_one hcs
      obtain ⟨edge, angle, hedge, hangle, hc⟩ := corner?_eq hc
      refine ⟨gap text j, gap_gap text j, ?_⟩
      rw [← hplain, tileEntry_edge (Reader.eat_of_ne rfl (hx.first_ne (by decide)))
        (hx.of_gap (gap_gap text i).symm) hcomma hedge]
      exact edgeTail_plain ha hj hangle hc hroom
  | bracketed hopen hx hcomma htail =>
      obtain ⟨c, c', hc, hc', rfl⟩ := corners_two hcs
      obtain ⟨edge, angle, hedge, hangle, hc⟩ := corner?_eq hc
      obtain ⟨edge', angle', hedge', hangle', hc'⟩ := corner?_eq hc'
      refine ⟨j, rfl, ?_⟩
      rw [← hideal, tileEntry_edge (Reader.eat_of_token rfl hopen) hx hcomma hedge]
      exact idealTail_apply htail hangle hedge' hangle' hc hc' hroom
  | ideal hx hcomma hopen htail =>
      obtain ⟨c, c', hc, hc', rfl⟩ := corners_two hcs
      obtain ⟨edge, angle, hedge, hangle, hc⟩ := corner?_eq hc
      obtain ⟨edge', angle', hedge', hangle', hc'⟩ := corner?_eq hc'
      refine ⟨j, rfl, ?_⟩
      rw [← hideal, tileEntry_edge (Reader.eat_of_ne rfl (hx.first_ne (by decide)))
        (hx.of_gap (gap_gap text i).symm) hcomma hedge, edgeTail_of_token hopen]
      exact idealTail_apply htail hangle hedge' hangle' hc hc' hroom
  | unitPlain ha =>
      obtain ⟨c, hc, rfl⟩ := corners_one hcs
      obtain ⟨edge, angle, hedge, hangle, hc⟩ := corner?_eq hc
      cases hedge
      refine ⟨gap text j, gap_gap text j, ?_⟩
      rw [← hplain, tileEntry_unit]
      exact edgeTail_plain ha hj hangle hc hroom
  | unitIdeal hopen htail =>
      obtain ⟨c, c', hc, hc', rfl⟩ := corners_two hcs
      obtain ⟨edge, angle, hedge, hangle, hc⟩ := corner?_eq hc
      obtain ⟨edge', angle', hedge', hangle', hc'⟩ := corner?_eq hc'
      cases hedge
      refine ⟨j, rfl, ?_⟩
      rw [← hideal, tileEntry_unit, edgeTail_of_token hopen]
      exact idealTail_apply htail hangle hedge' hangle' hc hc' hroom

/-! ### The list -/

omit [Scalar α] in
/-- A round that goes on, and the loop after it. -/
theorem iterate_of_inl {β γ : Type} {step : γ → Drafting α (γ ⊕ β)} {x y : γ} {s t : Desk α}
    (hstep : step x text s = .ok (.inl y) t) (hst : s.offset < t.offset)
    (hs : s.offset < text.size) : iterate step x text s = iterate step y text t :=
  descend_of_inl hstep (.inl (Nat.sub_lt_sub_left hs hst))

/-- The outline of the corners, with a factor or none. -/
def ending? (d : Draft α) (corners : Array (Corner α)) : Option (Tree .sum) → Option (Outline α)
  | none => some ⟨corners, false, 1⟩
  | some t => (d.value? t).bind (repeated? corners)

omit [Scalar α] in
theorem closing_apply {β : Type} {b : β} {fault : Fault} (h : Token text ')' i j) :
    (closing b fault : Drafting α β) text ⟨i, d⟩ = .ok b ⟨j, d⟩ :=
  ofReader_bind (Reader.eat_of_token rfl h)

/-- A factor that is written repeats the corners. -/
theorem tileRepeat_of_spells {corners : Array (Corner α)} {t : Tree .sum} {x : α} {o : Outline α}
    (ht : t.Spells text i k) (hx : d.value? t = some x) (hclose : Token text ')' k j)
    (ho : repeated? corners x = some o) : tileRepeat corners text ⟨i, d⟩ = .ok o ⟨j, d⟩ := by
  change (do let factor ← sum; repeatTail i corners factor : Drafting α _) text ⟨i, d⟩ = _
  refine (bind_apply (sum_of_spells ht hx (.of_token hclose (by decide)))).trans ?_
  have htail := repeatTail_eq i corners x
  rw [ho] at htail
  obtain ⟨fault, htail⟩ := htail
  rw [htail]
  exact closing_apply (hclose.of_gap (gap_gap text k).symm)

/-- Neither the list nor its factor comes next. -/
theorem cornerRound_of_spells {unit : Bool} {e : Entry unit} {corners : Array (Corner α)}
    (h : e.Spells text i j) : cornerRound unit corners text ⟨i, d⟩ = (do
      let corners ← tileEntry unit corners
      if ← Reader.eat "," then return .inl corners
      if ← Reader.eat ")" then return .inr ⟨corners, false, 1⟩
      Reader.fail .expectedSeparator : Drafting α (Array (Corner α) ⊕ Outline α))
        text ⟨gap text i, d⟩ := by
  refine (ofReader_bind (Reader.eat_of_ne rfl (h.first_ne (by decide) (by decide)))).trans ?_
  have hstar := (h.of_gap (gap_gap text i).symm).first_ne (a := '*') (by decide) (by decide)
  refine (ofReader_bind (Reader.eat_of_ne rfl hstar)).trans ?_
  rw [gap_gap]
  rfl

/-- A list of corners that is spelled is read. -/
theorem outline_of_lists {unit : Bool} {entries : List (Entry unit)} {factor : Option (Tree .sum)}
    {corners : Array (Corner α)} {cs : List (Corner α)} {o : Outline α}
    (h : Lists text entries factor i j) (hcs : corners? d entries = some cs)
    (hroom : corners.size + cs.length ≤ maxShapeEdges)
    (ho : ending? d (corners ++ cs.toArray) factor = some o) :
    iterate (cornerRound unit) corners text ⟨i, d⟩ = .ok o ⟨j, d⟩ := by
  induction h generalizing corners cs with
  | close hclose =>
      obtain rfl : [] = cs := Option.some.inj hcs
      obtain rfl : ⟨corners ++ #[], false, 1⟩ = o := Option.some.inj ho
      rw [Array.append_empty]
      exact descend_of_inr (ofReader_bind (Reader.eat_of_token rfl hclose))
  | @factor t i j k l hstar ht hclose =>
      obtain rfl : [] = cs := Option.some.inj hcs
      obtain ⟨x, hx, ho⟩ := Option.bind_eq_some_iff.mp ho
      replace ho : repeated? (corners ++ #[]) x = some o := ho
      rw [Array.append_empty] at ho
      have hne : text[gap text i]? ≠ some ')'.toUInt8 := by
        rw [hstar.byte]
        decide
      refine descend_of_inr ((ofReader_bind (Reader.eat_of_ne rfl hne)).trans ?_)
      have hstar : Reader.eat "*" text (gap text i) = .ok true k :=
        Reader.eat_of_token rfl (hstar.of_gap (gap_gap text i).symm)
      exact (ofReader_bind hstar).trans (bind_apply (tileRepeat_of_spells ht hx hclose ho))
  | @last e i j k he hclose =>
      cases ho
      rw [corners?, List.flatMap_singleton] at hcs
      obtain ⟨l, hl, hentry⟩ := tileEntry_of_spells (he.of_gap (gap_gap text i).symm)
        (.of_token hclose (by decide)) hcs hroom
      refine descend_of_inr ((cornerRound_of_spells he).trans ((bind_apply hentry).trans ?_))
      have hne : text[gap text l]? ≠ some ','.toUInt8 := by
        rw [hl, hclose.byte]
        decide
      refine (ofReader_bind (Reader.eat_of_ne rfl hne)).trans ?_
      have hl : gap text k = gap text (gap text l) := hl.symm.trans (gap_gap text l).symm
      exact ofReader_bind (Reader.eat_of_token rfl (hclose.of_gap hl))
  | @more e es t i j k l he hcomma hrest ih =>
      rw [corners?, List.flatMap_cons, List.mapM_append] at hcs
      obtain ⟨cs₁, cs₂, hcs₁, hcs₂, rfl⟩ := Tree.binary_eq_some.mp hcs
      rw [List.length_append] at hroom
      have hroom₁ : corners.size + cs₁.length ≤ maxShapeEdges := by omega
      obtain ⟨m, hm, hentry⟩ := tileEntry_of_spells (he.of_gap (gap_gap text i).symm)
        (.of_token hcomma (by decide)) hcs₁ hroom₁
      have hround : cornerRound unit corners text ⟨i, d⟩ =
          .ok (.inl (corners ++ cs₁.toArray)) ⟨l, d⟩ := by
        refine (cornerRound_of_spells he).trans ((bind_apply hentry).trans ?_)
        exact ofReader_bind (Reader.eat_of_token rfl (hcomma.of_gap hm.symm))
      obtain ⟨hkl, -, hlt⟩ := hcomma.lt
      have hik := he.lt
      have hk := le_gap text k
      refine (iterate_of_inl hround (hik.trans hkl) (by dsimp only; omega)).trans (ih hcs₂ ?_ ?_)
      · rwa [Array.size_append, List.size_toArray, Nat.add_assoc]
      · rwa [Array.append_assoc, List.append_toArray cs₁ cs₂]

/-! ### The tile -/

/-- There is no room in the catalogue. -/
theorem tile_of_full {unit : Bool} (place : Nat) (h : maxShapes ≤ d.tiling.shapes.size) :
    tile unit place text ⟨i, d⟩ =
      .error (.malformed ⟨.tooManyTiles, Position.of text place⟩) ⟨i, d⟩ := by
  refine (bind_apply (x := draft) rfl).trans ?_
  rw [if_pos h]
  rfl

/-- A tile that is written adds the shape of its corners, or is refused for them. -/
theorem tile_of_lists {unit : Bool} {entries : List (Entry unit)} {factor : Option (Tree .sum)}
    {cs : List (Corner α)} {o : Outline α} (place : Nat)
    (h : Lists text entries factor i j) (hcs : corners? d entries = some cs)
    (hroom : cs.length ≤ maxShapeEdges) (ho : ending? d cs.toArray factor = some o)
    (hshapes : d.tiling.shapes.size < maxShapes) :
    o.Fits ∧ tile unit place text ⟨i, d⟩ =
      if o.corners.isEmpty then
        .error (.malformed ⟨.noCorners, Position.of text place⟩) ⟨j, d⟩
      else addTile o text ⟨j, d⟩ := by
  have houtline : outline unit text ⟨i, d⟩ = .ok o ⟨j, d⟩ := by
    refine outline_of_lists h hcs ?_ ?_
    · rwa [Array.size_empty, Nat.zero_add]
    · rwa [Array.empty_append]
  have hfits := ((outline_yields (E := fun _ => True) unit text ⟨i, d⟩ rfl).1 o _ houtline).2
  refine ⟨hfits, (bind_apply (x := draft) rfl).trans ?_⟩
  rw [if_neg (Nat.not_le_of_lt hshapes)]
  refine (bind_apply houtline).trans ?_
  cases o.corners.isEmpty <;> rfl

end Drafting

end Mosaic
