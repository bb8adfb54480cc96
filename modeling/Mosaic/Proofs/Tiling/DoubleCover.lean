import Mosaic.Proofs.Tiling.WellFormed
import Mosaic.Scalar.Double
import Mosaic.Tiling.DoubleCover

/-!
# Tiling — the double cover is one

The mirror image of a shape is walked in the opposite direction, and vertices, angles, edges and
gluings are turned around in four different ways: vertex `0` stays, the last angle stays, edges and
gluings are all reversed, and in an apeirogon all of them are moved by two places.  All four agree
with one numbering: edge `e` gets the number `reflectedEdge n apeirogonal e` (`IsReflection`).

`Tiling.doubleCover` of a well-formed tiling with a mirrored gluing is its orientation double
cover (`IsDoubleCover`, `doubleCover_isDoubleCover`): an edge of either copy of a shape is glued to
the edge its gluing names, in the copy of the target on the other sheet exactly when the gluing is
mirrored.
-/

namespace Mosaic

/-! ### Turning lists around -/

section Lists

variable {β : Type}

/-- The place of item `f` of `n` items after a shift by two, if there is one. -/
def shifted (n : Nat) (apeirogonal : Bool) (f : Nat) : Nat :=
  if apeirogonal then (f + n - 2) % n else f

/-- The list, shifted by two if `apeirogonal`. -/
def shiftedList (apeirogonal : Bool) (xs : Array β) : Array β :=
  if apeirogonal then rotateByTwo xs else xs

/-- The list with everything but its first item turned around. -/
def reverseTail (xs : Array β) : Array β := xs.extract 0 1 ++ (xs.extract 1 xs.size).reverse

/-- The list with everything but its last item turned around. -/
def reverseInit (xs : Array β) : Array β :=
  (xs.extract 0 (xs.size - 1)).reverse ++ xs.extract (xs.size - 1) xs.size

/-- Two steps back around `n` edges. -/
theorem sub_two_mod {n f : Nat} (hn : 2 ≤ n) (hf : f < n) :
    (f + n - 2) % n = if f < 2 then f + n - 2 else f - 2 := by
  split
  · rw [Nat.mod_eq_of_lt (by omega)]
  · rw [show f + n - 2 = f - 2 + n by omega, Nat.add_mod_right, Nat.mod_eq_of_lt (by omega)]

theorem succ_mod {n f : Nat} (hf : f < n) : (f + 1) % n = if f + 1 = n then 0 else f + 1 := by
  split
  · rw [‹f + 1 = n›, Nat.mod_self]
  · rw [Nat.mod_eq_of_lt (by omega)]

theorem pred_mod {n f : Nat} (hf : f < n) : (f + n - 1) % n = if f = 0 then n - 1 else f - 1 := by
  split
  · rw [Nat.mod_eq_of_lt (by omega)]
    omega
  · rw [show f + n - 1 = f - 1 + n by omega, Nat.add_mod_right, Nat.mod_eq_of_lt (by omega)]

/-- A step and a step back. -/
theorem pred_succ_mod {n f : Nat} (hf : f < n) : ((f + 1) % n + n - 1) % n = f := by
  rw [succ_mod hf]
  split
  · rw [pred_mod (by omega), if_pos rfl]
    omega
  · rw [pred_mod (by omega), if_neg (Nat.succ_ne_zero f), Nat.add_sub_cancel]

theorem shifted_lt {n f : Nat} {ap : Bool} (hf : f < n) : shifted n ap f < n := by
  cases ap with
  | false => exact hf
  | true => exact Nat.mod_lt _ (by omega)

/-- Shifting takes neighbours to neighbours. -/
theorem shifted_succ {n f : Nat} {ap : Bool} (hap : ap → 2 ≤ n) (hf : f < n) :
    (shifted n ap f + 1) % n = shifted n ap ((f + 1) % n) := by
  cases ap with
  | false => rfl
  | true =>
      have hn : 2 ≤ n := hap rfl
      have hf' : (f + 1) % n < n := Nat.mod_lt _ (by omega)
      have hs : (f + n - 2) % n < n := Nat.mod_lt _ (by omega)
      simp only [shifted, if_true]
      rw [succ_mod hs, sub_two_mod hn hf, sub_two_mod hn hf', succ_mod hf]
      grind

/-- Shifting takes an edge and the one before it to such edges. -/
theorem shifted_pred {n f : Nat} {ap : Bool} (hap : ap → 2 ≤ n) (hf : f < n) :
    (shifted n ap f + n - 1) % n = shifted n ap ((f + n - 1) % n) := by
  cases ap with
  | false => rfl
  | true =>
      have hn : 2 ≤ n := hap rfl
      have hf' : (f + n - 1) % n < n := Nat.mod_lt _ (by omega)
      have hs : (f + n - 2) % n < n := Nat.mod_lt _ (by omega)
      simp only [shifted, if_true]
      rw [pred_mod hs, sub_two_mod hn hf, sub_two_mod hn hf', pred_mod hf]
      grind

theorem size_rotateByTwo (xs : Array β) : (rotateByTwo xs).size = xs.size := by
  simp only [rotateByTwo, Array.size_append, Array.size_extract]
  omega

@[simp] theorem size_shiftedList (ap : Bool) (xs : Array β) :
    (shiftedList ap xs).size = xs.size := by
  cases ap with
  | false => rfl
  | true => exact size_rotateByTwo xs

@[simp] theorem size_reverseTail (xs : Array β) : (reverseTail xs).size = xs.size := by
  simp only [reverseTail, Array.size_append, Array.size_reverse, Array.size_extract]
  omega

@[simp] theorem size_reverseInit (xs : Array β) : (reverseInit xs).size = xs.size := by
  simp only [reverseInit, Array.size_append, Array.size_reverse, Array.size_extract]
  omega

/-- What a shifted list has at a shifted index. -/
theorem getElem?_shiftedList {ap : Bool} (xs : Array β) (hap : ap → 2 ≤ xs.size) {f : Nat}
    (hf : f < xs.size) : (shiftedList ap xs)[shifted xs.size ap f]? = xs[f]? := by
  cases ap with
  | false => rfl
  | true =>
      have hn : 2 ≤ xs.size := hap rfl
      simp only [shiftedList, shifted, if_true, rotateByTwo, Array.getElem?_append,
        Array.size_extract, Array.getElem?_extract]
      rw [sub_two_mod hn hf]
      grind

/-- A list that is reversed behind its first item is reversed as a cycle. -/
theorem getElem?_reverseTail (xs : Array β) {f : Nat} (hf : f < xs.size) :
    (reverseTail xs)[(xs.size - f) % xs.size]? = xs[f]? := by
  cases f with
  | zero =>
      rw [Nat.sub_zero, Nat.mod_self, reverseTail, Array.getElem?_append_left (by simp; omega),
        Array.getElem?_extract]
      grind
  | succ f =>
      have hi : xs.size - (f + 1) - 1 < (xs.extract 1 xs.size).size := by
        rw [Array.size_extract]
        omega
      rw [Nat.mod_eq_of_lt (by omega), reverseTail, Array.getElem?_append_right (by simp; omega),
        show (xs.extract 0 1).size = 1 by simp; omega, Array.getElem?_reverse hi,
        Array.getElem?_extract]
      grind

/-- A list that is reversed before its last item is reversed as a cycle. -/
theorem getElem?_reverseInit (xs : Array β) {f : Nat} (hf : f < xs.size) :
    (reverseInit xs)[(xs.size - 1 - f + xs.size - 1) % xs.size]? = xs[f]? := by
  rw [pred_mod (by omega)]
  have hs : ((xs.extract 0 (xs.size - 1)).reverse).size = xs.size - 1 := by
    simp
  split
  · rw [reverseInit, Array.getElem?_append_right (by omega), hs, Array.getElem?_extract]
    grind
  · have hi : xs.size - 1 - f - 1 < (xs.extract 0 (xs.size - 1)).size := by
      rw [Array.size_extract]
      omega
    rw [reverseInit, Array.getElem?_append_left (by omega), Array.getElem?_reverse hi,
      Array.getElem?_extract]
    grind

end Lists

/-! ### The mirror image of a shape -/

variable {α : Type}

/-- The image of a point under `y ↦ -y`. -/
def Point.conjugate [Neg α] (p : Point α) : Point α := { p with y := -p.y }

/-- `r` is the mirror image of `s` under `y ↦ -y`, walked in the direction of `s`: edge `e` runs
between the images of its end points, which trade places, and every corner keeps its angle. -/
structure Shape.IsReflection [Neg α] (s r : Shape α) : Prop where
  size : r.size = s.size
  edges_size : r.edges.size = s.size
  angles_size : r.angles.size = s.size
  connections_size : r.connections.size = s.size
  start : ∀ e < s.size, r.vertices[reflectedEdge s.size s.apeirogonal e]? =
    (s.vertices[(e + 1) % s.size]?).map Point.conjugate
  finish : ∀ e < s.size, r.vertices[(reflectedEdge s.size s.apeirogonal e + 1) % s.size]? =
    (s.vertices[e]?).map Point.conjugate
  edge : ∀ e < s.size, r.edges[reflectedEdge s.size s.apeirogonal e]? =
    (s.edges[e]?).map EdgeLength.flipped
  /-- The angle at the start of the image of edge `e` is the one at the end of edge `e`. -/
  angle : ∀ e < s.size,
    r.angles[(reflectedEdge s.size s.apeirogonal e + s.size - 1) % s.size]? = s.angles[e]?

theorem reflectedEdge_eq (n : Nat) (ap : Bool) (e : Nat) :
    reflectedEdge n ap e = shifted n ap (n - 1 - e) := rfl

namespace Shape

variable [Neg α] (s : Shape α)

theorem reflected_vertices : s.reflected.vertices =
    shiftedList s.apeirogonal (reverseTail (s.vertices.map Point.conjugate)) := by
  unfold reflected shiftedList
  split <;> rfl

theorem reflected_edges : s.reflected.edges =
    shiftedList s.apeirogonal (s.edges.reverse.map EdgeLength.flipped) := by
  unfold reflected shiftedList
  split <;> rfl

theorem reflected_angles :
    s.reflected.angles = shiftedList s.apeirogonal (reverseInit s.angles) := by
  unfold reflected shiftedList
  split <;> rfl

theorem reflected_connections :
    s.reflected.connections = shiftedList s.apeirogonal s.connections.reverse := by
  unfold reflected shiftedList
  split <;> rfl

variable {s}

/-- The gluings of the mirror image are those of the shape, renumbered. -/
theorem getElem?_reflected_connections (hap : s.apeirogonal → 2 ≤ s.size)
    (hc : s.connections.size = s.size) {e : Nat} (he : e < s.size) :
    s.reflected.connections[reflectedEdge s.size s.apeirogonal e]? = s.connections[e]? := by
  have hr : s.connections.reverse.size = s.size := by rw [Array.size_reverse, hc]
  have h := getElem?_shiftedList s.connections.reverse (f := s.size - 1 - e)
    (by rwa [hr]) (by omega)
  rw [hr] at h
  rw [reflected_connections, reflectedEdge_eq, h, Array.getElem?_reverse (by omega)]
  congr 1
  omega

/-- The vertices of the mirror image are those of the shape, numbered backwards from vertex `0`. -/
theorem getElem?_reflected_vertices (hap : s.apeirogonal → 2 ≤ s.size) {k : Nat} (hk : k < s.size) :
    s.reflected.vertices[shifted s.size s.apeirogonal ((s.size - k) % s.size)]? =
      (s.vertices[k]?).map Point.conjugate := by
  have hv : (s.vertices.map Point.conjugate).size = s.size := Array.size_map
  have ht : (reverseTail (s.vertices.map Point.conjugate)).size = s.size := by
    rw [size_reverseTail, hv]
  have h₁ := getElem?_shiftedList (reverseTail (s.vertices.map Point.conjugate))
    (f := (s.size - k) % s.size) (by rwa [ht]) (by rw [ht]; exact Nat.mod_lt _ (by omega))
  have h₂ := getElem?_reverseTail (s.vertices.map Point.conjugate) (f := k) (by omega)
  rw [ht] at h₁
  rw [hv] at h₂
  rw [reflected_vertices, h₁, h₂, Array.getElem?_map]

/-- The angles of the mirror image are those of the shape, numbered backwards from the last one. -/
theorem getElem?_reflected_angles (hap : s.apeirogonal → 2 ≤ s.size)
    (ha : s.angles.size = s.size) {k : Nat} (hk : k < s.size) :
    s.reflected.angles[shifted s.size s.apeirogonal ((s.size - 1 - k + s.size - 1) % s.size)]? =
      s.angles[k]? := by
  have ht : (reverseInit s.angles).size = s.size := by rw [size_reverseInit, ha]
  have h₁ := getElem?_shiftedList (reverseInit s.angles)
    (f := (s.size - 1 - k + s.size - 1) % s.size) (by rwa [ht])
    (by rw [ht]; exact Nat.mod_lt _ (by omega))
  have h₂ := getElem?_reverseInit s.angles (f := k) (by omega)
  rw [ht] at h₁
  rw [ha] at h₂
  rw [reflected_angles, h₁, h₂]

/-- The image of an edge is the edge, seen from the other side. -/
theorem getElem?_reflected_edges (hap : s.apeirogonal → 2 ≤ s.size) (hs : s.edges.size = s.size)
    {e : Nat} (he : e < s.size) :
    s.reflected.edges[reflectedEdge s.size s.apeirogonal e]? =
      (s.edges[e]?).map EdgeLength.flipped := by
  have hr : (s.edges.reverse.map EdgeLength.flipped).size = s.size := by simp [hs]
  have h := getElem?_shiftedList (s.edges.reverse.map EdgeLength.flipped)
    (f := s.size - 1 - e) (by rwa [hr]) (by omega)
  rw [hr] at h
  rw [reflected_edges, reflectedEdge_eq, h, Array.getElem?_map, Array.getElem?_reverse (by omega),
    show s.edges.size - 1 - (s.size - 1 - e) = e by omega]

/-- The mirror image of a shape is its reflection. -/
theorem reflected_isReflection (hap : s.apeirogonal → 2 ≤ s.size) (hs : s.edges.size = s.size)
    (ha : s.angles.size = s.size) (hc : s.connections.size = s.size) :
    s.IsReflection s.reflected where
  size := by rw [size, reflected_vertices]; simp [size]
  edges_size := by rw [reflected_edges]; simp [hs]
  angles_size := by rw [reflected_angles]; simp [ha]
  connections_size := by rw [reflected_connections]; simp [hc]
  start e he := by
    have hk : (e + 1) % s.size < s.size := Nat.mod_lt _ (by omega)
    have hplace : (s.size - (e + 1) % s.size) % s.size = s.size - 1 - e := by
      rw [succ_mod he]
      split
      · rw [Nat.sub_zero, Nat.mod_self]
        omega
      · rw [Nat.mod_eq_of_lt (by omega)]
        omega
    rw [reflectedEdge_eq, ← hplace, getElem?_reflected_vertices hap hk]
  finish e he := by
    have hplace : (s.size - 1 - e + 1) % s.size = (s.size - e) % s.size := by
      rw [show s.size - 1 - e + 1 = s.size - e by omega]
    rw [reflectedEdge_eq, shifted_succ hap (by omega), hplace, getElem?_reflected_vertices hap he]
  edge e he := getElem?_reflected_edges hap hs he
  angle e he := by
    rw [reflectedEdge_eq, shifted_pred hap (by omega), getElem?_reflected_angles hap ha he]

end Shape

/-! ### The cover -/

namespace Tiling

/-- The number of the copy of shape `a` on the first or, if `image`, on the second sheet of the
double cover. -/
def copy (t : Tiling α) (image : Bool) (a : Nat) : Nat := if image then a + t.shapes.size else a

/-- The number of the copy of edge `e` of shape `a` in that copy of the shape. -/
def copyEdge (t : Tiling α) (image : Bool) (a e : Nat) : Nat :=
  if image then reflectedEdge (t.shape a).size (t.shape a).apeirogonal e else e

/-- `d` is the orientation double cover of `t`: its first sheet holds the shapes of `t` and its
second one their mirror images, and a gluing leads to the other sheet when it is mirrored. -/
structure IsDoubleCover [Neg α] (t d : Tiling α) : Prop where
  size : d.shapes.size = 2 * t.shapes.size
  id : ∀ (i : Nat) (s : Shape α), d.shapes[i]? = some s → s.id = i
  oriented : ∀ s ∈ d.shapes, ∀ c ∈ s.connections, c.mirror = false
  glued : ∀ a e c, t.connection? a e = some c → ∀ image : Bool,
    d.connection? (t.copy image a) (t.copyEdge image a e) =
      some ⟨t.copy (image ^^ c.mirror) c.shape, t.copyEdge (image ^^ c.mirror) c.shape c.edge, false⟩
  original : ∀ (a : Nat) (s : Shape α), t.shapes[a]? = some s → ∃ r, d.shapes[t.copy false a]? = some r ∧
    r.vertices = s.vertices ∧ r.edges = s.edges ∧ r.angles = s.angles ∧
    r.connections.size = s.connections.size
  image : ∀ (a : Nat) (s : Shape α), t.shapes[a]? = some s → ∃ r, d.shapes[t.copy true a]? = some r ∧ s.IsReflection r

theorem le_foldl_add {β : Type} (f : β → Nat) :
    ∀ (l : List β) (n : Nat), n ≤ l.foldl (fun n b => n + f b) n
  | [], n => Nat.le_refl n
  | b :: l, n => Nat.le_trans (Nat.le_add_right n (f b)) (le_foldl_add f l _)

theorem le_foldl_add_of_mem {β : Type} (f : β → Nat) {b : β} :
    ∀ {l : List β} (n : Nat), b ∈ l → f b ≤ l.foldl (fun n b => n + f b) n
  | c :: l, n, h => by
      rcases List.mem_cons.mp h with rfl | h'
      · exact Nat.le_trans (Nat.le_add_left (f b) n) (le_foldl_add f l _)
      · have := le_foldl_add_of_mem f (n + f c) h'
        exact this

/-- A mirrored gluing counts. -/
theorem mirrorCount_ne_zero {t : Tiling α} {s : Shape α} {c : Connection} (hs : s ∈ t.shapes)
    (hc : c ∈ s.connections) (hm : c.mirror = true) : t.mirrorCount ≠ 0 := by
  have hpos : 0 < s.connections.countP (·.mirror) := Array.countP_pos_iff.mpr ⟨c, hc, hm⟩
  have hle := le_foldl_add_of_mem (fun s : Shape α => s.connections.countP (·.mirror)) 0
    (Array.mem_toList_iff.mpr hs)
  rw [Array.foldl_toList] at hle
  exact Nat.ne_of_gt (Nat.lt_of_lt_of_le hpos hle)

/-- What is counted is a mirrored gluing. -/
theorem exists_mirrored {t : Tiling α} (hm : t.mirrorCount ≠ 0) :
    ∃ s ∈ t.shapes, ∃ c ∈ s.connections, c.mirror = true := by
  refine Classical.byContradiction fun hnone => hm ?_
  have hcount : ∀ s ∈ t.shapes, s.connections.countP (·.mirror) = 0 := fun s hs =>
    Array.countP_eq_zero.mpr fun c hc hmirror => hnone ⟨s, hs, c, hc, hmirror⟩
  rw [mirrorCount]
  refine Array.foldl_induction (motive := fun _ n => n = 0) rfl fun i n hn => ?_
  rw [hn, Nat.zero_add]
  exact hcount _ (Array.getElem_mem i.isLt)

/-- If no gluing is counted, none is mirrored. -/
theorem mirror_eq_false {t : Tiling α} (hm : t.mirrorCount = 0) {a e : Nat} {c : Connection}
    (hc : t.connection? a e = some c) : c.mirror = false := by
  obtain ⟨ha, hce⟩ := connection?_eq_some_iff.mp hc
  exact Bool.eq_false_iff.mpr fun hmirror =>
    mirrorCount_ne_zero (shape_mem ha) (Array.mem_of_getElem? hce) hmirror hm

/-- A gluing of the double cover is not mirrored. -/
theorem liftConnection_mirror (t : Tiling α) (image : Bool) (c : Connection) :
    (t.liftConnection image c).mirror = false := by
  unfold liftConnection
  split <;> rfl

/-- A mirrored gluing leads to the other copy, any other one stays in its copy. -/
theorem liftConnection_eq {t : Tiling α} {c : Connection} (image : Bool)
    (hc : (t.shape c.shape).angles.size = (t.shape c.shape).size) :
    t.liftConnection image c =
      ⟨t.copy (image ^^ c.mirror) c.shape, t.copyEdge (image ^^ c.mirror) c.shape c.edge, false⟩ := by
  cases image <;> cases h : c.mirror <;> simp [liftConnection, copy, copyEdge, h, hc]

/-- A shape on a sheet of the double cover. -/
def lift (t : Tiling α) (image : Bool) (id : Nat) (s : Shape α) : Shape α :=
  { s with id, connections := s.connections.map (t.liftConnection image) }

variable [Neg α] {t : Tiling α}

/-- A tiling without mirrored gluings is its own cover. -/
theorem doubleCover_of_plain (hm : t.mirrorCount = 0) :
    t.doubleCover = { t with mirrorRules := 0 } := by
  rw [doubleCover, hm, if_pos rfl]

@[simp] theorem geometry_doubleCover : t.doubleCover.geometry = t.geometry := by
  unfold doubleCover
  dsimp only
  split <;> rfl

@[simp] theorem isStar_doubleCover : t.doubleCover.isStar = t.isStar := by
  unfold doubleCover
  dsimp only
  split <;> rfl

/-- The shapes of a double cover are those of the tiling, and behind them their mirror images. -/
theorem doubleCover_shapes (hm : t.mirrorCount ≠ 0) : t.doubleCover.shapes =
    t.shapes.mapIdx (fun i s => t.lift false i s) ++
      t.shapes.mapIdx (fun i s => t.lift true (t.shapes.size + i) s.reflected) := by
  have hmap : ∀ g : Nat → Shape α → Shape α,
      (t.shapes.map Shape.reflected).mapIdx g = t.shapes.mapIdx fun i s => g i s.reflected := by
    intro g
    apply Array.ext_getElem?
    intro i
    simp only [Array.getElem?_mapIdx, Array.getElem?_map, Option.map_map]
    rfl
  simp only [doubleCover, hm, if_false, hmap, Nat.zero_add]
  rfl

/-- The copies of a shape in the double cover. -/
theorem getElem?_doubleCover (hm : t.mirrorCount ≠ 0) {a : Nat} {s : Shape α}
    (hs : t.shapes[a]? = some s) (image : Bool) : t.doubleCover.shapes[t.copy image a]? =
      some (t.lift image (t.copy image a) (if image then s.reflected else s)) := by
  have ha : a < t.shapes.size := (Array.getElem?_eq_some_iff.mp hs).1
  rw [doubleCover_shapes hm]
  cases image with
  | false =>
      rw [show t.copy false a = a from rfl, Array.getElem?_append_left (by simpa using ha),
        Array.getElem?_mapIdx, hs]
      rfl
  | true =>
      rw [show t.copy true a = a + t.shapes.size from rfl,
        Array.getElem?_append_right (by simp), Array.size_mapIdx, Nat.add_sub_cancel,
        Array.getElem?_mapIdx, hs, Nat.add_comm a]
      rfl

/-- Every shape of the double cover is a copy of a shape. -/
theorem exists_copy (hm : t.mirrorCount ≠ 0) {i : Nat} {r : Shape α}
    (hr : t.doubleCover.shapes[i]? = some r) : ∃ image a s, t.shapes[a]? = some s ∧
      i = t.copy image a ∧ r = t.lift image i (if image then s.reflected else s) := by
  have hsize : t.doubleCover.shapes.size = t.shapes.size + t.shapes.size := by
    rw [doubleCover_shapes hm]
    simp
  have hi : i < t.shapes.size + t.shapes.size :=
    hsize ▸ (Array.getElem?_eq_some_iff.mp hr).1
  -- The sheet that `i` lies on is read off its size.
  obtain ⟨image, a, ha, rfl⟩ : ∃ image a, a < t.shapes.size ∧ i = t.copy image a := by
    by_cases h : i < t.shapes.size
    · exact ⟨false, i, h, rfl⟩
    · exact ⟨true, i - t.shapes.size, by omega, (Nat.sub_add_cancel (by omega)).symm⟩
  rw [getElem?_doubleCover hm (getElem?_shape ha) image] at hr
  exact ⟨image, a, _, getElem?_shape ha, rfl, (Option.some.inj hr).symm⟩

/-- **The double cover.**  A well-formed tiling with a mirrored gluing, in which every apeirogon
has room for its two ends, is replaced by its orientation double cover. -/
theorem doubleCover_isDoubleCover (ht : t.WellFormed)
    (hangles : ∀ s ∈ t.shapes, s.angles.size = s.size)
    (hends : ∀ s ∈ t.shapes, s.apeirogonal → 2 ≤ s.size)
    (hmirror : ∃ s ∈ t.shapes, ∃ c ∈ s.connections, c.mirror = true) :
    t.IsDoubleCover t.doubleCover := by
  obtain ⟨s₀, hs₀, c₀, hc₀, hm₀⟩ := hmirror
  have hm : t.mirrorCount ≠ 0 := mirrorCount_ne_zero hs₀ hc₀ hm₀
  constructor
  case size =>
    rw [doubleCover_shapes hm]
    simp
    omega
  case id =>
    intro i r hr
    obtain ⟨image, a, s, -, -, rfl⟩ := exists_copy hm hr
    rfl
  case oriented =>
    intro r hr c hc
    obtain ⟨i, hi⟩ := Array.getElem?_of_mem hr
    obtain ⟨image, a, s, -, -, rfl⟩ := exists_copy hm hi
    obtain ⟨c', -, rfl⟩ := Array.mem_map.mp hc
    exact t.liftConnection_mirror image c'
  case glued =>
    intro a e c hc image
    obtain ⟨ha, hce⟩ := connection?_eq_some_iff.mp hc
    have hs := shape_mem ha
    have hcs := ht.connections_size _ hs
    have he : e < (t.shape a).size := hcs ▸ (Array.getElem?_eq_some_iff.mp hce).1
    have htarget := ht.target_shape _ hs c (Array.mem_of_getElem? hce)
    have hcopy : (if image then (t.shape a).reflected else t.shape a).connections[
        t.copyEdge image a e]? = some c := by
      cases image with
      | false => exact hce
      | true => exact (Shape.getElem?_reflected_connections (hends _ hs) hcs he).trans hce
    rw [connection?, getElem?_doubleCover hm (getElem?_shape ha) image]
    rw [← liftConnection_eq image (hangles _ (shape_mem htarget))]
    simp [lift, hcopy]
  case original =>
    intro a s hs
    exact ⟨_, getElem?_doubleCover hm hs false, rfl, rfl, rfl, Array.size_map⟩
  case image =>
    intro a s hs
    have hmem : s ∈ t.shapes := Array.mem_of_getElem? hs
    have hr := Shape.reflected_isReflection (hends s hmem) (ht.edges_size s hmem)
      (hangles s hmem) (ht.connections_size s hmem)
    refine ⟨_, getElem?_doubleCover hm hs true, { hr with connections_size := ?_ }⟩
    exact Array.size_map.trans hr.connections_size

/-- A triangle and an apeirogon, each with an edge glued to an edge of the other by a mirrored
gluing. -/
def strip : Tiling Float :=
  let shape (apeirogonal : Bool) (connections : Array Connection) : Shape Float :=
    { (Shape.empty : Shape Float) with
      vertices := Array.replicate 3 Point.origin
      angles := Array.replicate 3 1
      edges := #[.finite 1, .infiniteLeft, .infiniteBoth]
      connections, apeirogonal }
  { (Tiling.empty : Tiling Float) with
    shapes := #[shape false #[⟨0, 1, false⟩, ⟨0, 0, false⟩, ⟨1, 0, true⟩],
      shape true #[⟨0, 2, true⟩, ⟨1, 2, false⟩, ⟨1, 1, false⟩]] }

theorem strip_isDoubleCover : strip.WellFormed ∧ strip.IsDoubleCover strip.doubleCover := by
  have ht : strip.WellFormed := by decide
  refine ⟨ht, doubleCover_isDoubleCover ht ?_ ?_ ?_⟩ <;> simp [strip, Shape.size]

end Tiling

end Mosaic
