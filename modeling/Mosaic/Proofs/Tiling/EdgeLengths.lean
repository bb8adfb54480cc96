import Mathlib
import Mosaic.Proofs.Scalar.Whole
import Mosaic.Proofs.Tiling.Symmetry
import Mosaic.Tiling.Gluing

/-!
# Tiling — edge lengths in the double cover

A gluing joins two edges read in opposite directions, so the first one reversed is compared with the
second one (`Tiling.AgreesAcross`).  In the double cover the edges of a mirror image are reversed as
well, so across a mirrored gluing both edges are read in the same direction
(`checkEdgeLengths_doubleCover`).

The check of a tiling does not look at the mirror flag.  The cover of a tiling that it accepts is
accepted exactly when every edge with a mirrored gluing reads the same in both directions: it is
finite, or infinite at both ends (`checkEdgeLengths_doubleCover_iff`).  The ends of an apeirogon are
infinite at one end each; glued to each other with a mirrored gluing they are accepted, but not in
the cover (`glide_refused`).
-/

namespace Mosaic

variable {α : Type}

namespace EdgeLength

/-- The length of an edge in the shape itself or, if `image`, in its mirror image. -/
def onSheet (image : Bool) (d : EdgeLength α) : EdgeLength α := if image then d.flipped else d

@[simp] theorem flipped_flipped (d : EdgeLength α) : d.flipped.flipped = d := by
  cases d <;> rfl

theorem onSheet_xor (b b' : Bool) (d : EdgeLength α) :
    d.onSheet (b ^^ b') = (d.onSheet b').onSheet b := by
  cases b <;> cases b' <;> simp [onSheet]

theorem flipped_onSheet (b : Bool) (d : EdgeLength α) :
    (d.onSheet b).flipped = d.flipped.onSheet b := by
  cases b <;> rfl

variable [Scalar α]

/-- Lengths agree when they agree both read backwards. -/
theorem agrees_onSheet (b : Bool) (d d' : EdgeLength α) :
    (d.onSheet b).agrees (d'.onSheet b) = d.agrees d' := by
  cases b with
  | false => rfl
  | true => cases d <;> cases d' <;> rfl

/-- A length that agrees with another one both ways has no direction. -/
theorem agrees_flipped_iff {d d' : EdgeLength α} (h : d.flipped.agrees d' = true) :
    d.flipped.agrees d'.flipped = true ↔ d.flipped = d := by
  cases d <;> cases d' <;> simp_all [flipped, agrees]

end EdgeLength

namespace Tiling

variable {t d : Tiling α}

/-! ### Edges and gluings of the cover -/

namespace IsDoubleCover

variable [Neg α] (hd : t.IsDoubleCover d) (ht : t.WellFormed)

include hd

/-- The length of an edge of the cover. -/
theorem edge {a e : Nat} (ha : a < t.shapes.size) (he : e < (t.shape a).size) (image : Bool) :
    (d.shape (t.copy image a)).edge (t.copyEdge image a e) =
      ((t.shape a).edge e).onSheet image := by
  cases image with
  | false =>
      obtain ⟨r, hr, -, hedges, -⟩ := hd.original a _ (getElem?_shape ha)
      rw [shape_eq hr, Shape.edge, hedges]
      rfl
  | true =>
      obtain ⟨r, hr, himage⟩ := hd.image a _ (getElem?_shape ha)
      rw [shape_eq hr, Shape.edge, copyEdge, if_pos rfl, himage.edge e he, Shape.edge]
      cases (t.shape a).edges[e]? <;> rfl

include ht

/-- Shapes of the cover have as many edges as gluings, which are as many as the shape they are
copies of has edges. -/
theorem exists_sheet {i : Nat} (hi : i < d.shapes.size) : ∃ image a, a < t.shapes.size ∧
    i = t.copy image a ∧ (d.shape i).edges.size = (t.shape a).size ∧
      (d.shape i).connections.size = (t.shape a).size := by
  rw [hd.size] at hi
  by_cases h : i < t.shapes.size
  · obtain ⟨r, hr, -, hedges, -, hsize⟩ := hd.original i _ (getElem?_shape h)
    rw [show t.copy false i = i from rfl] at hr
    rw [shape_eq hr, hedges, hsize]
    exact ⟨false, i, h, rfl, ht.edges_size _ (shape_mem h), ht.connections_size _ (shape_mem h)⟩
  · have ha : i - t.shapes.size < t.shapes.size := by omega
    obtain ⟨r, hr, himage⟩ := hd.image _ _ (getElem?_shape ha)
    have hcopy : t.copy true (i - t.shapes.size) = i := Nat.sub_add_cancel (by omega)
    rw [hcopy] at hr
    rw [shape_eq hr]
    exact ⟨true, _, ha, hcopy.symm, himage.edges_size, himage.connections_size⟩

/-- Every gluing of the cover is that of a copy of an edge. -/
theorem exists_edge (hends : ∀ s ∈ t.shapes, s.apeirogonal → 2 ≤ s.size) {i f : Nat}
    {c : Connection} (hc : d.connection? i f = some c) :
    ∃ image a e c', t.connection? a e = some c' ∧ i = t.copy image a ∧
      f = t.copyEdge image a e := by
  obtain ⟨hi, hf⟩ := connection?_eq_some_iff.mp hc
  obtain ⟨image, a, ha, rfl, -, hsize⟩ := hd.exists_sheet ht hi
  have hlt : f < (t.shape a).size := hsize ▸ (Array.getElem?_eq_some_iff.mp hf).1
  cases image with
  | false => exact ⟨false, a, f, _, ht.connection_eq ha hlt, rfl, rfl⟩
  | true =>
      refine ⟨true, a, reflectedEdge (t.shape a).size (t.shape a).apeirogonal f, _,
        ht.connection_eq ha (reflectedEdge_lt hlt), rfl, ?_⟩
      exact (reflectedEdge_reflectedEdge (hends _ (shape_mem ha)) hlt).symm

end IsDoubleCover

/-! ### The check -/

variable [Scalar α]

/-- The reverse of edge `e` of shape `a` agrees with the edge that `c` leads to or, if `reversed`,
with the reverse of that edge. -/
def AgreesAcross (t : Tiling α) (reversed : Bool) (a e : Nat) (c : Connection) : Prop :=
  ((t.shape a).edge e).flipped.agrees (((t.shape c.shape).edge c.edge).onSheet reversed) = true

theorem lengthMismatch?_eq_none_iff {s : Shape α} (hs : s.edges.size = s.connections.size) :
    t.lengthMismatch? s = none ↔ ∀ e c, s.connections[e]? = some c →
      (s.edge e).flipped.agrees ((t.shape c.shape).edge c.edge) = true := by
  have hedge : ∀ {e c}, s.connections[e]? = some c → s.edges[e]? = some (s.edge e) := by
    intro e c hc
    have he : e < s.edges.size := hs ▸ (Array.getElem?_eq_some_iff.mp hc).1
    rw [Shape.edge, Array.getElem?_eq_getElem he, Option.getD_some]
  have hmem : ∀ {l c e}, ((l, c), e) ∈ (s.edges.zip s.connections).toList.zipIdx ↔
      s.edges[e]? = some l ∧ s.connections[e]? = some c := by
    intro l c e
    rw [List.mem_zipIdx_iff_getElem?, Array.getElem?_toList, Array.getElem?_zip_eq_some]
  simp only [lengthMismatch?, List.findSome?_eq_none_iff, Prod.forall, hmem, and_imp]
  constructor
  · intro h e c hc
    by_contra hne
    have hmatch := h _ c e (hedge hc) hc
    rw [if_neg hne] at hmatch
    cases hmatch
  · intro h l c e hl hc
    obtain rfl := Option.some.inj ((hedge hc).symm.trans hl)
    rw [if_pos (h e c hc)]

/-- What the check of edge lengths accepts. -/
theorem checkEdgeLengths_eq_ok_iff
    (hs : ∀ a < t.shapes.size, (t.shape a).edges.size = (t.shape a).connections.size) :
    t.checkEdgeLengths = .ok () ↔ t.geometry.isAffine = true ∨
      ∀ a e c, t.connection? a e = some c → t.AgreesAcross false a e c := by
  have hshapes : t.shapes.toList.findSome? t.lengthMismatch? = none ↔
      ∀ a e c, t.connection? a e = some c → t.AgreesAcross false a e c := by
    rw [List.findSome?_eq_none_iff]
    constructor
    · intro h a e c hc
      obtain ⟨ha, hce⟩ := connection?_eq_some_iff.mp hc
      have hnone := h _ (Array.mem_toList_iff.mpr (shape_mem ha))
      exact (lengthMismatch?_eq_none_iff (hs a ha)).mp hnone e c hce
    · intro h s hmem
      obtain ⟨a, hsa⟩ := Array.getElem?_of_mem (Array.mem_toList_iff.mp hmem)
      have ha := (Array.getElem?_eq_some_iff.mp hsa).1
      obtain rfl := shape_eq hsa
      exact (lengthMismatch?_eq_none_iff (hs a ha)).mpr fun e c hc =>
        h a e c (connection?_eq_some_iff.mpr ⟨ha, hc⟩)
  rw [checkEdgeLengths, ← hshapes]
  by_cases haffine : t.geometry.isAffine = true
  · simp [haffine]
  · rw [if_neg haffine]
    cases t.shapes.toList.findSome? t.lengthMismatch? <;> simp [haffine]

section

variable (ht : t.WellFormed)

include ht

theorem WellFormed.checkEdgeLengths_iff : t.checkEdgeLengths = .ok () ↔
    t.geometry.isAffine = true ∨
      ∀ a e c, t.connection? a e = some c → t.AgreesAcross false a e c :=
  checkEdgeLengths_eq_ok_iff fun _ ha =>
    (ht.edges_size _ (shape_mem ha)).trans (ht.connections_size _ (shape_mem ha)).symm

/-- Either copy of an edge is compared as the edge itself is when the mirror flag is heeded. -/
theorem IsDoubleCover.agreesAcross_iff (hd : t.IsDoubleCover d) {a e : Nat} {c : Connection}
    (hc : t.connection? a e = some c) (image : Bool) :
    d.AgreesAcross false (t.copy image a) (t.copyEdge image a e)
      ⟨t.copy (image ^^ c.mirror) c.shape, t.copyEdge (image ^^ c.mirror) c.shape c.edge, false⟩ ↔
    t.AgreesAcross c.mirror a e c := by
  obtain ⟨ha, hce⟩ := connection?_eq_some_iff.mp hc
  have hmem := Array.mem_of_getElem? hce
  have he : e < (t.shape a).size :=
    ht.connections_size _ (shape_mem ha) ▸ (Array.getElem?_eq_some_iff.mp hce).1
  have hpartner := hd.edge (ht.target_shape _ (shape_mem ha) c hmem)
    (ht.target_edge _ (shape_mem ha) c hmem) (image ^^ c.mirror)
  have hsheet (x : EdgeLength α) : x.onSheet false = x := rfl
  rw [AgreesAcross, AgreesAcross, hd.edge ha he, hpartner, hsheet, EdgeLength.flipped_onSheet,
    EdgeLength.onSheet_xor image, EdgeLength.agrees_onSheet]

/-- **The check of the double cover**: across a mirrored gluing it reads both edges in the same
direction. -/
theorem checkEdgeLengths_doubleCover (hangles : ∀ s ∈ t.shapes, s.angles.size = s.size)
    (hends : ∀ s ∈ t.shapes, s.apeirogonal → 2 ≤ s.size) :
    t.doubleCover.checkEdgeLengths = .ok () ↔ t.geometry.isAffine = true ∨
      ∀ a e c, t.connection? a e = some c → t.AgreesAcross c.mirror a e c := by
  by_cases hm : t.mirrorCount = 0
  · have hcover : t.doubleCover.checkEdgeLengths = t.checkEdgeLengths := by
      rw [doubleCover_of_plain hm]
      rfl
    rw [hcover, ht.checkEdgeLengths_iff]
    refine or_congr_right (forall₃_congr fun a e c => imp_congr_right fun hc => ?_)
    rw [mirror_eq_false hm hc]
  · have hd := doubleCover_isDoubleCover ht hangles hends (exists_mirrored hm)
    have hgeometry : t.doubleCover.geometry = t.geometry := geometry_doubleCover
    generalize t.doubleCover = d at hd hgeometry
    have hsizes : ∀ i < d.shapes.size, (d.shape i).edges.size = (d.shape i).connections.size := by
      intro i hi
      obtain ⟨image, a, -, -, hedges, hconnections⟩ := hd.exists_sheet ht hi
      exact hedges.trans hconnections.symm
    rw [checkEdgeLengths_eq_ok_iff hsizes, hgeometry]
    refine or_congr_right ⟨fun h a e c hc => ?_, fun h i f c hc => ?_⟩
    · exact (hd.agreesAcross_iff ht hc false).mp (h _ _ _ (hd.glued a e c hc false))
    · obtain ⟨image, a, e, c', hc', rfl, rfl⟩ := hd.exists_edge ht hends hc
      cases (hd.glued a e c' hc' image).symm.trans hc
      exact (hd.agreesAcross_iff ht hc' image).mpr (h a e c' hc')

/-- **Which checks of edge lengths survive the double cover.**  The cover of a tiling with matching
lengths has matching lengths exactly when no edge with a mirrored gluing is infinite at one end
only; in affine tilings lengths are not compared. -/
theorem checkEdgeLengths_doubleCover_iff (hangles : ∀ s ∈ t.shapes, s.angles.size = s.size)
    (hends : ∀ s ∈ t.shapes, s.apeirogonal → 2 ≤ s.size) (hok : t.checkEdgeLengths = .ok ()) :
    t.doubleCover.checkEdgeLengths = .ok () ↔ t.geometry.isAffine = true ∨
      ∀ a e c, t.connection? a e = some c → c.mirror = true →
        ((t.shape a).edge e).flipped = (t.shape a).edge e := by
  rw [checkEdgeLengths_doubleCover ht hangles hends]
  by_cases haffine : t.geometry.isAffine = true
  · simp [haffine]
  have hagrees := (ht.checkEdgeLengths_iff.mp hok).resolve_left haffine
  refine or_congr_right (forall₃_congr fun a e c => forall_congr' fun hc => ?_)
  cases hmirror : c.mirror with
  | false => simp [hagrees a e c hc]
  | true =>
      have hboth := EdgeLength.agrees_flipped_iff (hagrees a e c hc)
      exact hboth.trans ⟨fun h _ => h, fun h => h rfl⟩

end

/-! ### Two apeirogons -/

/-- A tiling by one apeirogon: an edge of two units, and the two ends at infinity. -/
def apeirogon (connections : Array Connection) : Tiling Whole :=
  { (Tiling.empty : Tiling Whole) with
    shapes := #[{ (Shape.empty : Shape Whole) with
      vertices := Array.replicate 3 Point.origin
      angles := #[1, 0, 1]
      edges := #[.finite 2, .infiniteLeft, .infiniteRight]
      apeirogonal := true
      connections }] }

/-- The finite edge is glued to itself by a mirrored gluing. -/
def strap : Tiling Whole := apeirogon #[⟨0, 0, true⟩, ⟨0, 2, false⟩, ⟨0, 1, false⟩]

theorem strap_accepted : strap.WellFormed ∧ strap.checkEdgeLengths = .ok () ∧
    strap.doubleCover.checkEdgeLengths = .ok () := by
  have ht : strap.WellFormed := by decide
  have hok : strap.checkEdgeLengths = .ok () := by cbv
  have hmirrored : ∀ a e c, strap.connection? a e = some c → c.mirror = true →
      ((strap.shape a).edge e).flipped = (strap.shape a).edge e := by
    intro a e c hc hmirror
    obtain ⟨ha, hce⟩ := connection?_eq_some_iff.mp hc
    obtain rfl : a = 0 := by simpa [strap, apeirogon] using ha
    rcases e with _ | _ | _ | e
    · rfl
    · obtain rfl := Option.some.inj hce
      cases hmirror
    · obtain rfl := Option.some.inj hce
      cases hmirror
    · cases hce
  refine ⟨ht, hok, (checkEdgeLengths_doubleCover_iff ht ?_ ?_ hok).mpr (Or.inr hmirrored)⟩
  · simp [strap, apeirogon, Shape.size]
  · simp [strap, apeirogon, Shape.size]

/-- The two ends are glued to each other by a mirrored gluing. -/
def glide : Tiling Whole := apeirogon #[⟨0, 0, false⟩, ⟨0, 2, true⟩, ⟨0, 1, true⟩]

/-- The check of edge lengths accepts the mirrored gluing of the two ends, which lie at opposite
ends of their edges, and refuses its lift. -/
theorem glide_refused : glide.WellFormed ∧ glide.checkEdgeLengths = .ok () ∧
    glide.doubleCover.checkEdgeLengths =
      .error (.edgeLengthMismatch 0 1 ⟨1, 1, false⟩ .infiniteLeft .infiniteLeft) :=
  ⟨by decide, by cbv, by cbv⟩

end Tiling

end Mosaic
