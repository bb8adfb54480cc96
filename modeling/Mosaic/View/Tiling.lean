import Mosaic.Tiling.Basic
import Mosaic.View.Document

/-!
# View — tilings

The exported form of a tiling: its name and parameters, and of every shape the geometry and the
gluings. Valences and sublines are left out where there are none.
-/

namespace Mosaic

variable {α : Type}

open Document

/-- An edge length, tagged by its kind. -/
def EdgeLength.view : EdgeLength α → Document α
  | finite d => record [("kind", text "finite"), ("value", number d)]
  | infiniteLeft => record [("kind", text "infinite_left")]
  | infiniteRight => record [("kind", text "infinite_right")]
  | infiniteBoth => record [("kind", text "infinite_both")]

/-- A gluing. -/
def Connection.view (c : Connection) : Document α :=
  record [("sid", natural c.shape), ("eid", natural c.edge), ("mirror", flag c.mirror)]

/-- A valence. -/
def Valence.view : Valence → Document α
  | finite n => record [("finite", natural n)]
  | unbounded => text "unbounded"

/-- A field that is left out when its list is empty. -/
def optionalField {β : Type} (name : String) (f : β → Document α) (xs : Array β) :
    List (String × Document α) :=
  if xs.isEmpty then [] else [(name, ofArray f xs)]

/-- The geometry and the gluings of a shape. -/
def Shape.view (s : Shape α) : Document α :=
  record <|
    [("id", natural s.id),
     ("vertices", ofArray (fun p => list [number p.x, number p.y, number p.z]) s.vertices),
     ("angles", ofArray number s.angles),
     ("edges", ofArray EdgeLength.view s.edges),
     ("connections", ofArray Connection.view s.connections),
     ("cycle_length", natural s.period),
     ("repeat_value", natural s.repeatCount),
     ("apeirogonal", flag s.apeirogonal)]
    ++ optionalField "valence" Valence.view s.valences
    ++ optionalField "sublines" (fun (i, j) => list [natural i, natural j]) s.sublines
    ++ [("line", flag s.line), ("pseudohept", flag s.grave)]

/-- A tiling with its parameters. -/
def Tiling.view (t : Tiling α) : Document α :=
  record
    [("name", text t.name),
     ("comment", text t.comment),
     ("geometry", text t.geometry.name),
     ("order", natural t.order),
     ("shapes", ofArray Shape.view t.shapes),
     ("sliders", ofArray (fun s => record
        [("name", text s.name), ("zero", number s.zero), ("current", number s.current),
         ("min", number s.min), ("max", number s.max)]) t.sliders),
     ("intsliders", ofArray (fun s => record
        [("name", text s.name), ("current", integer s.current), ("min", integer s.min),
         ("max", integer s.max)]) t.intSliders),
     ("options", ofArray text t.options),
     ("min_valence", ofOption Valence.view t.minValence),
     ("max_valence", ofOption Valence.view t.maxValence),
     ("cscale", number t.cscale),
     ("range", integer t.range),
     ("floor_scale", number t.floorScale),
     ("boundary_ratio", number t.boundaryRatio)]

end Mosaic
