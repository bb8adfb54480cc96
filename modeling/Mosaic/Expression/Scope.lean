import Mosaic.Plane.IdealPolygon
import Mosaic.Reading.Fault
import Std.Data.TreeMap

/-!
# Expression — names

What the names of an expression mean: variables and constants, and the functions that can be
called. The geometry of the tiling is part of the scope, because the functions for ideal polygons
measure in it.

* `Scope.lookup`: the value of a name; a variable hides a constant.
* `Scope.call`: the value of a function, or why it cannot be called.
-/

namespace Mosaic

/-- Values of variables, in the order of their names. -/
abbrev Bindings (α : Type) := Std.TreeMap String α

/-- The meaning of names in an expression. -/
structure Scope (α : Type) where
  space : Space
  bindings : Bindings α

/-- Functions of one number. -/
inductive Elementary where
  | sin | cos | tan | asin | acos | atan | sqrt | exp | log | abs
  | sinh | cosh | tanh | arsinh | arcosh | artanh | floor | ceil
  deriving DecidableEq, Repr

/-- The function with a given name. -/
def Elementary.ofName? : String → Option Elementary
  | "sin" => some sin
  | "cos" => some cos
  | "tan" => some tan
  | "asin" => some asin
  | "acos" => some acos
  | "atan" => some atan
  | "sqrt" => some sqrt
  | "exp" => some exp
  | "log" => some log
  | "abs" => some abs
  | "sinh" => some sinh
  | "cosh" => some cosh
  | "tanh" => some tanh
  | "asinh" => some arsinh
  | "acosh" => some arcosh
  | "atanh" => some artanh
  | "floor" => some floor
  | "ceil" => some ceil
  | _ => none

variable {α : Type} [Scalar α]

/-- The value of a function of one number. -/
def Elementary.apply : Elementary → α → α
  | sin => Scalar.sin
  | cos => Scalar.cos
  | tan => Scalar.tan
  | asin => Scalar.asin
  | acos => Scalar.acos
  | atan => Scalar.atan
  | sqrt => Scalar.sqrt
  | exp => Scalar.exp
  | log => Scalar.log
  | abs => Scalar.abs
  | sinh => Scalar.sinh
  | cosh => Scalar.cosh
  | tanh => Scalar.tanh
  | arsinh => Scalar.arsinh
  | arcosh => Scalar.arcosh
  | artanh => Scalar.artanh
  | floor => Scalar.floor
  | ceil => Scalar.ceil

namespace Scope

/-- The value of a name that no variable has. -/
def constant? : String → Option α
  | "pi" => some Scalar.pi
  | "deg" => some (Scalar.pi / 180)
  | "inf" => some Scalar.infinity
  | _ => none

/-- The value of a name: of the variable, else of the constant. -/
def lookup (s : Scope α) (name : String) : Except Fault α :=
  match s.bindings[name]? <|> constant? name with
  | some v => .ok v
  | none => .error (.unknownIdentifier name)

/-- The value of a function. Numbers that differ from themselves do not count in `min` and `max`. -/
def call (s : Scope α) (name : String) (args : List α) : Except Fault α :=
  match Elementary.ofName? name, args with
  | some f, [x] => .ok (f.apply x)
  | some _, args => .error (.wrongArity name 1 args.length)
  | none, args =>
    match name, args with
    | "atan2", [y, x] => .ok (Scalar.atan2 y x)
    | "atan2", args => .error (.wrongArity name 2 args.length)
    | "min", x :: xs => .ok ((x :: xs).foldl Scalar.min Scalar.infinity)
    | "max", x :: xs => .ok ((x :: xs).foldl Scalar.max (-Scalar.infinity))
    | "ideal_edge", [n] => .ok (s.space.regularIdeal n 1).1
    | "ideal_edge", [n, u] => .ok (s.space.regularIdeal n u).1
    | "ideal_edge", _ => .error (.wrongIdealArity name)
    | "ideal_angle", [n] => .ok (s.space.regularIdeal n 1).2
    | "ideal_angle", [n, u] => .ok (s.space.regularIdeal n u).2
    | "ideal_angle", _ => .error (.wrongIdealArity name)
    | _, _ => .error (.unknownFunction name)

end Scope

end Mosaic
