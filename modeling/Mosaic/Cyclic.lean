/-!
# Cyclic — indices around a polygon

Edges and corners of a polygon are numbered around it, so indices are reduced modulo its size and
symmetric polygons are described by a period of that numbering.

* `gmod`: the remainder in `0 … |m| - 1`; a zero modulus reduces nothing.
* `reduceGcd`: the period left when positions `d` apart have been found to be alike.
-/

namespace Mosaic

/-- The non-negative remainder of `a` modulo `m`; `a` itself when `m` is zero. -/
def gmod (a m : Int) : Int := a % m

/-- The non-negative remainder of `a` modulo `m`, as an index. -/
def cyclicIndex (a : Int) (m : Nat) : Nat := (gmod a m).toNat

/-- The greatest common divisor of a period and a distance; a zero distance keeps the period. -/
def reduceGcd (period : Nat) (d : Int) : Nat := Nat.gcd period d.natAbs

/-- Whether two positions differ by a multiple of `period`, a period of zero counting as one. -/
def congruent (i j period : Nat) : Bool := ((i : Int) - j) % (Nat.max period 1) == 0

end Mosaic
