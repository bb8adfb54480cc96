import Mathlib.Algebra.Group.Int.Defs
import Mosaic.Scalar

/-!
# Scalar — whole numbers

Squares on a lattice need no fractions: their vertices have whole coordinates, and their angles are
whole numbers of quarter turns.  With these as scalars the engine computes exactly, so what it does
with such squares can be evaluated in proofs.  Functions that would leave the lattice are constant.
-/

namespace Mosaic

/-- Whole numbers, as lengths and as angles in quarter turns. -/
def Whole : Type := Int

namespace Whole

/-- The sine of a number of quarter turns. -/
def sine (a : Int) : Int := if a % 4 = 1 then 1 else if a % 4 = 3 then -1 else 0

/-- The direction of a vector along an axis, in quarter turns. -/
def direction (y x : Int) : Int :=
  if y = 0 then (if x < 0 then 2 else 0) else if 0 < y then 1 else -1

/-- A number that is beyond the lattices in question, in the place of infinity. -/
def far : Int := 1000000000

/-- The whole part of a quotient; what is divided by zero is infinite.  So `355 / 226`, which is half
of π up to the tolerance, is a quarter turn here as well. -/
def quotient (a b : Int) : Int := if b = 0 then far else a / b

/-- The part of `m * 10 ^ e` before the point. -/
def ofDecimal (m : Nat) (e : Int) : Int :=
  if 0 ≤ e then m * 10 ^ e.toNat else m / 10 ^ (-e).toNat

instance : Scalar Whole where
  add := Int.add
  sub := Int.sub
  mul := Int.mul
  div := quotient
  neg := Int.neg
  lt := Int.lt
  le := Int.le
  beq := (inferInstance : BEq Int).beq
  ofScientific m sign e := ofDecimal m (if sign then -e else e)
  ltDecidable := Int.decLt
  leDecidable := Int.decLe
  ofNat := Int.ofNat
  ofInt := id
  ofDecimal := ofDecimal
  toInt64 := Int64.ofInt
  isFinite _ := true
  infinity := far
  pi := Int.ofNat 2
  ulp := Int.ofNat 0
  abs a := Int.ofNat (Int.natAbs a)
  sqrt a := Int.ofNat (Nat.sqrt (Int.toNat a))
  floor := id
  ceil := id
  exp _ := Int.ofNat 1
  log _ := Int.ofNat 0
  sin := sine
  cos a := sine (Int.add a 1)
  tan _ := Int.ofNat 0
  asin _ := Int.ofNat 0
  acos _ := Int.ofNat 0
  atan _ := Int.ofNat 0
  sinh _ := Int.ofNat 0
  cosh _ := Int.ofNat 1
  tanh _ := Int.ofNat 0
  arsinh _ := Int.ofNat 0
  arcosh _ := Int.ofNat 0
  artanh _ := Int.ofNat 0
  atan2 := direction
  pow a _ := a
  hypot a b := Int.ofNat (Int.natAbs a + Int.natAbs b)
  rem := Int.tmod

instance : DecidableEq Whole := inferInstanceAs (DecidableEq Int)

/-- What equals zero is not more than a full turn. -/
theorem not_turn_lt_of_beq_zero {x : Whole} (h : (x == 0) = true) :
    ¬ Scalar.tau + 1e-6 < x := by
  obtain rfl : x = 0 := eq_of_beq (α := Int) h
  decide

end Whole

end Mosaic
