/- The numbers that programs are written over. Every definition from terms to
   models is stated once, for any type with these operations. Doubles run it;
   the exact reals explain it: a theorem about the meaning of a definition is a
   theorem about the same definition at another type of numbers, not about a
   second copy of it.

   Nothing is assumed of the operations here. Comparison is the type's own, so a
   number that differs from itself (the undefined number of the doubles) is
   treated by every definition as that type treats it. -/
namespace LogConvex

/-- A type of numbers with the operations that geometric programming needs. -/
class Scalar (R : Type) extends Zero R, One R, Add R, Sub R, Mul R, Div R, Neg R,
    LT R, LE R, BEq R, OfScientific R where
  decLt : DecidableLT R
  decLe : DecidableLE R
  /-- The real power. -/
  pow : R → R → R
  exp : R → R
  log : R → R
  sqrt : R → R
  /-- Neither infinite nor undefined. -/
  isFinite : R → Bool
  /-- Equal to an integer. -/
  isWhole : R → Bool
  /-- The number that stands for a value that is absent. -/
  missing : R

namespace Scalar

variable {R : Type} [Scalar R]

instance (priority := low) : DecidableLT R := Scalar.decLt

instance (priority := low) : DecidableLE R := Scalar.decLe

/-- Adds a list from the left. The sum starts at minus zero, which is neutral for
the doubles even where zero is not: the sum of the list `[-0]` is `-0`. -/
def total (xs : List R) : R :=
  xs.foldl (· + ·) (-0)

/-- Multiplies a list from the left. -/
def product (xs : List R) : R :=
  xs.foldl (· * ·) 1

/-- The number of things that are counted. -/
def ofCount (n : Nat) : R := OfScientific.ofScientific n false 0

def abs (x : R) : R := if x < 0 then -x else x

/-- The larger of two numbers. -/
def max (a b : R) : R := if a < b then b else a

/-- The smaller of two numbers. -/
def min (a b : R) : R := if b < a then b else a

/-- The sum of every eighth number of a list, from place `k` on. -/
def lane (xs : List R) (k : Nat) : R :=
  ((xs.zipIdx.filter fun e => e.2 % 8 == k).map (·.1)).foldl (· + ·) 0

/-- Adds a list in eight lanes. As many whole rounds of eight as there are go to the
lanes in turn. Lanes that are four apart are added to each other, then these four sums
from the left, then the numbers that did not fill a round. -/
def laneTotal (xs : List R) : R :=
  let dealt := xs.length / 8 * 8
  let pairs := (List.range 4).map fun k =>
    lane (xs.take dealt) k + lane (xs.take dealt) (k + 4)
  (pairs ++ xs.drop dealt).foldl (· + ·) 0

/-- The Euclidean length of a vector. -/
def norm (xs : List R) : R :=
  sqrt (laneTotal (xs.map fun x => x * x))

end Scalar

/-- Doubles. The power, logarithm and exponential are those of the machine's
mathematical library. -/
instance : Scalar Float where
  zero := 0.0
  one := 1.0
  add := Float.add
  sub := Float.sub
  mul := Float.mul
  div := Float.div
  neg := Float.neg
  lt := (· < ·)
  le := (· ≤ ·)
  beq := Float.beq
  ofScientific := Float.ofScientific
  decLt := fun a b => Float.decLt a b
  decLe := fun a b => Float.decLe a b
  pow := Float.pow
  exp := Float.exp
  log := Float.log
  sqrt := Float.sqrt
  isFinite := Float.isFinite
  isWhole := fun x => x - x.floor == 0.0
  missing := 0.0 / 0.0

end LogConvex
