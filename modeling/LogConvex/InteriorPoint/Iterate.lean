import LogConvex.InteriorPoint.LinearSystem
import LogConvex.InteriorPoint.ExponentialCone
import LogConvex.StandardForm

/- The homogeneous form of a conic program and its interior points. Beside the
   columns `y`, the slacks `s` and the dual values `z` there are two numbers, `tau` and
   `kappa`, and the conditions of the program are multiplied out by `tau`. The form
   always has a solution: with a positive `tau` it is an optimum of the program, with a
   positive `kappa` it proves that there is none. -/
namespace LogConvex.InteriorPoint

open LinearSystem

/-- A program in standard form, as dense vectors and rows. -/
structure Task (R : Type) where
  sizes : ConeSizes
  q : List R
  b : List R
  rows : List (List R)
  columns : List (List R)

/-- A vector over the rows of a standard form, by section. -/
structure Sections (R : Type) where
  zero : List R
  nonneg : List R
  exponential : List (Triple R)

/-- A point of the homogeneous form, or a direction in it. -/
structure Iterate (R : Type) where
  y : List R
  s : Sections R
  z : Sections R
  tau : R
  kappa : R

/-- How far an iterate is from the linear conditions. -/
structure Residual (R : Type) where
  dual : List R
  primal : List R
  gap : R

variable {R : Type}

/-- Takes a list in threes. -/
def triples : List R → List (Triple R)
  | a :: b :: c :: rest => ⟨a, b, c⟩ :: triples rest
  | _ => []

namespace Sections

def toList (v : Sections R) : List R :=
  v.zero ++ v.nonneg ++ v.exponential.flatMap Triple.toList

def ofList (d : ConeSizes) (xs : List R) : Sections R :=
  ⟨xs.take d.zero, (xs.drop d.zero).take d.nonneg, triples (xs.drop (d.zero + d.nonneg))⟩

variable [Scalar R]

/-- The vector `a + t * b`. -/
def addScaled (a : Sections R) (t : R) (b : Sections R) : Sections R :=
  ⟨LinearSystem.addScaled a.zero t b.zero, LinearSystem.addScaled a.nonneg t b.nonneg,
    List.zipWith (fun u v => u.add (v.scale t)) a.exponential b.exponential⟩

/-- The product over the sections that have an interior. -/
def dot (a b : Sections R) : R :=
  LinearSystem.dot a.nonneg b.nonneg +
    Scalar.total (List.zipWith Triple.dot a.exponential b.exponential)

end Sections

variable [Scalar R]

def Iterate.move (p d : Iterate R) (t : R) : Iterate R :=
  ⟨addScaled p.y t d.y, p.s.addScaled t d.s, p.z.addScaled t d.z,
    p.tau + t * d.tau, p.kappa + t * d.kappa⟩

namespace Task

def ofStandardForm (f : StandardForm R) : Task R :=
  ⟨f.sizes, f.q, f.b, f.a.toRows, f.a.toColumns⟩

/-- The number of complementary products, with that of `tau` and `kappa`. -/
def degree (T : Task R) : R :=
  Scalar.ofCount (T.sizes.nonneg + 3 * T.sizes.exponential + 1)

/-- The same number in all entries, and a given triple in all exponential cones. -/
def constant (T : Task R) (x : R) (e : Triple R) : Sections R :=
  ⟨List.replicate T.sizes.zero 0, List.replicate T.sizes.nonneg x,
    List.replicate T.sizes.exponential e⟩

/-- The first iterate: a central pair of slacks and dual values. -/
def start (T : Task R) : Iterate R :=
  let s := T.constant 1 ExponentialCone.center
  ⟨T.q.map fun _ => 0, s, s, 1, 1⟩

/-- No movement. -/
def still (T : Task R) : Iterate R :=
  let s := T.constant 0 Triple.zero
  ⟨T.q.map fun _ => 0, s, s, 0, 0⟩

def residual (T : Task R) (p : Iterate R) : Residual R :=
  { dual := addScaled (apply T.columns p.z.toList) p.tau T.q
    primal := addScaled (addScaled (T.b.map (p.tau * ·)) (-1) (apply T.rows p.y)) (-1) p.s.toList
    gap := -dot T.q p.y - dot T.b p.z.toList - p.kappa }

/-- The mean of the complementary products. -/
def mean (T : Task R) (p : Iterate R) : R := (p.s.dot p.z + p.tau * p.kappa) / T.degree

end Task

end LogConvex.InteriorPoint
