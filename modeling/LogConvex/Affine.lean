import LogConvex.Scalar
import LogConvex.Sparse

/- Affine forms over the columns of a conic program: a constant and a coefficient
   for each column that occurs. A coefficient that becomes zero is kept, so the
   columns of a form are those of the forms it was made from; `isConstant` looks at
   the numbers. Evaluation commutes with every operation. -/
namespace LogConvex

/-- The form `constant + ∑ coefficient * column`. -/
structure Affine (R : Type) where
  coefficients : Sparse Nat R
  constant : R

namespace Affine

variable {R : Type} [Scalar R]

def zero : Affine R := ⟨.empty, 0⟩

/-- A column by itself. -/
def column (c : Nat) : Affine R := ⟨.single c 1, 0⟩

def scalar (x : R) : Affine R := ⟨.empty, x⟩

/-- All coefficients are zero. -/
def isConstant (a : Affine R) : Bool := a.coefficients.entries.all fun e => e.2 == 0

/-- Adds a multiple of a column. -/
def addTerm (a : Affine R) (c : Nat) (x : R) : Affine R :=
  { a with coefficients := a.coefficients.add c x }

def add (a b : Affine R) : Affine R :=
  let sum := b.coefficients.entries.foldl (fun a e => a.addTerm e.1 e.2) a
  { sum with constant := a.constant + b.constant }

def scale (a : Affine R) (x : R) : Affine R :=
  ⟨a.coefficients.map (· * x), a.constant * x⟩

def neg (a : Affine R) : Affine R := a.scale (-1)

/-- The value where the columns have the given values; further columns are zero. The
constant is added last. -/
def evaluate (a : Affine R) (y : List R) : R :=
  Scalar.total (a.coefficients.entries.map fun e => e.2 * y[e.1]?.getD 0) + a.constant

instance : BEq (Affine R) where
  beq a b := a.coefficients == b.coefficients && a.constant == b.constant

end Affine

end LogConvex
