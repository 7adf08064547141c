import LogConvex.Matrix
import LogConvex.Program

/- The standard form of a conic program: minimize `q · y` where `s = b - A y` lies in
   a product of cones. The rows come in the order zero cone, nonnegative cone,
   exponential cones. Bounds of columns become rows as well: a fixed column a row of
   the zero cone, any other finite bound a row of the nonnegative cone; in both
   sections the columns come before the constraints. -/
namespace LogConvex

/-- The numbers of rows of the zero and the nonnegative cone, and of exponential
cones, which have three rows each. -/
structure ConeSizes where
  zero : Nat
  nonneg : Nat
  exponential : Nat
  deriving DecidableEq, Repr

def ConeSizes.total (d : ConeSizes) : Nat := d.zero + d.nonneg + 3 * d.exponential

/-- One row: an affine form that is zero, or one that is the slack itself. -/
structure Row (R : Type) where
  form : Affine R
  isSlack : Bool

/-- A program as a matrix and vectors. -/
structure StandardForm (R : Type) where
  q : List R
  a : Matrix R
  b : List R
  sizes : ConeSizes
  /-- The first row of each constraint. -/
  rowOf : List Nat
  /-- What the objective has beyond `q · y`. -/
  offset : R

variable {R : Type}

/-- Applies `f` to every number. -/
def StandardForm.map {S : Type} (f : R → S) (p : StandardForm R) : StandardForm S :=
  ⟨p.q.map f, p.a.map f, p.b.map f, p.sizes, p.rowOf, f p.offset⟩

namespace Cone

/-- The rows of a constraint in the zero cone. -/
def zeroRows : Cone R → List (Row R)
  | zero a => [⟨a, false⟩]
  | _ => []

/-- The rows of a constraint in the nonnegative cone. -/
def nonnegRows : Cone R → List (Row R)
  | nonneg a => [⟨a, true⟩]
  | _ => []

/-- The rows of a constraint in the exponential cones. -/
def exponentialRows : Cone R → List (Row R)
  | exponential x y z => [⟨x, true⟩, ⟨y, true⟩, ⟨z, true⟩]
  | _ => []

/-- The first row of each constraint, if the next rows of the three sections are as
given. -/
def firstRows (zeroNext nonnegNext exponentialNext : Nat) : List (Cone R) → List Nat
  | [] => []
  | zero _ :: cs => zeroNext :: firstRows (zeroNext + 1) nonnegNext exponentialNext cs
  | nonneg _ :: cs => nonnegNext :: firstRows zeroNext (nonnegNext + 1) exponentialNext cs
  | exponential .. :: cs =>
    exponentialNext :: firstRows zeroNext nonnegNext (exponentialNext + 3) cs

end Cone

variable [Scalar R]

namespace Row

/-- The sign of a form in the matrix: a slack enters as its negative. -/
def sign (r : Row R) : R := if r.isSlack then -1 else 1

/-- The entries of a row that are not zero. -/
def triplets (row : Nat) (r : Row R) : List (Triplet R) :=
  (r.form.coefficients.entries.filter fun e => !(e.2 == 0)).map fun e => ⟨row, e.1, e.2 * r.sign⟩

/-- The right-hand side of a row. -/
def constant (r : Row R) : R := -r.sign * r.form.constant

end Row

namespace ColumnBounds

/-- The row that fixes a column. -/
def fixedRows (col : Nat) (b : ColumnBounds R) : List (Row R) :=
  match b.lower with
  | some l => if b.isFixed then [⟨(Affine.column col).add (.scalar (-l)), false⟩] else []
  | none => []

/-- The row that keeps a column above its lower bound. -/
def lowerRows (col : Nat) (b : ColumnBounds R) : List (Row R) :=
  match b.lower with
  | some l =>
    if Scalar.isFinite l then [⟨(Affine.column col).add (.scalar (-l)), true⟩] else []
  | none => []

/-- The row that keeps a column below its upper bound. -/
def upperRows (col : Nat) (b : ColumnBounds R) : List (Row R) :=
  match b.upper with
  | some u =>
    if Scalar.isFinite u then [⟨(Affine.scalar u).add (Affine.column col).neg, true⟩] else []
  | none => []

/-- The rows for the finite bounds of a column that is not fixed. -/
def boundRows (col : Nat) (b : ColumnBounds R) : List (Row R) :=
  if b.isFixed then [] else b.lowerRows col ++ b.upperRows col

end ColumnBounds

namespace StandardForm

/-- The matrix and vectors of a program. Coefficients of columns that the program
does not have are left out. -/
def ofProgram (p : Program R) : StandardForm R :=
  let n := p.bounds.length
  let fixedRows := (p.bounds.mapIdx fun c b => b.fixedRows c).flatten
  let zeroRows := fixedRows ++ p.constraints.flatMap Cone.zeroRows
  let boundRows := (p.bounds.mapIdx fun c b => b.boundRows c).flatten
  let nonnegRows := boundRows ++ p.constraints.flatMap Cone.nonnegRows
  let exponentialRows := p.constraints.flatMap Cone.exponentialRows
  let rows := zeroRows ++ nonnegRows ++ exponentialRows
  { q := (List.range n).map fun c => (p.objective.coefficients.get? c).elim 0 (0 + ·)
    a := .ofTriplets rows.length n (rows.mapIdx Row.triplets).flatten
    b := rows.map Row.constant
    sizes := ⟨zeroRows.length, nonnegRows.length, exponentialRows.length / 3⟩
    rowOf := Cone.firstRows fixedRows.length (zeroRows.length + boundRows.length)
      (zeroRows.length + nonnegRows.length) p.constraints
    offset := p.objective.constant }

end StandardForm

end LogConvex
