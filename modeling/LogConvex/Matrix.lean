import LogConvex.Scalar
import LogConvex.Sparse

/- Sparse matrices by columns. A column lists its rows in increasing order, each
   with a stored number, which may be zero. The three lists of the compressed form
   (where each column starts, the rows, the numbers) are read off the columns, and so
   are the full rows and columns, in which every place has a number. -/
namespace LogConvex

/-- A number at a row and a column. -/
structure Triplet (R : Type) where
  row : Nat
  col : Nat
  value : R

/-- A matrix with a number of rows and a list of columns. -/
structure Matrix (R : Type) where
  rows : Nat
  columns : List (Sparse Nat R)

namespace Matrix

variable {R : Type}

/-- Adds to a stored number, or stores the first one as it is. -/
def accumulate [Add R] (column : Sparse Nat R) (t : Triplet R) : Sparse Nat R :=
  column.alter (fun old => some (match old with | some v => v + t.value | none => t.value)) t.row

/-- The matrix of a list of triplets. Those outside the matrix are dropped and those
at the same place are added, in the order of the list. -/
def ofTriplets [Add R] (rows cols : Nat) (ts : List (Triplet R)) : Matrix R :=
  let inside := ts.filter fun t => decide (t.row < rows)
  ⟨rows, (List.range cols).map fun c =>
    (inside.filter fun t => t.col == c).foldl accumulate .empty⟩

/-- Triplets from three lists, as many as the shortest of them has. -/
def triplets (rows cols : List Nat) (values : List R) : List (Triplet R) :=
  List.zipWith (fun rc v => ⟨rc.1, rc.2, v⟩) (rows.zip cols) values

/-- The matrix in which nothing is stored. -/
def zeros (rows cols : Nat) : Matrix R := ⟨rows, List.replicate cols .empty⟩

/-- The matrix of three lists. If the first is empty there is nothing to put in order. -/
def ofLists [Add R] (rows cols : Nat) (is js : List Nat) (values : List R) : Matrix R :=
  if is.isEmpty then zeros rows cols else ofTriplets rows cols (triplets is js values)

/-- Applies `f` to every stored number. -/
def map {S : Type} (f : R → S) (a : Matrix R) : Matrix S :=
  ⟨a.rows, a.columns.map (·.map f)⟩

/-- The stored number at a row and a column. -/
def get? (a : Matrix R) (row col : Nat) : Option R :=
  a.columns[col]?.bind fun c => c.get? row

/-! ## The full form -/

/-- The numbers of a row, stored or not. -/
def row [Zero R] (a : Matrix R) (i : Nat) : List R := a.columns.map fun c => c.weight i

/-- The numbers of all rows. -/
def toRows [Zero R] (a : Matrix R) : List (List R) := (List.range a.rows).map a.row

/-- The numbers of all columns. -/
def toColumns [Zero R] (a : Matrix R) : List (List R) :=
  a.columns.map fun c => (List.range a.rows).map c.weight

/-! ## The compressed form -/

/-- Where each column starts in the lists of rows and numbers, and where the last
one ends. -/
def offsets (a : Matrix R) : List Nat :=
  a.columns.scanl (fun n c => n + c.entries.length) 0

/-- The rows of the stored numbers, column by column. -/
def rowIndices (a : Matrix R) : List Nat := a.columns.flatMap (·.keys)

/-- The stored numbers, column by column. -/
def values (a : Matrix R) : List R := a.columns.flatMap fun c => c.entries.map (·.2)

/-- The stored numbers with their places, column by column. -/
def toTriplets (a : Matrix R) : List (Triplet R) :=
  (a.columns.mapIdx fun j c => c.entries.map fun e => ⟨e.1, j, e.2⟩).flatten

end Matrix

end LogConvex
