import LogConvex.Scalar

/- Small dense systems of linear equations. A matrix is a list of rows. It is taken
   apart by elimination, one pivot at a time, and what is left over is a smaller
   matrix of the same kind; a right-hand side is then solved by following the same
   pivots. -/
namespace LogConvex.LinearSystem

variable {R : Type} [Scalar R]

def dot (a b : List R) : R := Scalar.total (List.zipWith (· * ·) a b)

/-- The vector `a + t * b`. -/
def addScaled (a : List R) (t : R) (b : List R) : List R :=
  List.zipWith (fun x y => x + t * y) a b

def apply (rows : List (List R)) (x : List R) : List R := rows.map fun r => dot r x

/-- A vector of length `n` with one entry. -/
def unit (n i : Nat) (x : R) : List R :=
  (List.range n).map fun k => if k == i then x else 0

/-- One step of elimination: the position of the pivot row, its first entry and the
rest of it, and the multiple of it that is subtracted from each other row. -/
structure Pivot (R : Type) where
  position : Nat
  head : R
  tail : List R
  multipliers : List R

/-- The row whose first entry is the largest, and its position. -/
def largestRow (rows : List (List R)) : Nat × List R :=
  (rows.zipIdx.foldl (fun best r =>
    let size := Scalar.abs (r.1.headD 0)
    if best.1 < size then (size, r.2, r.1) else best) (-1, 0, [])).2

/-- Eliminates `n` columns; there is no result when a column has no pivot. -/
def factor : Nat → List (List R) → Option (List (Pivot R))
  | 0, _ => some []
  | n + 1, rows =>
    let (position, row) := largestRow rows
    let pivot := row.headD 0
    let others := rows.eraseIdx position
    let multipliers := others.map fun r => r.headD 0 / pivot
    if 0 < Scalar.abs pivot then
      (factor n (List.zipWith (fun r f => addScaled r.tail (-f) row.tail) others multipliers)).map
        (⟨position, pivot, row.tail, multipliers⟩ :: ·)
    else none

/-- Solves for a right-hand side. -/
def solve : List (Pivot R) → List R → List R
  | [], _ => []
  | p :: ps, b =>
    let c := b[p.position]?.getD 0
    let xs := solve ps (List.zipWith (fun x f => x - f * c) (b.eraseIdx p.position) p.multipliers)
    (c - dot p.tail xs) / p.head :: xs

/-- Improves a solution by solving for what it leaves over, `rounds` times. The pivots
may be those of a matrix that is only close to the given one. -/
def refine (rows : List (List R)) (pivots : List (Pivot R)) (b : List R) : Nat → List R → List R
  | 0, x => x
  | rounds + 1, x =>
    let rest := addScaled b (-1) (apply rows x)
    refine rows pivots b rounds (addScaled x 1 (solve pivots rest))

end LogConvex.LinearSystem
