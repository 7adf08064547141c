import LogConvex.Constraint.Form
import LogConvex.Declaration
import LogConvex.Objective
import LogConvex.Program

/- Geometric programs as conic programs. Column `i` holds the logarithm of variable
   `i`, which turns a monomial into an affine form. A bound by one on a single term
   is a bound by zero on that form. A bound by one on a sum of several terms gets a
   new column `u` for each term, with `exp (form) ≤ u` as an exponential cone, and
   bounds the sum of the new columns by one. A minimized sum gets one more column,
   `t`, which is minimized under the condition that the sum divided by `exp t` is at
   most one.

   Every constraint makes a block of cones that uses its own columns only, and the
   last cone of a block is the one whose dual value is reported for it. -/
namespace LogConvex

variable {R : Type} [Scalar R]

/-- The logarithm of a term, as a form of the logarithms of the variables. -/
def Term.logAffine (t : Term R) : Affine R :=
  t.exponents.entries.foldl (fun a e => a.addTerm e.1.index e.2)
    (.scalar (Scalar.log t.coefficient))

/-- The bounds of the logarithm of a variable. -/
def Declaration.logBounds (d : Declaration R) : ColumnBounds R :=
  match d.fixed with
  | some v => .fixed (Scalar.log v)
  | none => ⟨some (Scalar.log d.effectiveLower), d.effectiveUpper.map Scalar.log⟩

/-- The cones of one constraint and the number of columns that they add. -/
structure Block (R : Type) where
  columns : Nat
  cones : List (Cone R)

namespace Block

/-- The sum of columns in a row. -/
def columnSum (first : Nat) (count : Nat) : Affine R :=
  (List.range count).foldl (fun a k => a.add (.column (first + k))) .zero

/-- The condition that the sum of the terms, each multiplied by the exponential of
`shift`, is at most one. Its new columns start at `first`. -/
def atMostOne (first : Nat) (shift : Affine R) : Terms R → Block R
  | [t] => ⟨0, [.nonneg (t.logAffine.add shift).neg]⟩
  | ts =>
    let exponentials := ts.mapIdx fun k t =>
      Cone.exponential (t.logAffine.add shift) (.scalar 1) (.column (first + k))
    ⟨ts.length, exponentials ++ [.nonneg ((Affine.scalar 1).add (columnSum first ts.length).neg)]⟩

/-- The block of a constraint. -/
def ofForm (first : Nat) : GeometricForm R → Block R
  | .equality m => ⟨0, [.zero m.logAffine]⟩
  | .inequality p => atMostOne first .zero p

/-- The blocks of a list of constraints, with columns from `first` on. -/
def ofForms (first : Nat) : List (GeometricForm R) → List (Block R)
  | [] => []
  | g :: gs =>
    let b := ofForm first g
    b :: ofForms (first + b.columns) gs

omit [Scalar R] in
/-- The number of columns that blocks add. -/
def addedColumns : List (Block R) → Nat
  | [] => 0
  | b :: bs => b.columns + addedColumns bs

omit [Scalar R] in
/-- The positions of the last cones of blocks, in the list of all cones. -/
def lastCones (before : Nat) : List (Block R) → List Nat
  | [] => []
  | b :: bs =>
    let after := before + b.cones.length
    (after - 1) :: lastCones after bs

end Block

/-- The part of a program that an objective contributes: bounds of new columns, the
form to minimize, cones, and whether the objective was turned around. -/
structure ObjectivePart (R : Type) where
  bounds : List (ColumnBounds R)
  form : Affine R
  cones : List (Cone R)
  negated : Bool

/-- Lowers an objective, with new columns from `first` on. Without an objective, the
constant zero is minimized, which is the logarithm of one. -/
def ObjectivePart.ofObjective (first : Nat) : Option (Objective R) → ObjectivePart R
  | none => ⟨[], .scalar 0, [], false⟩
  | some (.maximize m) => ⟨[], m.logAffine.neg, [], true⟩
  | some (.minimize [t]) => ⟨[], t.logAffine, [], false⟩
  | some (.minimize p) =>
    let b := Block.atMostOne (first + 1) (Affine.column first).neg p
    ⟨.free :: List.replicate b.columns .nonneg, .column first, b.cones, false⟩

/-- A conic program, the cone that reports the dual value of each constraint, and
whether the program minimizes the negative of the logarithm of the objective. -/
structure Lowered (R : Type) where
  program : Program R
  dualCones : List Nat
  negated : Bool

namespace Lowered

/-- Lowers a geometric program. -/
def ofProblem (vars : List (Declaration R)) (constraints : List (GeometricForm R))
    (objective : Option (Objective R)) : Lowered R :=
  let blocks := Block.ofForms vars.length constraints
  let columns := Block.addedColumns blocks
  let part := ObjectivePart.ofObjective (vars.length + columns) objective
  { program :=
      { bounds := vars.map (·.logBounds) ++ List.replicate columns .nonneg ++ part.bounds
        objective := part.form
        constraints := blocks.flatMap (·.cones) ++ part.cones }
    dualCones := Block.lastCones 0 blocks
    negated := part.negated }

/-- The logarithm of the objective, from the value that the program minimizes. -/
def logObjective (l : Lowered R) (x : R) : R := if l.negated then -x else x

end Lowered

end LogConvex
