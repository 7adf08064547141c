import LogConvex.Expr.Algebra

/- Relations as they are written: two expressions and a comparison between them.
   Nothing is checked here; `Relation.Holds` says what a relation demands of a
   point. -/
namespace LogConvex

/-- The comparison of a relation. -/
inductive Sense where
  | equal
  | atMost
  | atLeast
  deriving DecidableEq, Repr

/-- The sign that a comparison is written with. -/
def Sense.symbol : Sense → String
  | equal => "=="
  | atMost => "<="
  | atLeast => ">="

structure Relation (R : Type) where
  lhs : Expr R
  sense : Sense
  rhs : Expr R

namespace Relation

variable {R : Type}

/-- The variables of both sides, in increasing order and each once. -/
def support (r : Relation R) : List Variable :=
  Variable.sorted (r.lhs.occurrences ++ r.rhs.occurrences)

/-- The relation is satisfied at a point. -/
def Holds [Scalar R] (r : Relation R) (x : Point R) : Prop :=
  match r.sense with
  | .equal => r.lhs.evaluate x = r.rhs.evaluate x
  | .atMost => r.lhs.evaluate x ≤ r.rhs.evaluate x
  | .atLeast => r.rhs.evaluate x ≤ r.lhs.evaluate x

end Relation

end LogConvex
