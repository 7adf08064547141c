import LogConvex.Relation

/- What can go wrong, by cause. Declarations are checked when they are made, so all
   but the last four arise before anything is solved. The wording of a cause is
   written in one place, in `LogConvex.Text.Error`. -/
namespace LogConvex

/-- Why a coefficient is refused. -/
inductive CoefficientFault where
  /-- A monomial needs a positive coefficient. -/
  | monomial
  /-- A posynomial needs positive coefficients. -/
  | posynomial
  /-- A constraint needs coefficients that are numbers. -/
  | constraint
  /-- An objective needs coefficients that are numbers. -/
  | objective
  /-- The zero posynomial has no tangent monomial. -/
  | tangent
  | stated (reason : String)
  deriving DecidableEq, Repr

/-- Why a relation has no canonical form. -/
inductive RelationFault where
  /-- A side is not a sum of terms. -/
  | outsideAlgebra
  /-- No variable occurs. -/
  | constant
  /-- An equation does not equate two monomials. -/
  | notMonomials
  /-- After all terms are moved to one side, none is positive. -/
  | noPositiveTerms
  /-- After all terms are moved to one side, none is negative. -/
  | boundedByZero
  /-- The relation is a true signomial constraint in a geometric model. -/
  | needsSignomialModel
  /-- A stored constraint is a true signomial constraint in a geometric model. -/
  | noGeometricForm
  deriving DecidableEq, Repr

/-- Why a constraint is refused. -/
inductive ConstraintFault (R : Type) where
  | relation (fault : RelationFault) (r : Relation R)
  | stated (reason : String)

/-- Why an objective is refused. -/
inductive ObjectiveFault (R : Type) where
  /-- Only a posynomial can be minimized. -/
  | notPosynomial (e : Expr R)
  /-- Only a monomial can be maximized. -/
  | notMonomial (e : Expr R)
  /-- Zero has no logarithm. -/
  | zero
  | stated (reason : String)

/-- The numbers that a declaration of a variable can give. -/
inductive Attribute where
  | lower
  | upper
  | fixed
  | start
  deriving DecidableEq, Repr

/-- Why the declaration of a variable is refused. -/
inductive BoundsFault (R : Type) where
  /-- A fixed variable has no bounds. -/
  | fixedWithBounds
  /-- A number is not positive and finite. -/
  | notPositive (which : Attribute) (value : R)
  /-- The lower bound is above the upper bound. -/
  | crossed (lower upper : R)
  | stated (reason : String)

/-- The ways in which an operation fails. -/
inductive Error (R : Type) where
  | invalidCoefficient (coefficient : R) (fault : CoefficientFault)
  | invalidConstraint (fault : ConstraintFault R)
  /-- An expression mentions a variable of another model. -/
  | foreignVariable (shown : String)
  | zeroRightHandSide
  | invalidObjective (fault : ObjectiveFault R)
  | invalidBounds (variableName : String) (fault : BoundsFault R)
  | notSolved
  /-- The last solve reported no dual for a constraint. -/
  | noDual (index : Nat)
  | notConverged (iterations : Nat)
  /-- The solver gave no answer. -/
  | solver (reason : String)

namespace Error

/-- A stable code for each kind of error. -/
def code {R : Type} : Error R → String
  | invalidCoefficient .. => "EXPR_INVALID_COEFFICIENT"
  | invalidConstraint .. => "CONSTRAINT_INVALID_FORM"
  | foreignVariable .. => "VARIABLE_CROSS_MODEL"
  | zeroRightHandSide => "CONSTRAINT_ZERO_RHS"
  | invalidObjective .. => "OBJECTIVE_INVALID_FORM"
  | invalidBounds .. => "VARIABLE_INVALID_BOUNDS"
  | notSolved => "SOLUTION_NOT_SOLVED"
  | noDual .. => "SOLUTION_DUAL_UNAVAILABLE"
  | notConverged .. => "SOLVE_NOT_CONVERGED"
  | solver .. => "SOLVER_INTERNAL"

end Error

end LogConvex
