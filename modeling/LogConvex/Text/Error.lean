import LogConvex.Error
import LogConvex.Text.Expr

/- The wording of errors. -/
namespace LogConvex

def CoefficientFault.reason : CoefficientFault → String
  | monomial => "monomial coefficients must be strictly positive"
  | posynomial => "posynomial coefficients must be strictly positive"
  | constraint => "constraint coefficients must be finite"
  | objective => "objective coefficients must be finite"
  | tangent => "cannot approximate the zero posynomial by a monomial"
  | stated reason => reason

/-- What is said after the relation. -/
def RelationFault.reason : RelationFault → String
  | outsideAlgebra => "is outside the signomial algebra"
  | constant => "is a constant relation with no variables"
  | notMonomials => "must equate two monomials"
  | noPositiveTerms => "has no positive terms after normalization"
  | boundedByZero => "bounds a posynomial above by zero"
  | needsSignomialModel =>
    "bounds a posynomial below by a multi-term posynomial; declare it on a signomial model"
  | noGeometricForm => "has no GP form"

/-- Text between backquotes. -/
def quoted (s : String) : String := "\x60" ++ s ++ "\x60"

def ConstraintFault.reason : ConstraintFault Float → String
  | relation fault r => quoted r.text ++ " " ++ fault.reason
  | stated reason => reason

def ObjectiveFault.reason : ObjectiveFault Float → String
  | notPosynomial e =>
    "cannot minimize " ++ e.kind.name ++ " " ++ quoted e.text ++
      "; the objective must be a posynomial"
  | notMonomial e =>
    "cannot maximize " ++ e.kind.name ++ " " ++ quoted e.text ++
      "; the objective must be a monomial"
  | zero => "cannot minimize an objective that is identically zero"
  | stated reason => reason

def Attribute.name : Attribute → String
  | lower => "lower bound"
  | upper => "upper bound"
  | fixed => "fixed value"
  | start => "start value"

def BoundsFault.reason : BoundsFault Float → String
  | fixedWithBounds => "a fixed value cannot be combined with bounds"
  | notPositive which value =>
    which.name ++ " must be finite and strictly positive, got " ++ Decimal.plain value
  | crossed lower upper =>
    "lower bound (" ++ Decimal.plain lower ++ ") exceeds upper bound (" ++
      Decimal.plain upper ++ ")"
  | stated reason => reason

def Error.message : Error Float → String
  | invalidCoefficient c fault => "Invalid coefficient " ++ Decimal.plain c ++ ": " ++ fault.reason
  | invalidConstraint fault => "Invalid constraint form: " ++ fault.reason
  | foreignVariable shown => "Variable " ++ shown ++ " does not belong to this model"
  | zeroRightHandSide => "Right-hand side of a constraint cannot be zero"
  | invalidObjective fault => "Invalid objective form: " ++ fault.reason
  | invalidBounds name fault => "Invalid bounds for variable " ++ name ++ ": " ++ fault.reason
  | notSolved => "Model has not been solved yet"
  | noDual index => "Dual value unavailable for constraint " ++ toString index
  | notConverged n => "Signomial solve did not converge after " ++ toString n ++ " iterations"
  | solver reason => "Solver error: " ++ reason

end LogConvex
