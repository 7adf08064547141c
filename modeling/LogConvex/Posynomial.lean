import LogConvex.Error

/- Checked monomials and posynomials: terms whose coefficients are positive, so that
   they have logarithms. The number zero passes the check as well. -/
namespace LogConvex

variable {R : Type} [Scalar R]

/-- Accepts a term as a monomial. -/
def Term.toMonomial (t : Term R) : Except (Error R) (Term R) :=
  if t.isPositive then .ok t else .error (.invalidCoefficient t.coefficient .monomial)

/-- Accepts a sum as a posynomial; the first term that is not positive is reported. -/
def Terms.toPosynomial (ts : Terms R) : Except (Error R) (Terms R) :=
  match List.find? (fun t => !Term.isPositive t) ts with
  | some bad => .error (.invalidCoefficient bad.coefficient .posynomial)
  | none => .ok ts

end LogConvex
