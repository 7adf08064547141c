import LogConvex.Posynomial

/- Objectives. A posynomial can be minimized and a monomial maximized, because both
   have a convex logarithm in the direction that is asked for. -/
namespace LogConvex

inductive Direction where
  | minimize
  | maximize
  deriving DecidableEq, Repr

/-- A checked objective. -/
inductive Objective (R : Type) where
  | minimize (p : Terms R)
  | maximize (m : Term R)

namespace Objective

variable {R : Type}

def direction : Objective R → Direction
  | minimize _ => .minimize
  | maximize _ => .maximize

/-- The terms of the objective. -/
def terms : Objective R → Terms R
  | minimize p => p
  | maximize m => [m]

variable [Scalar R]

/-- The first term whose coefficient is not a number. -/
def badTerm? (e : Expr R) : Option (Term R) :=
  e.terms?.bind fun ts => List.find? (fun t => !Scalar.isFinite t.coefficient) ts

/-- Checks an objective. Terms that are zero are left out of a minimized sum. -/
def ofExpr (d : Direction) (e : Expr R) : Except (Error R) (Objective R) :=
  match badTerm? e with
  | some bad => .error (.invalidCoefficient bad.coefficient .objective)
  | none =>
    match d with
    | .minimize =>
      match e.asPosynomial? with
      | none => .error (.invalidObjective (.notPosynomial e))
      | some ts =>
        match List.filter (fun t => decide (0 < t.coefficient)) ts with
        | [] => .error (.invalidObjective .zero)
        | ts => .ok (.minimize ts)
    | .maximize =>
      match e.asMonomial? with
      | none => .error (.invalidObjective (.notMonomial e))
      | some m =>
        if 0 < m.coefficient then .ok (.maximize m)
        else .error (.invalidObjective (.notMonomial e))

/-- The value at a point. -/
def evaluate (x : Point R) : Objective R → R
  | minimize p => Terms.evaluate p x
  | maximize m => m.evaluate x

end Objective

end LogConvex
