import LogConvex.Constraint.Form

/- From a relation to its canonical form. All terms are moved to one side, like
   terms are merged, and the sum is split by sign into two posynomials, `p` and `q`,
   so that the relation reads `p ≤ q` or `p = q`. If `q` is a single term, dividing
   by it gives a bound by one. A relation that bounds from below is turned around
   first, and its dual value changes sign.

   What is refused has no such form: a relation that holds everywhere or nowhere on
   the positive orthant, an equation that is not between monomials, and, outside
   signomial models, a bound by several terms. -/
namespace LogConvex

variable {R : Type} [Scalar R]

namespace Terms

/-- Adds a term to the first one with the same exponents, or else at the end. -/
def merge (t : Term R) : Terms R → Terms R
  | [] => [t]
  | u :: us =>
    if u.exponents == t.exponents then
      { u with coefficient := u.coefficient + t.coefficient } :: us
    else u :: merge t us

/-- Merges like terms. Each keeps the place where its exponents first occur. -/
def combine (ts : Terms R) : Terms R :=
  List.foldl (fun acc t => merge t acc) [] ts

/-- The terms with a positive coefficient. -/
def positivePart (ts : Terms R) : Terms R :=
  List.filter (fun t => decide (0 < t.coefficient)) ts

/-- The terms with a negative coefficient, with the sign changed. -/
def negativePart (ts : Terms R) : Terms R :=
  let negative (t : Term R) : Bool := !decide (0 < t.coefficient) && decide (t.coefficient < 0)
  List.map Term.neg (List.filter negative ts)

/-- Writes a sum as a difference of two posynomials without like terms. Terms that
cancel are dropped; a coefficient that is not a number is refused. -/
def split (ts : Terms R) : Except (Error R) (Terms R × Terms R) :=
  let merged := combine ts
  match List.find? (fun t => !Scalar.isFinite t.coefficient) merged with
  | some bad => .error (.invalidCoefficient bad.coefficient .constraint)
  | none => .ok (positivePart merged, negativePart merged)

end Terms

/-- A canonical form, and whether its dual value belongs to the relation turned
around. -/
structure Canonical (R : Type) where
  form : Form R
  negateDual : Bool

namespace Relation

omit [Scalar R] in
/-- The relation is refused. -/
def refuse {α : Type} (r : Relation R) (fault : RelationFault) : Except (Error R) α :=
  .error (.invalidConstraint (.relation fault r))

/-- The terms of the smaller side less those of the larger side. -/
def difference (r : Relation R) : Expr R :=
  match r.sense with
  | .atLeast => r.rhs.sub r.lhs
  | .equal | .atMost => r.lhs.sub r.rhs

/-- The canonical form of `p = q`. -/
def equationOf (r : Relation R) (p q : Terms R) : Except (Error R) (Form R) :=
  match p, q with
  | [t], [d] => (Term.div t d).toMonomial.map fun m => .geometric (.equality m)
  | _, _ => r.refuse .notMonomials

/-- The canonical form of `p ≤ q`. -/
def boundOf (r : Relation R) (allowSignomial : Bool) (p q : Terms R) :
    Except (Error R) (Form R) :=
  match p, q with
  | [], _ => r.refuse .noPositiveTerms
  | _, [] => r.refuse .boundedByZero
  | p, [d] => .ok (.geometric (.inequality (Terms.divTerm p d)))
  | p, q => if allowSignomial then .ok (.signomial p q) else r.refuse .needsSignomialModel

/-- The canonical form of `p = q` or `p ≤ q`. -/
def formOf (r : Relation R) (allowSignomial : Bool) (p q : Terms R) : Except (Error R) (Form R) :=
  match r.sense with
  | .equal => r.equationOf p q
  | .atMost | .atLeast => r.boundOf allowSignomial p q

/-- The canonical form of a relation. True signomial constraints are accepted only
where they are allowed. -/
def normalize (r : Relation R) (allowSignomial : Bool) : Except (Error R) (Canonical R) :=
  match r.lhs.terms?, r.rhs.terms? with
  | some _, some right =>
    if List.all right fun t => t.coefficient == 0 then .error .zeroRightHandSide
    else if r.support.isEmpty then r.refuse .constant
    else
      match Terms.split (r.difference.terms?.getD []) with
      | .error e => .error e
      | .ok (p, q) =>
        (r.formOf allowSignomial p q).map fun form => ⟨form, r.sense == .atLeast⟩
  | _, _ => r.refuse .outsideAlgebra

end Relation

end LogConvex
