import LogConvex.Constraint.Normalize

/- Constraints of a model: the relation as it was written and the canonical form
   that stands for it. -/
namespace LogConvex

/-- An accepted constraint. -/
structure Constraint (R : Type) extends Canonical R where
  relation : Relation R
  name : Option String

namespace Constraint

variable {R : Type}

/-- The relation was written as an equation. -/
def isEquality (c : Constraint R) : Bool := c.relation.sense == .equal

/-- The constraint has no geometric form and has to be approximated. -/
def isSignomial (c : Constraint R) : Bool := c.form.isSignomial

/-- Checks a relation and keeps it with its canonical form. -/
def ofRelation [Scalar R] (r : Relation R) (name : Option String) (allowSignomial : Bool) :
    Except (Error R) (Constraint R) :=
  (r.normalize allowSignomial).map fun canonical => ⟨canonical, r, name⟩

/-- The geometric form of a constraint that has one. -/
def geometric (c : Constraint R) : Except (Error R) (GeometricForm R) :=
  match c.form.geometric? with
  | some g => .ok g
  | none => c.relation.refuse .noGeometricForm

end Constraint

end LogConvex
