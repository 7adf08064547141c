import LogConvex.Posynomial

/- Canonical forms of constraints. A geometric form compares a monomial or a
   posynomial with one; a true signomial form bounds one posynomial by another that
   has several terms, which no division turns into a bound by one. -/
namespace LogConvex

/-- A constraint that geometric programming can express. -/
inductive GeometricForm (R : Type) where
  /-- The monomial equals one. -/
  | equality (m : Term R)
  /-- The posynomial is at most one. -/
  | inequality (p : Terms R)

/-- The canonical form of an accepted constraint. -/
inductive Form (R : Type) where
  | geometric (g : GeometricForm R)
  /-- The posynomial `p` is at most the posynomial `q`. -/
  | signomial (p q : Terms R)

variable {R : Type}

namespace GeometricForm

/-- The terms that are compared with one. -/
def terms : GeometricForm R → Terms R
  | equality m => [m]
  | inequality p => p

/-- The constraint is satisfied at a point. -/
def Holds [Scalar R] (x : Point R) : GeometricForm R → Prop
  | equality m => m.evaluate x = 1
  | inequality p => Terms.evaluate p x ≤ 1

end GeometricForm

namespace Form

/-- The terms that occur on either side. -/
def terms : Form R → Terms R
  | geometric g => g.terms
  | signomial p q => p ++ q

/-- The constraint is satisfied at a point. -/
def Holds [Scalar R] (x : Point R) : Form R → Prop
  | geometric g => g.Holds x
  | signomial p q => Terms.evaluate p x - Terms.evaluate q x ≤ 0

/-- A form that geometric programming can express. -/
def geometric? : Form R → Option (GeometricForm R)
  | geometric g => some g
  | signomial .. => none

def isSignomial (f : Form R) : Bool := f.geometric?.isNone

end Form

end LogConvex
