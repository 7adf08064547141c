import LogConvex.Error

/- Declared variables. A declaration names a variable and may bound it, fix it or
   give a point to start from; every number in it has to be positive and finite,
   because variables are handled through their logarithms. An accepted declaration
   is kept together with the points at which signomial solves were linearized. -/
namespace LogConvex

/-- What is asked of a variable. -/
structure Declaration (R : Type) where
  name : String
  lower : Option R
  upper : Option R
  fixed : Option R
  start : Option R

/-- A variable of a model: its declaration and its linearization points, the latest
one last. -/
structure DeclaredVariable (R : Type) extends Declaration R where
  points : List R

namespace Declaration

variable {R : Type} [Scalar R]

/-- The lower bound of a variable that declares none. -/
def defaultLower : R := 1e-8

/-- The lower bound in force. -/
def effectiveLower (d : Declaration R) : R := d.lower.getD defaultLower

/-- The upper bound in force, if there is one. -/
def effectiveUpper (d : Declaration R) : Option R := d.upper

/-- A number in a declaration has to be positive and finite. -/
def isAdmissible (v : R) : Bool := Scalar.isFinite v && decide (0 < v)

/-- The numbers given, in the order in which they are checked. -/
def given (d : Declaration R) : List (Attribute × R) :=
  [(Attribute.lower, d.lower), (.upper, d.upper), (.fixed, d.fixed), (.start, d.start)].filterMap
    fun a => a.2.map fun v => (a.1, v)

/-- What is wrong with a declaration, if anything is. -/
def fault? (d : Declaration R) : Option (BoundsFault R) :=
  if d.fixed.isSome && (d.lower.isSome || d.upper.isSome) then some .fixedWithBounds
  else
    match d.given.find? fun a => !isAdmissible a.2 with
    | some (which, v) => some (.notPositive which v)
    | none =>
      match d.upper with
      | some u => if u < d.effectiveLower then some (.crossed d.effectiveLower u) else none
      | none => none

/-- Checks a declaration. -/
def accept (d : Declaration R) : Except (Error R) (DeclaredVariable R) :=
  match d.fault? with
  | some fault => .error (.invalidBounds d.name fault)
  | none => .ok ⟨d, []⟩

/-- The value obeys the declaration. -/
def Admits (d : Declaration R) (x : R) : Prop :=
  match d.fixed with
  | some v => x = v
  | none => d.effectiveLower ≤ x ∧ ∀ u ∈ d.effectiveUpper, x ≤ u

/-- Where the first signomial solve is linearized: at the fixed value, the start
value, the middle of the bounds, the only bound, or one. -/
def seed (d : Declaration R) : R :=
  match d.fixed, d.start, d.lower, d.upper with
  | some v, _, _, _ => v
  | none, some v, _, _ => v
  | none, none, some l, some u => 0.5 * (l + u)
  | none, none, some l, none => l
  | none, none, none, some u => u
  | none, none, none, none => 1

end Declaration

namespace DeclaredVariable

variable {R : Type}

/-- The latest linearization point. -/
def current? (v : DeclaredVariable R) : Option R := v.points.getLast?

/-- The latest linearization point, or the seed before there is one. -/
def current [Scalar R] (v : DeclaredVariable R) : R := v.current?.getD v.seed

/-- Records a linearization point. -/
def record (v : DeclaredVariable R) (x : R) : DeclaredVariable R :=
  { v with points := v.points ++ [x] }

/-- Records the seed, unless there is a point already. -/
def ensurePoint [Scalar R] (v : DeclaredVariable R) : DeclaredVariable R :=
  if v.points.isEmpty then v.record v.seed else v

end DeclaredVariable

end LogConvex
