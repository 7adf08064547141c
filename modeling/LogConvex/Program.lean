import LogConvex.Affine

/- Conic programs: minimize an affine form of the columns, where each column lies in
   its bounds and each constraint puts affine forms into a cone. `Program.Feasible`
   says which columns are allowed; it is what solvers promise and what the lowering
   of geometric programs is judged by. -/
namespace LogConvex

/-- Bounds of a column; an absent bound does not bound. -/
structure ColumnBounds (R : Type) where
  lower : Option R
  upper : Option R

/-- A conic constraint on affine forms. -/
inductive Cone (R : Type) where
  /-- The form is zero. -/
  | zero (a : Affine R)
  /-- The form is not negative. -/
  | nonneg (a : Affine R)
  /-- The forms lie in the exponential cone, the closure of the points with
  `y > 0` and `y * exp (x / y) ≤ z`. -/
  | exponential (x y z : Affine R)

/-- A program over the columns that have bounds. -/
structure Program (R : Type) where
  bounds : List (ColumnBounds R)
  objective : Affine R
  constraints : List (Cone R)

variable {R : Type}

namespace ColumnBounds

/-- No bounds. -/
def free : ColumnBounds R := ⟨none, none⟩

variable [Scalar R]

/-- Only positive values and zero. -/
def nonneg : ColumnBounds R := ⟨some 0, none⟩

/-- One value only. -/
def fixed (v : R) : ColumnBounds R := ⟨some v, some v⟩

/-- Both bounds are the same. -/
def isFixed (b : ColumnBounds R) : Bool :=
  match b.lower, b.upper with
  | some l, some u => l == u
  | _, _ => false

/-- The value lies within the bounds. -/
def Holds (b : ColumnBounds R) (v : R) : Prop :=
  (∀ l ∈ b.lower, l ≤ v) ∧ ∀ u ∈ b.upper, v ≤ u

end ColumnBounds

variable [Scalar R]

/-- Membership in the exponential cone. -/
def InExponentialCone (x y z : R) : Prop :=
  0 < y ∧ y * Scalar.exp (x / y) ≤ z ∨ y = 0 ∧ x ≤ 0 ∧ 0 ≤ z

/-- The constraint is satisfied where the columns have the given values. -/
def Cone.Holds (y : List R) : Cone R → Prop
  | zero a => a.evaluate y = 0
  | nonneg a => 0 ≤ a.evaluate y
  | exponential a b c => InExponentialCone (a.evaluate y) (b.evaluate y) (c.evaluate y)

namespace Program

/-- A value for each column, within the bounds and in all cones. -/
def Feasible (p : Program R) (y : List R) : Prop :=
  y.length = p.bounds.length ∧ (∀ e ∈ p.bounds.zip y, e.1.Holds e.2) ∧
    ∀ c ∈ p.constraints, c.Holds y

/-- Columns that are allowed and that no allowed columns improve on. -/
def Optimal (p : Program R) (y : List R) : Prop :=
  p.Feasible y ∧ ∀ y', p.Feasible y' → p.objective.evaluate y ≤ p.objective.evaluate y'

end Program

end LogConvex
