import LogConvex.Lowering
import LogConvex.Solver

/- Solutions, in the terms of the model: exponentials of the columns that hold
   logarithms, and dual values of the constraints as they were written. -/
namespace LogConvex

/-- What is known after a solve. -/
structure Solution (R : Type) where
  /-- The value of each variable. -/
  values : List R
  /-- The value of the objective, one if there is none. -/
  objective : R
  status : Status
  /-- The seconds spent in the solver. -/
  time : R
  /-- The dual value of each constraint. -/
  duals : List R
  /-- The number of conic programs solved. -/
  iterations : Nat
  /-- The signomial iteration settled, or was not needed. -/
  converged : Bool

namespace Solution

variable {R : Type}

/-- Fails if the iteration did not settle. -/
def ensureConverged (s : Solution R) : Except (Error R) Unit :=
  if s.converged then .ok () else .error (.notConverged s.iterations)

variable [Scalar R]

/-- The dual value of a constraint: that of its cone times the value of the
objective, with the sign changed if the relation was turned around. -/
def dual (duals : List R) (objective : R) (cone : Nat) (negate : Bool) : R :=
  let d := duals[cone]?.getD Scalar.missing * objective
  if negate then -d else d

/-- Reads the answer to a lowered program, for `count` variables and for constraints
that are turned around or not. -/
def ofAnswer (l : Lowered R) (count : Nat) (negate : List Bool) (a : Answer R) : Solution R :=
  let objective := Scalar.exp (l.logObjective a.objective)
  { values := (List.range count).map fun i => a.primal[i]?.elim Scalar.missing Scalar.exp
    objective := objective
    status := a.status
    time := a.time
    duals := List.zipWith (dual a.duals objective) l.dualCones negate
    iterations := 1
    converged := true }

end Solution

end LogConvex
