import LogConvex.InteriorPoint.Iterate
import LogConvex.Solver

/- When the interior point method stops, and what it says then. An iterate is taken
   for an optimum when it satisfies the conditions of the program and of its dual, and
   the two objectives agree, all up to tolerances that grow with the size of the
   numbers involved. It is taken for a proof that there is no optimum when `kappa`
   outweighs `tau` by far and its dual values contradict the constraints or its columns
   improve the objective forever. -/
namespace LogConvex.InteriorPoint

open LinearSystem

/-- What the method found. -/
inductive Outcome where
  | solved
  | almostSolved
  | primalInfeasible
  | almostPrimalInfeasible
  | dualInfeasible
  | almostDualInfeasible
  | outOfIterations
  | outOfTime
  | numericalError
  | insufficientProgress
  | unsolved
  deriving DecidableEq, Repr

/-- The status of a program that has the outcome. A program whose dual has no solution
is unbounded. -/
def Outcome.status : Outcome → Status
  | solved => .optimal
  | almostSolved => .almostOptimal
  | primalInfeasible | almostPrimalInfeasible => .infeasible
  | dualInfeasible | almostDualInfeasible => .unbounded
  | outOfIterations | outOfTime => .maxIterations
  | numericalError | insufficientProgress => .numericalError
  | unsolved => .unknown

/-- How exactly the conditions have to be satisfied. -/
structure Goal (R : Type) where
  gapAbsolute : R
  gapRelative : R
  feasibility : R
  infeasibility : R
  /-- By what factor `kappa` has to outweigh `tau` in a proof that there is no optimum. -/
  outweigh : R

variable {R : Type} [Scalar R]

/-- The tolerances that a model sets. -/
def Goal.ofSettings (s : Settings R) : Goal R :=
  ⟨s.gapAbsolute, s.gapRelative, s.feasibility, 1e-8, 1e9⟩

/-- What is accepted when there is no progress any more. -/
def Goal.reduced : Goal R := ⟨5e-5, 5e-5, 1e-4, 5e-5, 1e7⟩

namespace Task

/-- The difference between the two objectives. -/
def gap (T : Task R) (p : Iterate R) : R :=
  Scalar.abs (dot T.q p.y / p.tau + dot T.b p.z.toList / p.tau)

/-- The iterate is an optimum. -/
def isOptimal (T : Task R) (g : Goal R) (p : Iterate R) : Bool :=
  let res := T.residual p
  let size (v : List R) : R := Scalar.norm v / p.tau
  let primal := dot T.q p.y / p.tau
  let dual := dot T.b p.z.toList / p.tau
  let objective := Scalar.min (Scalar.abs primal) (Scalar.abs dual)
  let gap := T.gap p
  decide (size res.primal ≤ g.feasibility *
      Scalar.max 1 (Scalar.norm T.b + size p.y + size p.s.toList)) &&
    decide (size res.dual ≤ g.feasibility * Scalar.max 1 (Scalar.norm T.q + size p.z.toList)) &&
    (decide (gap ≤ g.gapAbsolute) || decide (gap ≤ g.gapRelative * Scalar.max 1 objective))

/-- The dual values contradict the constraints. -/
def isInfeasible (T : Task R) (g : Goal R) (p : Iterate R) : Bool :=
  let z := p.z.toList
  let value := dot T.b z
  decide (value < -g.infeasibility) &&
    decide (Scalar.norm (apply T.columns z) ≤
      -g.infeasibility * Scalar.max 1 (Scalar.norm p.y + Scalar.norm z) * value)

/-- The columns improve the objective without leaving the cones. -/
def isUnbounded (T : Task R) (g : Goal R) (p : Iterate R) : Bool :=
  let s := p.s.toList
  let value := dot T.q p.y
  decide (value < -g.infeasibility) &&
    decide (Scalar.norm (addScaled (apply T.rows p.y) 1 s) ≤
      -g.infeasibility * Scalar.max 1 (Scalar.norm p.y + Scalar.norm s) * value)

/-- What an iterate shows, if anything. -/
def outcome? (T : Task R) (g : Goal R) (p : Iterate R) : Option Outcome :=
  if p.kappa < p.tau then
    if T.isOptimal g p then some .solved else none
  else if g.outweigh * p.tau < p.kappa then
    if T.isInfeasible g p then some .primalInfeasible
    else if T.isUnbounded g p then some .dualInfeasible
    else none
  else none

/-- What the last iterate shows, by the reduced goal, and otherwise the reason why there
is no next one. -/
def lastOutcome (T : Task R) (p : Iterate R) (reason : Outcome) : Outcome :=
  match T.outcome? .reduced p with
  | some .solved => .almostSolved
  | some .primalInfeasible => .almostPrimalInfeasible
  | some .dualInfeasible => .almostDualInfeasible
  | _ => reason

/-- Why there is no direction to follow. -/
def stuck (T : Task R) (p : Iterate R) : Outcome :=
  if Scalar.isFinite (T.mean p) then .insufficientProgress else .numericalError

end Task

end LogConvex.InteriorPoint
