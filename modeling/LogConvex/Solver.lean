import LogConvex.Error
import LogConvex.Program

/- What a conic solver is: a function from programs to answers. A solver may answer
   the same program differently in the course of a run, so it also sees how many
   programs it was asked before; any sequence of answers is the behaviour of some
   solver. -/
namespace LogConvex

/-- How a solve ended. -/
inductive Status where
  | optimal
  | almostOptimal
  /-- The signomial iteration settled. -/
  | locallySolved
  | infeasible
  | unbounded
  /-- Out of iterations or of time. -/
  | maxIterations
  | numericalError
  | unknown
  deriving DecidableEq, Repr

namespace Status

/-- The values that come with the status can be trusted. -/
def isAcceptable : Status → Bool
  | optimal | almostOptimal | locallySolved => true
  | _ => false

def name : Status → String
  | optimal => "optimal"
  | almostOptimal => "almost_optimal"
  | locallySolved => "locally_solved"
  | infeasible => "infeasible"
  | unbounded => "unbounded"
  | maxIterations => "max_iterations"
  | numericalError => "numerical_error"
  | unknown => "unknown"

end Status

/-- What a solver says about a program: a value for each column, a dual value for
each constraint (of an exponential cone, the first one), the value of the objective
and the seconds it took. -/
structure Answer (R : Type) where
  status : Status
  primal : List R
  duals : List R
  objective : R
  time : R

/-- Applies `f` to every number. -/
def Answer.map {R S : Type} (f : R → S) (a : Answer R) : Answer S :=
  ⟨a.status, a.primal.map f, a.duals.map f, f a.objective, f a.time⟩

/-- Answers the next program, given how many came before. -/
abbrev Solver (R : Type) := Nat → Program R → Except (Error R) (Answer R)

/-- A program that a solver was given, and what it made of it. -/
structure Call (R : Type) where
  program : Program R
  answer : Except (Error R) (Answer R)

/-- Plays back answers in order and repeats the last one; without answers it fails. -/
def Solver.replay {R : Type} (script : List (Except (Error R) (Answer R))) : Solver R :=
  fun k _ =>
    match script[k]? <|> script.getLast? with
    | some answer => answer
    | none => .error (.solver "empty script")

/-- Limits and tolerances of a conic solver. -/
structure Settings (R : Type) where
  verbose : Bool
  maxIterations : Nat
  /-- Seconds; no limit if absent. -/
  timeLimit : Option R
  gapAbsolute : R
  gapRelative : R
  feasibility : R

/-- Applies `f` to every number. -/
def Settings.map {R S : Type} (f : R → S) (s : Settings R) : Settings S :=
  ⟨s.verbose, s.maxIterations, s.timeLimit.map f, f s.gapAbsolute, f s.gapRelative,
    f s.feasibility⟩

/-- The settings of a new model. -/
def Settings.standard {R : Type} [Scalar R] : Settings R :=
  ⟨false, 200, none, 1e-8, 1e-8, 1e-8⟩

end LogConvex
