import LogConvex.DoubleWord
import LogConvex.InteriorPoint.Outcome
import LogConvex.InteriorPoint.Step

/- The interior point method as a conic solver. It follows the central path of the
   homogeneous form until an iterate shows what becomes of the program, or until the
   allowed number of iterations is used up. An optimum is refined a little beyond the
   tolerances, since the columns of a flat optimum are far less exact than its
   objective.

   The method is a function, so the time it takes cannot be seen: a time limit matters
   only when it is so short that no program could be solved within it. -/
namespace LogConvex.InteriorPoint

open LinearSystem

variable {R : Type} [Scalar R]

namespace Task

/-- Replaces an optimum by what `f` makes of it, if that is an optimum too. -/
def improve (T : Task R) (g : Goal R) (f : Iterate R → Option (Iterate R)) :
    Nat → Iterate R → Iterate R
  | 0, p => p
  | n + 1, p =>
    match f p with
    | some p' => if T.isOptimal g p' then T.improve g f n p' else p
    | none => p

/-- Refines an optimum. -/
def polish (T : Task R) (g : Goal R) (p : Iterate R) : Iterate R :=
  T.improve g T.recentered 2 (T.improve g T.next 3 p)

/-- Follows the central path for at most `left` iterations and says what the last
iterate shows. -/
def follow (T : Task R) (g : Goal R) (exhausted : Outcome) (left : Nat) (p : Iterate R) :
    Outcome × Iterate R :=
  match T.outcome? g p with
  | some .solved => (.solved, T.polish g p)
  | some o => (o, p)
  | none =>
    match left with
    | 0 => (T.lastOutcome p exhausted, p)
    | left + 1 =>
      match T.next p with
      | some p' => T.follow g exhausted left p'
      | none => (T.lastOutcome p (T.stuck p), p)

end Task

/-- The seconds within which no program is solved. -/
def leastTime : R := 1e-4

/-- Solves a program in standard form. -/
def solveStandardForm (s : Settings R) (f : StandardForm R) : Answer R :=
  let T := Task.ofStandardForm f
  let timeUp := s.timeLimit.any fun t => decide (t ≤ leastTime)
  let r := if timeUp then T.follow (.ofSettings s) .outOfTime 0 T.start
    else T.follow (.ofSettings s) .outOfIterations s.maxIterations T.start
  let p := r.2
  let primal := p.y.map (· / p.tau)
  let z := p.z.toList
  { status := r.1.status
    primal := primal
    duals := f.rowOf.map fun i => z[i]?.getD Scalar.missing / p.tau
    objective := dot f.q primal + f.offset
    time := 0 }

/-- The interior point method in numbers of type `S`, as a solver of programs over
`R`. -/
def solverIn {R S : Type} [Scalar R] [Scalar S] (widen : R → S) (narrow : S → R)
    (s : Settings R) : Solver R :=
  fun _ program =>
    .ok ((solveStandardForm (s.map widen) (StandardForm.map widen (.ofProgram program))).map narrow)

/-- The interior point method, as a solver of programs in doubles. It computes with
twice their digits: where the constraints leave hardly any room, the distances from the
borders of the cones are differences of numbers that agree in nearly all digits of a
double. -/
def solver : Settings Float → Solver Float := solverIn DoubleWord.ofFloat DoubleWord.toFloat

end LogConvex.InteriorPoint
