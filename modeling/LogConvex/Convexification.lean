import LogConvex.Constraint.Record
import LogConvex.Solution
import LogConvex.Tangent

/- Signomial programs by successive convexification. A true signomial constraint
   `p ≤ q` is replaced by `p / m ≤ 1`, where `m` is the tangent monomial of `q` at the
   latest point. Since `m ≤ q`, what satisfies the replacement satisfies the
   constraint. The geometric program is solved, its solution is the next point, and
   this is repeated until two successive points agree or the budget is used up.

   `Pass` lists everything that can happen in one round. A run reports the calls to
   the solver as well as its result, and every point it accepted is recorded with the
   variables, also when a later round fails. -/
namespace LogConvex

/-- When the iteration stops. -/
structure Tolerances (R : Type) where
  maxIterations : Nat
  relative : R
  absolute : R

def Tolerances.standard {R : Type} [Scalar R] : Tolerances R := ⟨100, 1e-6, 1e-6⟩

/-- What a run leaves behind: the variables with the points it recorded, the programs
that were solved, and the result. -/
structure Run (R : Type) where
  vars : List (DeclaredVariable R)
  calls : List (Call R)
  outcome : Except (Error R) (Solution R)

variable {R : Type} [Scalar R]

/-- The geometric form of a constraint near a point. -/
def Constraint.approximate (x : Point R) (c : Constraint R) : Except (Error R) (GeometricForm R) :=
  match c.form with
  | .geometric g => .ok g
  | .signomial p q => (Terms.tangent q x).map fun m => .inequality (Terms.divTerm p m)

/-- Records a value with each variable. -/
def recordAll (vars : List (DeclaredVariable R)) (values : List R) :
    List (DeclaredVariable R) :=
  List.zipWith DeclaredVariable.record vars values

/-- A signomial program and the solver for its approximations. -/
structure SignomialProblem (R : Type) where
  constraints : List (Constraint R)
  objective : Option (Objective R)
  tolerances : Tolerances R
  solver : Solver R

/-- What happens in one round. -/
inductive Pass (R : Type) where
  /-- A constraint has no approximation at the point; the solver is not asked. -/
  | refused (e : Error R)
  /-- The solver gives no answer. -/
  | failed (p : Program R) (e : Error R)
  /-- The answer cannot be trusted. -/
  | rejected (p : Program R) (a : Answer R) (s : Solution R)
  /-- The answer is the next point, which is close to the last one or not. -/
  | accepted (p : Program R) (a : Answer R) (s : Solution R) (settled : Bool)

namespace SignomialProblem

/-- Successive points agree: no constraint was approximated, or the step is small,
relative to the new point or absolutely. A step that is not a number is not small. -/
def settles (P : SignomialProblem R) (last next : Point R) : Bool :=
  let step := Scalar.norm (List.zipWith (· - ·) next last)
  !P.constraints.any Constraint.isSignomial ||
    decide (step / Scalar.norm next ≤ P.tolerances.relative) ||
    decide (step ≤ P.tolerances.absolute)

/-- One round, after `k` others. -/
def pass (P : SignomialProblem R) (k : Nat) (vars : List (DeclaredVariable R)) : Pass R :=
  let point := vars.map (·.current)
  match P.constraints.mapM (Constraint.approximate point) with
  | .error e => .refused e
  | .ok forms =>
    let lowered := Lowered.ofProblem (vars.map (·.toDeclaration)) forms P.objective
    match P.solver k lowered.program with
    | .error e => .failed lowered.program e
    | .ok a =>
      let s := Solution.ofAnswer lowered vars.length (P.constraints.map (·.negateDual)) a
      if a.status.isAcceptable then .accepted lowered.program a s (P.settles point s.values)
      else .rejected lowered.program a s

omit [Scalar R] in
/-- The result of a run of `n` rounds that ends with a solution. -/
def conclude (n : Nat) (time : R) (converged : Bool) (s : Solution R) : Solution R :=
  { s with
    iterations := n
    time := time
    converged := converged
    status := if converged then .locallySolved else s.status }

/-- Runs one round and at most `more` others, after `k` rounds that took some time. -/
def iterate (P : SignomialProblem R) (more k : Nat) (time : R)
    (vars : List (DeclaredVariable R)) : Run R :=
  match P.pass k vars with
  | .refused e => ⟨vars, [], .error e⟩
  | .failed p e => ⟨vars, [⟨p, .error e⟩], .error e⟩
  | .rejected p a s =>
    ⟨vars, [⟨p, .ok a⟩], .ok (conclude (k + 1) (time + a.time) false s)⟩
  | .accepted p a s settled =>
    let time := time + a.time
    let vars := recordAll vars s.values
    if settled then ⟨vars, [⟨p, .ok a⟩], .ok (conclude (k + 1) time true s)⟩
    else
      match more with
      | 0 => ⟨vars, [⟨p, .ok a⟩], .ok (conclude (k + 1) time false s)⟩
      | more + 1 =>
        let rest := P.iterate more (k + 1) time vars
        { rest with calls := ⟨p, .ok a⟩ :: rest.calls }

/-- A run from the latest points of the variables, or from their seeds. There is
always a first round. -/
def run (P : SignomialProblem R) (vars : List (DeclaredVariable R)) : Run R :=
  P.iterate (P.tolerances.maxIterations - 1) 0 0 (vars.map (·.ensurePoint))

end SignomialProblem

end LogConvex
