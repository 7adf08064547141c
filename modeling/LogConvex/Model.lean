import LogConvex.Convexification

/- Models. A model owns its variables, in the order in which they were declared, its
   constraints, which are only ever added, and at most one objective. Whatever is
   declared is checked at once: first that every variable belongs to the model, then
   the rest. Declarations and solves change the model that they are called on, and
   leave one behind also when they end with an error.

   After a solve the model keeps the solution, until the next solve that ends with
   one; later declarations do not invalidate it. -/
namespace LogConvex

/-- What kind of program a model holds. -/
inductive ModelKind where
  /-- One conic program is enough. -/
  | geometric
  /-- Solved by successive convexification. -/
  | signomial
  deriving DecidableEq, Repr

structure Model (R : Type) where
  id : ModelId
  kind : ModelKind
  vars : List (DeclaredVariable R)
  constraints : List (Constraint R)
  objective : Option (Objective R)
  settings : Settings R
  tolerances : Tolerances R
  solution : Option (Solution R)

/-- What a declaration leaves behind: the model and the result. -/
structure Attempt (R α : Type) where
  model : Model R
  outcome : Except (Error R) α

/-- Runs steps on a model. An error ends them, and undoes nothing. -/
def Attempt.run {R α : Type} (m : Model R) (steps : ExceptT (Error R) (StateM (Model R)) α) :
    Attempt R α :=
  let (outcome, model) := steps.run m
  ⟨model, outcome⟩

/-- What a solve leaves behind: the model, the programs that were solved, and the
result. -/
structure Solve (R : Type) where
  model : Model R
  calls : List (Call R)
  outcome : Except (Error R) (Solution R)

namespace Model

variable {R : Type}

/-- The variable was declared by this model. -/
def owns (m : Model R) (v : Variable) : Bool :=
  v.owner == m.id && decide (v.index < m.vars.length)

/-- Checks variables in the order in which they are given. -/
def checkOwned (m : Model R) (vs : List Variable) : Except (Error R) Unit :=
  match vs.find? fun v => !m.owns v with
  | some v => .error (.foreignVariable v.name)
  | none => .ok ()

/-! ## Reading back -/

/-- The solution of the last solve. -/
def summary (m : Model R) : Except (Error R) (Solution R) :=
  match m.solution with
  | some s => .ok s
  | none => .error .notSolved

/-- A declared variable. -/
def declared (m : Model R) (v : Variable) : Except (Error R) (DeclaredVariable R) :=
  match m.vars[v.index]? with
  | some d => if v.owner == m.id then .ok d else .error (.foreignVariable v.name)
  | none => .error (.foreignVariable v.name)

/-- The linearization points of a variable, the latest last. -/
def points (m : Model R) (v : Variable) : Except (Error R) (List R) :=
  (m.declared v).map (·.points)

/-- The value of a variable. A variable declared after the solve has none. -/
def value (m : Model R) (v : Variable) : Except (Error R) R := do
  m.checkOwned [v]
  let s ← m.summary
  match s.values[v.index]? with
  | some x => .ok x
  | none => .error .notSolved

/-- The dual value of the constraint at a position. -/
def dual (m : Model R) (index : Nat) : Except (Error R) R := do
  match (← m.summary).duals[index]? with
  | some d => .ok d
  | none => .error (.noDual index)

variable [Scalar R]

/-- The value of an expression at the last solution. -/
def evaluate (m : Model R) (e : Expr R) : Except (Error R) R := do
  m.checkOwned e.support
  return e.evaluate (← m.summary).values

/-! ## Declarations -/

/-- A model without declarations. -/
def empty (id : ModelId) (kind : ModelKind) : Model R :=
  ⟨id, kind, [], [], none, .standard, .standard, none⟩

/-- Declares a variable and returns its handle. -/
def addVariable (m : Model R) (d : Declaration R) : Attempt R Variable := .run m do
  let v ← d.accept
  modify fun m => { m with vars := m.vars ++ [v] }
  return ⟨m.id, m.vars.length⟩

/-- Adds a constraint and returns its position. -/
def addConstraint (m : Model R) (r : Relation R) (name : Option String) : Attempt R Nat :=
  .run m do
    m.checkOwned r.lhs.support
    m.checkOwned r.rhs.support
    let c ← Constraint.ofRelation r name (m.kind == .signomial)
    modify fun m => { m with constraints := m.constraints ++ [c] }
    return m.constraints.length

/-- Sets the objective in place of any other. -/
def setObjective (m : Model R) (d : Direction) (e : Expr R) : Attempt R Unit := .run m do
  m.checkOwned e.support
  let o ← Objective.ofExpr d e
  modify fun m => { m with objective := some o }

/-! ## Solving -/

/-- Solves a geometric program by one call. -/
def runGeometric (m : Model R) (solver : Solver R) : Run R :=
  match m.constraints.mapM (·.geometric) with
  | .error e => ⟨m.vars, [], .error e⟩
  | .ok forms =>
    let lowered := Lowered.ofProblem (m.vars.map (·.toDeclaration)) forms m.objective
    let answer := solver 0 lowered.program
    ⟨m.vars, [⟨lowered.program, answer⟩],
      answer.map (.ofAnswer lowered m.vars.length (m.constraints.map (·.negateDual)))⟩

/-- The signomial program of a model. -/
def signomialProblem (m : Model R) (solver : Solver R) : SignomialProblem R :=
  ⟨m.constraints, m.objective, m.tolerances, solver⟩

/-- Solves the program by the way that its kind asks for. -/
def run (m : Model R) (solver : Solver R) : Run R :=
  match m.kind with
  | .geometric => m.runGeometric solver
  | .signomial => (m.signomialProblem solver).run m.vars

/-- Solves and keeps the solution, if there is one. -/
def solveWith (m : Model R) (solver : Solver R) : Solve R :=
  let run := m.run solver
  let solution := match run.outcome with
    | .ok s => some s
    | .error _ => m.solution
  ⟨{ m with vars := run.vars, solution := solution }, run.calls, run.outcome⟩

end Model

end LogConvex
