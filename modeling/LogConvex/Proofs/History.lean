import LogConvex.Proofs.CanonicalForm
import LogConvex.Proofs.Objective
import LogConvex.Proofs.Optimum
import LogConvex.Proofs.Run

/- Histories of a model. A `Written` problem is what was declared, in the words in which it
   was declared. A step is an operation that succeeds; a declaration that fails leaves the
   model as it is, since all its checks come before its change (`Attempt.ofChecks`).
   `Reach` pairs every model that steps can lead to with the problem as it was written, and
   `Agrees` is the invariant that ties the two together: every declaration is kept and
   passed its check, every constraint is kept with the normal form of its relation, and the
   objective is the checked goal. -/
namespace LogConvex

variable {R : Type}

/-- A problem as it was written. -/
structure Written (R : Type) where
  vars : List (Declaration R)
  relations : List (Relation R)
  goal : Option (Direction × Expr R)

namespace Written

/-- The point obeys every declaration and satisfies every relation. -/
def Admits (w : Written ℝ) (x : Point ℝ) : Prop :=
  Declaration.AdmitsAll w.vars x ∧ ∀ r ∈ w.relations, r.Holds x

/-- The direction of the goal. Without one, it does not matter. -/
def direction (w : Written R) : Direction :=
  w.goal.elim .minimize (·.1)

/-- The value of the goal at a point, one without a goal. -/
noncomputable def value (w : Written ℝ) (x : Point ℝ) : ℝ :=
  w.goal.elim 1 fun g => g.2.evaluate x

/-- The goal does not prefer `y` to `x`. -/
def NoWorse (w : Written ℝ) (x y : Point ℝ) : Prop :=
  w.direction.NoWorse (w.value x) (w.value y)

/-- The value of the goal that an answer claims. A program minimizes the logarithm of the
goal, with the sign changed if the goal is to be large. -/
noncomputable def claimed (w : Written ℝ) (a : Answer ℝ) : ℝ :=
  match w.direction with
  | .minimize => Real.exp a.objective
  | .maximize => Real.exp (-a.objective)

end Written

namespace Model

variable [Scalar R]

/-- A step of a model, and of the problem as it is written. Solves use the solvers of the
class `A`. -/
inductive Step (A : Solver R → Prop) (m : Model R) (w : Written R) :
    Model R → Written R → Prop where
  | addVariable {d : Declaration R} {m' : Model R} {v : Variable}
      (h : m.addVariable d = ⟨m', .ok v⟩) : Step A m w m' { w with vars := w.vars ++ [d] }
  | addConstraint {r : Relation R} {name : Option String} {m' : Model R} {i : Nat}
      (h : m.addConstraint r name = ⟨m', .ok i⟩) :
      Step A m w m' { w with relations := w.relations ++ [r] }
  | setObjective {d : Direction} {e : Expr R} {m' : Model R}
      (h : m.setObjective d e = ⟨m', .ok ()⟩) : Step A m w m' { w with goal := some (d, e) }
  | setSettings (s : Settings R) : Step A m w { m with settings := s } w
  | setTolerances (t : Tolerances R) : Step A m w { m with tolerances := t } w
  | solve {solver : Solver R} (h : A solver) : Step A m w (m.solveWith solver).model w
  | copy (id : ModelId) : Step A m w { m with id := id } w

/-- The models that steps lead to, with the problems written on the way. -/
inductive Reach (A : Solver R → Prop) : Model R → Written R → Prop where
  | empty (id : ModelId) (kind : ModelKind) : Reach A (.empty id kind) ⟨[], [], none⟩
  | step {m m' : Model R} {w w' : Written R} :
      Reach A m w → Step A m w m' w' → Reach A m' w'

/-! ## What the operations do -/

omit [Scalar R] in
theorem lt_of_owns {m : Model R} {v : Variable} (h : m.owns v = true) :
    v.index < m.vars.length := by
  simp only [owns, Bool.and_eq_true, decide_eq_true_eq] at h
  exact h.2

omit [Scalar R] in
theorem owner_of_owns {m : Model R} {v : Variable} (h : m.owns v = true) : v.owner = m.id := by
  simp only [owns, Bool.and_eq_true, beq_iff_eq] at h
  exact h.1

omit [Scalar R] in
theorem checkOwned_eq_ok_iff {m : Model R} {vs : List Variable} :
    m.checkOwned vs = .ok () ↔ ∀ v ∈ vs, m.owns v = true := by
  unfold checkOwned
  cases hfind : vs.find? fun v => !m.owns v with
  | none => simpa using List.find?_eq_none.mp hfind
  | some v =>
    have hv := List.find?_some hfind
    have hmem := List.mem_of_find?_eq_some hfind
    simp only [reduceCtorEq, false_iff, not_forall]
    exact ⟨v, hmem, by simpa using hv⟩

end Model

namespace Attempt

variable {α β : Type} {m m' : Model R} {checks : Except (Error R) β} {change : β → Model R}
  {result : β → α}

/-- The attempt that makes all checks before it changes the model. -/
def ofChecks (m : Model R) (checks : Except (Error R) β) (change : β → Model R)
    (result : β → α) : Attempt R α :=
  match checks with
  | .ok b => ⟨change b, .ok (result b)⟩
  | .error e => ⟨m, .error e⟩

theorem outcome_ofChecks : (ofChecks m checks change result).outcome = checks.map result := by
  cases checks <;> rfl

theorem ofChecks_eq_ok_iff {a : α} : ofChecks m checks change result = ⟨m', .ok a⟩ ↔
    ∃ b, checks = .ok b ∧ m' = change b ∧ a = result b := by
  cases checks <;> simp [ofChecks, eq_comm]

/-- A check that fails leaves the model as it is. -/
theorem ofChecks_of_error {e : Error R} (h : (ofChecks m checks change result).outcome = .error e) :
    ofChecks m checks change result = ⟨m, .error e⟩ := by
  cases checks with
  | ok b => cases h
  | error e' =>
    obtain rfl := Except.error.inj h
    rfl

end Attempt

namespace Model

variable [Scalar R]

theorem addVariable_eq (m : Model R) (d : Declaration R) : m.addVariable d =
    .ofChecks m d.accept (fun v => { m with vars := m.vars ++ [v] })
      fun _ => ⟨m.id, m.vars.length⟩ := by
  unfold addVariable
  cases d.accept <;> rfl

theorem addConstraint_eq (m : Model R) (r : Relation R) (name : Option String) :
    m.addConstraint r name = .ofChecks m
      (do m.checkOwned r.lhs.support
          m.checkOwned r.rhs.support
          Constraint.ofRelation r name (m.kind == .signomial))
      (fun c => { m with constraints := m.constraints ++ [c] }) fun _ => m.constraints.length := by
  unfold addConstraint
  cases m.checkOwned r.lhs.support with
  | error e => rfl
  | ok _ =>
    cases m.checkOwned r.rhs.support with
    | error e => rfl
    | ok _ => cases Constraint.ofRelation r name (m.kind == .signomial) <;> rfl

theorem setObjective_eq (m : Model R) (d : Direction) (e : Expr R) : m.setObjective d e =
    .ofChecks m
      (do m.checkOwned e.support
          Objective.ofExpr d e)
      (fun o => { m with objective := some o }) fun _ => () := by
  unfold setObjective
  cases m.checkOwned e.support with
  | error e => rfl
  | ok _ => cases Objective.ofExpr d e <;> rfl

omit [Scalar R] in
theorem checkOwned_then_eq_ok_iff {β : Type} {m : Model R} {vs : List Variable}
    {next : Except (Error R) β} {b : β} : (do m.checkOwned vs; next) = .ok b ↔
      (∀ v ∈ vs, m.owns v = true) ∧ next = .ok b := by
  rw [← checkOwned_eq_ok_iff]
  cases m.checkOwned vs <;> simp [bind, Except.bind]

theorem addVariable_eq_ok_iff {m m' : Model R} {d : Declaration R} {v : Variable} :
    m.addVariable d = ⟨m', .ok v⟩ ↔ d.fault? = none ∧
      m' = { m with vars := m.vars ++ [⟨d, []⟩] } ∧ v = ⟨m.id, m.vars.length⟩ := by
  rw [addVariable_eq, Attempt.ofChecks_eq_ok_iff]
  unfold Declaration.accept
  cases d.fault? <;> simp

theorem addConstraint_eq_ok_iff {m m' : Model R} {r : Relation R} {name : Option String}
    {i : Nat} :
    m.addConstraint r name = ⟨m', .ok i⟩ ↔ (∀ v ∈ r.support, m.owns v = true) ∧
      ∃ c, r.normalize (m.kind == .signomial) = .ok c ∧
        m' = { m with constraints := m.constraints ++ [⟨c, r, name⟩] } ∧
        i = m.constraints.length := by
  have hsupport : (∀ v ∈ r.support, m.owns v = true) ↔
      (∀ v ∈ r.lhs.support, m.owns v = true) ∧ ∀ v ∈ r.rhs.support, m.owns v = true := by
    simp [Relation.support, or_imp, forall_and]
  simp only [addConstraint_eq, Attempt.ofChecks_eq_ok_iff, checkOwned_then_eq_ok_iff, hsupport,
    Constraint.ofRelation]
  cases r.normalize (m.kind == .signomial) <;> simp [Except.map, and_assoc]

theorem setObjective_eq_ok_iff {m m' : Model R} {d : Direction} {e : Expr R} :
    m.setObjective d e = ⟨m', .ok ()⟩ ↔ (∀ v ∈ e.occurrences, m.owns v = true) ∧
      ∃ o, Objective.ofExpr d e = .ok o ∧ m' = { m with objective := some o } := by
  simp only [setObjective_eq, Attempt.ofChecks_eq_ok_iff, checkOwned_then_eq_ok_iff,
    Expr.mem_support, and_assoc, exists_and_left, and_true]

/-! ## The model agrees with what was written -/

/-- The model holds the problem that was written. -/
structure Agrees (m : Model R) (w : Written R) : Prop where
  vars : m.vars.map (·.toDeclaration) = w.vars
  accepted : ∀ d ∈ w.vars, d.fault? = none
  relations : m.constraints.map (·.relation) = w.relations
  normal : ∀ c ∈ m.constraints,
    c.relation.normalize (m.kind == .signomial) = .ok c.toCanonical
  goal : Option.Rel (fun o g => Objective.ofExpr g.1 g.2 = .ok o) m.objective w.goal
  declared : ∀ r ∈ w.relations, ∀ v ∈ r.support, v.index < w.vars.length
  declaredGoal : ∀ g ∈ w.goal, ∀ v ∈ g.2.occurrences, v.index < w.vars.length

theorem Agrees.length {m : Model R} {w : Written R} (h : m.Agrees w) :
    m.vars.length = w.vars.length := by
  rw [← h.vars, List.length_map]

theorem agrees_empty (id : ModelId) (kind : ModelKind) :
    (empty id kind : Model R).Agrees ⟨[], [], none⟩ where
  vars := rfl
  accepted := by simp
  relations := rfl
  normal := by simp [empty]
  goal := .none
  declared := by simp
  declaredGoal := by simp

/-- Every step keeps the agreement. -/
theorem Agrees.step {A : Solver R → Prop} {m m' : Model R} {w w' : Written R} (h : m.Agrees w)
    (hstep : Step A m w m' w') : m'.Agrees w' := by
  cases hstep with
  | @addVariable d _ _ hadd =>
    obtain ⟨hd, rfl, _⟩ := addVariable_eq_ok_iff.mp hadd
    -- what was declared stays declared
    have more : w.vars.length ≤ (w.vars ++ [d]).length := by simp
    refine ⟨by simp [h.vars], ?_, h.relations, h.normal, h.goal, ?_, ?_⟩
    · rw [List.forall_mem_append]
      exact ⟨h.accepted, by simpa using hd⟩
    · intro r hr v hv
      exact (h.declared r hr v hv).trans_le more
    · intro g hg v hv
      exact (h.declaredGoal g hg v hv).trans_le more
  | @addConstraint r _ _ _ hadd =>
    obtain ⟨howns, c, hc, rfl, _⟩ := addConstraint_eq_ok_iff.mp hadd
    have hown : ∀ v ∈ r.support, v.index < w.vars.length :=
      fun v hv => h.length ▸ lt_of_owns (howns v hv)
    refine ⟨h.vars, h.accepted, by simp [h.relations], ?_, h.goal, ?_, h.declaredGoal⟩
    · rw [List.forall_mem_append]
      exact ⟨h.normal, by simpa using hc⟩
    · rw [List.forall_mem_append]
      exact ⟨h.declared, by simpa using hown⟩
  | @setObjective _ e _ hset =>
    obtain ⟨howns, o, ho, rfl⟩ := setObjective_eq_ok_iff.mp hset
    have hown : ∀ v ∈ e.occurrences, v.index < w.vars.length :=
      fun v hv => h.length ▸ lt_of_owns (howns v hv)
    exact ⟨h.vars, h.accepted, h.relations, h.normal, .some ho, h.declared, by simpa using hown⟩
  | @solve solver _ =>
    -- whatever the solver says, only points are added to the variables
    have hvars : (m.solveWith solver).model.vars.map (·.toDeclaration) = w.vars :=
      (m.run_vars solver).trans h.vars
    exact ⟨hvars, h.accepted, h.relations, h.normal, h.goal, h.declared, h.declaredGoal⟩
  | setSettings | setTolerances | copy =>
    exact ⟨h.vars, h.accepted, h.relations, h.normal, h.goal, h.declared, h.declaredGoal⟩

/-- Every reachable model agrees with the problem as it was written. -/
theorem Reach.agrees {A : Solver R → Prop} {m : Model R} {w : Written R} (h : Reach A m w) :
    m.Agrees w := by
  induction h with
  | empty id kind => exact agrees_empty id kind
  | step _ hstep ih => exact ih.step hstep

namespace Agrees

section Kept

variable {m : Model R} {w : Written R} (h : m.Agrees w)
include h

theorem mem_relations {c : Constraint R} (hc : c ∈ m.constraints) : c.relation ∈ w.relations := by
  rw [← h.relations]
  exact List.mem_map_of_mem hc

theorem exists_goal {o : Objective R} (ho : o ∈ m.objective) :
    ∃ g ∈ w.goal, Objective.ofExpr g.1 g.2 = .ok o := by
  have hgoal := h.goal
  rw [Option.mem_def.mp ho] at hgoal
  cases hg : w.goal with
  | none => rw [hg] at hgoal; cases hgoal
  | some g =>
    rw [hg] at hgoal
    cases hgoal with
    | some hexpr => exact ⟨g, rfl, hexpr⟩

end Kept

/-! ## What the model means -/

variable {m : Model ℝ} {w : Written ℝ} (h : m.Agrees w)
include h

/-- The canonical forms have positive terms in declared variables. -/
theorem proper_form : ∀ c ∈ m.constraints, Terms.Proper w.vars.length c.form.terms := by
  intro c hc t ht
  obtain ⟨hpos, hkeys⟩ := Relation.terms_normalize (h.normal c hc) ht
  exact ⟨hpos, fun v hv => h.declared c.relation (h.mem_relations hc) v (hkeys v hv)⟩

theorem proper_objective : Objective.Proper w.vars.length m.objective := by
  intro o ho
  obtain ⟨g, hg, hexpr⟩ := h.exists_goal ho
  obtain ⟨hne, hterms⟩ := Objective.terms_ofExpr hexpr
  exact ⟨hne, fun t ht => ⟨(hterms t ht).1, fun v hv =>
    h.declaredGoal g hg v ((hterms t ht).2 v hv)⟩⟩

/-- Where the declarations are obeyed, a relation holds exactly where its canonical form
does. -/
theorem holds_iff {x : Point ℝ} (hx : Declaration.AdmitsAll w.vars x) {c : Constraint ℝ}
    (hc : c ∈ m.constraints) : c.relation.Holds x ↔ c.form.Holds x := by
  -- such a point has a value for each declared variable, so it covers the relation
  refine Relation.holds_normalize (h.normal c hc) (hx.pos h.accepted) fun v hv => ?_
  rw [← hx.length_eq]
  exact h.declared c.relation (h.mem_relations hc) v hv

/-- A point is admitted by the problem exactly if it obeys the declarations and satisfies
the canonical forms. -/
theorem admits_iff {x : Point ℝ} : w.Admits x ↔
    Declaration.AdmitsAll w.vars x ∧ ∀ c ∈ m.constraints, c.form.Holds x := by
  refine and_congr_right fun hx => ?_
  rw [← h.relations, List.forall_mem_map]
  exact forall₂_congr fun c hc => h.holds_iff hx hc

theorem direction_eq : w.direction = m.objective.elim .minimize (·.direction) := by
  have hgoal := h.goal
  unfold Written.direction
  generalize m.objective = o, w.goal = g at hgoal ⊢
  cases hgoal with
  | none => rfl
  | some hexpr => exact (Objective.direction_ofExpr hexpr).symm

theorem value_eq (x : Point ℝ) : Objective.value x m.objective = w.value x := by
  have hgoal := h.goal
  unfold Objective.value Written.value
  generalize m.objective = o, w.goal = g at hgoal ⊢
  cases hgoal with
  | none => rfl
  | some hexpr => exact Objective.evaluate_ofExpr hexpr x

/-- Admitted points are compared by the goal as they are by what programs minimize. -/
theorem noWorse_iff {x y : Point ℝ} (hx : Declaration.AdmitsAll w.vars x)
    (hy : Declaration.AdmitsAll w.vars y) :
    w.NoWorse x y ↔
      Objective.logValue x m.objective ≤ Objective.logValue y m.objective := by
  have hgoal := h.goal
  have hproper := h.proper_objective
  unfold Written.NoWorse Written.direction Written.value
  generalize m.objective = o, w.goal = g at hgoal hproper ⊢
  cases hgoal with
  | none => simp [Objective.logValue, Direction.NoWorse]
  | some hexpr =>
    rw [Objective.logValue_le_iff (hx.pos h.accepted) (hy.pos h.accepted)
      (hx.length_eq ▸ hproper) (hy.length_eq ▸ hproper), Objective.direction_ofExpr hexpr,
      Objective.evaluate_ofExpr hexpr, Objective.evaluate_ofExpr hexpr]
    rfl

/-- An answer with the logarithm of the objective claims the value of the goal. -/
theorem claimed_eq {x : Point ℝ} (hx : Declaration.AdmitsAll w.vars x) {a : Answer ℝ}
    (ha : a.objective = Objective.logValue x m.objective) : w.claimed a = w.value x := by
  have hgoal := h.goal
  have hproper := h.proper_objective
  unfold Written.claimed Written.direction Written.value
  generalize m.objective = o, w.goal = g at ha hgoal hproper ⊢
  cases hgoal with
  | none => simp [ha, Objective.logValue]
  | @some f g hexpr =>
    have hpos : 0 < f.evaluate x := Objective.evaluate_pos (hx.pos h.accepted)
      (hx.length_eq ▸ hproper f rfl)
    show _ = g.2.evaluate x
    rw [← Objective.evaluate_ofExpr hexpr]
    rcases Objective.ofExpr_cases hexpr with ⟨hd, _, _, _, _, rfl⟩ | ⟨hd, _, _, _, rfl⟩
    · simp only [Option.elim_some, hd, ha]
      exact Real.exp_log hpos
    · simp only [Option.elim_some, hd, ha, Objective.logValue, neg_neg]
      exact Real.exp_log hpos

end Agrees

end Model

/-! ## Recorded points -/

/-- An answer that can be trusted has a value for every column. -/
def Solver.Full (solver : Solver R) : Prop :=
  ∀ k p a, solver k p = .ok a → a.status.isAcceptable = true →
    p.bounds.length ≤ a.primal.length

/-- Every recorded point of every variable is positive. -/
def PositivePoints (vars : List (DeclaredVariable ℝ)) : Prop :=
  ∀ v ∈ vars, ∀ b ∈ v.points, 0 < b

namespace PositivePoints

variable {vars : List (DeclaredVariable ℝ)} (h : PositivePoints vars)
include h

theorem ensurePoint (hvars : ∀ v ∈ vars, v.fault? = none) :
    PositivePoints (vars.map (·.ensurePoint)) := by
  intro v' hv' b hb
  obtain ⟨v, hv, rfl⟩ := List.mem_map.mp hv'
  unfold DeclaredVariable.ensurePoint at hb
  split at hb
  · rw [DeclaredVariable.record, List.mem_append, List.mem_singleton] at hb
    rcases hb with hb | rfl
    · exact h v hv b hb
    · exact Declaration.seed_pos (hvars v hv)
  · exact h v hv b hb

theorem recordAll {values : List ℝ} (hvalues : ∀ b ∈ values, 0 < b) :
    PositivePoints (recordAll vars values) := by
  intro v' hv' b hb
  rw [LogConvex.recordAll, ← List.map_uncurry_zip_eq_zipWith] at hv'
  obtain ⟨⟨v, a⟩, hmem, rfl⟩ := List.mem_map.mp hv'
  obtain ⟨hv, ha⟩ := List.of_mem_zip hmem
  rw [Function.uncurry_apply_pair, DeclaredVariable.record, List.mem_append,
    List.mem_singleton] at hb
  rcases hb with hb | rfl
  · exact h v hv b hb
  · exact hvalues b ha

/-- The current point is the last recorded one, or the seed. -/
theorem current (hvars : ∀ v ∈ vars, v.fault? = none) :
    Point.Positive (vars.map (·.current)) := by
  intro b hb
  obtain ⟨v, hv, rfl⟩ := List.mem_map.mp hb
  unfold DeclaredVariable.current DeclaredVariable.current?
  cases hlast : v.points.getLast? with
  | none => exact Declaration.seed_pos (hvars v hv)
  | some b => exact h v hv b (List.mem_of_getLast? hlast)

end PositivePoints

/-- A trusted answer of a full solver records positive values. -/
theorem SignomialProblem.values_pos {P : SignomialProblem ℝ} (hfull : P.solver.Full) {k : Nat}
    {vars : List (DeclaredVariable ℝ)} {p : Program ℝ} {a : Answer ℝ} {s : Solution ℝ}
    {settled : Bool} (h : P.pass k vars = .accepted p a s settled) : ∀ b ∈ s.values, 0 < b := by
  have hspec := P.pass_spec k vars
  rw [h] at hspec
  obtain ⟨forms, _, hp, ha, rfl, hstatus, _⟩ := hspec
  have hlength : vars.length ≤ a.primal.length := by
    have hbounds := hfull k p a ha hstatus
    rw [hp] at hbounds
    simp only [lowered, Lowered.ofProblem, List.length_append, List.length_map] at hbounds
    omega
  rw [Lowered.values_ofAnswer _ _ hlength]
  intro b hb
  obtain ⟨y, _, rfl⟩ := List.mem_map.mp hb
  exact Real.exp_pos y

namespace Model

theorem Agrees.fault? {R : Type} [Scalar R] {m : Model R} {w : Written R} (h : m.Agrees w) :
    ∀ v ∈ m.vars, v.fault? = none :=
  fun v hv => h.accepted v.toDeclaration (h.vars ▸ List.mem_map_of_mem hv)

/-- A solve by a full solver records positive points. -/
theorem Agrees.run_positivePoints {m : Model ℝ} {w : Written ℝ} (h : m.Agrees w)
    {solver : Solver ℝ} (hfull : solver.Full) (hpos : PositivePoints m.vars) :
    PositivePoints (m.run solver).vars := by
  unfold run
  split
  · rwa [runGeometric_vars]
  · refine (m.signomialProblem solver).iterate_vars ?_ _ 0 0 (hpos.ensurePoint h.fault?)
    intro k vars p a s settled hvars hpass
    exact hvars.recordAll (SignomialProblem.values_pos hfull hpass)

/-- Where every solver is full, every recorded point is positive. -/
theorem Reach.positivePoints {m : Model ℝ} {w : Written ℝ} (h : Reach Solver.Full m w) :
    PositivePoints m.vars := by
  induction h with
  | empty id kind => exact fun v hv => absurd hv List.not_mem_nil
  | @step m m' w w' hreach hstep ih =>
    cases hstep with
    | addVariable hadd =>
      obtain ⟨_, rfl, _⟩ := addVariable_eq_ok_iff.mp hadd
      refine List.forall_mem_append.mpr ⟨ih, ?_⟩
      simp
    | addConstraint hadd =>
      obtain ⟨_, _, _, rfl, _⟩ := addConstraint_eq_ok_iff.mp hadd
      exact ih
    | setObjective hset =>
      obtain ⟨_, _, _, rfl⟩ := setObjective_eq_ok_iff.mp hset
      exact ih
    | solve hfull => exact hreach.agrees.run_positivePoints hfull ih
    | setSettings | setTolerances | copy => exact ih

/-! ## The least value of one variable

A problem small enough to follow a solve through. -/

/-- The objective to minimize the first variable. -/
noncomputable def leastObjective : Objective ℝ := .minimize [⟨1, .single ⟨0, 0⟩ 1⟩]

/-- The problem of the least value of one variable that a relation allows. -/
noncomputable def leastProblem (d : Declaration ℝ) (r : Relation ℝ) : Written ℝ :=
  ⟨[d], [r], some (.minimize, .monomial ⟨1, .single ⟨0, 0⟩ 1⟩)⟩

/-- The model of such a problem. -/
noncomputable def leastModel (kind : ModelKind) (d : Declaration ℝ) (r : Relation ℝ)
    (c : Canonical ℝ) : Model ℝ :=
  { (empty 0 kind : Model ℝ) with
    vars := [⟨d, []⟩], constraints := [⟨c, r, none⟩], objective := some leastObjective }

theorem reach_leastModel (A : Solver ℝ → Prop) {kind : ModelKind} {d : Declaration ℝ}
    {r : Relation ℝ} {c : Canonical ℝ} (hd : d.fault? = none)
    (hr : ∀ v ∈ r.support, v = ⟨0, 0⟩) (hc : r.normalize (kind == .signomial) = .ok c) :
    Reach A (leastModel kind d r c) (leastProblem d r) := by
  have hdeclared : (empty 0 kind : Model ℝ).addVariable d =
      ⟨{ (empty 0 kind : Model ℝ) with vars := [⟨d, []⟩] }, .ok ⟨0, 0⟩⟩ :=
    addVariable_eq_ok_iff.mpr ⟨hd, rfl, rfl⟩
  have hadded : { (empty 0 kind : Model ℝ) with vars := [⟨d, []⟩] }.addConstraint r none =
      ⟨{ leastModel kind d r c with objective := none }, .ok 0⟩ := by
    refine addConstraint_eq_ok_iff.mpr ⟨fun v hv => ?_, c, hc, rfl, rfl⟩
    rw [hr v hv]
    rfl
  have hset : { leastModel kind d r c with objective := none }.setObjective .minimize
      (.monomial ⟨1, .single ⟨0, 0⟩ 1⟩) = ⟨leastModel kind d r c, .ok ()⟩ := by
    refine setObjective_eq_ok_iff.mpr ⟨fun v hv => ?_, leastObjective, ?_, rfl⟩
    · obtain rfl : v = ⟨0, 0⟩ := by simpa [Expr.occurrences, Sparse.keys, Sparse.single] using hv
      rfl
    · simp [Objective.ofExpr, Objective.badTerm?, Expr.terms?, Expr.asPosynomial?,
        Terms.isPositive, Term.isPositive, leastObjective]
  exact .step (.step (.step (.empty 0 kind) (.addVariable hdeclared)) (.addConstraint hadded))
    (.setObjective hset)

/-- The logarithm of the least value makes an exact answer. -/
theorem isExact_least (d : Declaration ℝ) (gs : List (GeometricForm ℝ)) (b : ℝ)
    (hd : d.fault? = none) (hgs : ∀ g ∈ gs, Terms.Proper 1 g.terms) (hb : d.Admits b)
    (h : ∀ g ∈ gs, g.Holds [b])
    (hleast : ∀ b', 0 < b' → d.Admits b' → (∀ g ∈ gs, g.Holds [b']) → b ≤ b') :
    Answer.IsExact (Lowered.ofProblem [d] gs (some leastObjective)).program
      ⟨.optimal, Lowered.columnsOf gs (some leastObjective) [b], [], Real.log b, 0⟩ := by
  have hvalue : ∀ b', Objective.logValue [b'] (some leastObjective) = Real.log b' := by
    intro b'
    simp [leastObjective, Objective.logValue, Term.evaluate, Sparse.single, Point.value]
  have hds : ∀ d' ∈ [d], d'.fault? = none := by simpa using hd
  rw [← hvalue b]
  refine Lowered.isExact_of_best hds hgs ?_ (.cons hb .nil) h ?_
  · simp [leastObjective, Objective.Proper, Objective.terms, Terms.Proper, Sparse.keys,
      Sparse.single]
  · intro x' hx' h'
    have hpos := hx'.pos hds
    obtain _ | ⟨hb', hnil⟩ := hx'
    cases hnil
    next b' =>
    rw [hvalue, hvalue]
    exact Real.log_le_log (Declaration.pos_of_admits hd hb)
      (hleast b' (hpos b' List.mem_cons_self) hb' h')

end Model

end LogConvex
