import LogConvex.Proofs.GeometricSolve
import LogConvex.Proofs.Operations
import LogConvex.Proofs.Rejection
import LogConvex.Proofs.Renaming

/- One problem in two models. What a geometric model accepts, a signomial model accepts too, with
   handles of its own, and it stores the same canonical forms (`Model.Twins.attempt`). No form has
   to be approximated then, so the signomial iteration lowers the very program of the geometric
   solve in its first round, and settles in it (`Model.Twins.solve`). Nothing depends on the
   numbers, on the budget of the iteration or on the points that earlier solves recorded. -/
namespace LogConvex

variable {R : Type}

/-- The operation with the handles of another model. -/
def Operation.moveTo (s : ModelId) : Operation R → Operation R
  | .addVariable d => .addVariable d
  | .addConstraint r name => .addConstraint (r.moveTo s) name
  | .setObjective d e => .setObjective d (e.moveTo s)
  | .setSettings c => .setSettings c
  | .setTolerances t => .setTolerances t
  | .solve solver => .solve solver

/-- The results of a geometric solve and of a signomial one agree. The second says of every status
that can be trusted that it is a local solution. -/
structure Solution.AgreesWith (t t' : Solution R) : Prop where
  values : t'.values = t.values
  objective : t'.objective = t.objective
  duals : t'.duals = t.duals
  iterations : t.iterations = 1 ∧ t'.iterations = 1
  status : t'.status = if t.status.isAcceptable then .locallySolved else t.status

variable [Scalar R]

/-- If every accepted point settles the iteration, it ends after its first round. -/
theorem SignomialProblem.iterate_of_settles (P : SignomialProblem R)
    {vars : List (DeclaredVariable R)} {forms : List (GeometricForm R)}
    (hforms : P.constraints.mapM (Constraint.approximate (vars.map (·.current))) = .ok forms)
    (hsettles : ∀ last next, P.settles last next = true) (more k : ℕ) (time : R) :
    (P.iterate more k time vars).calls =
        [⟨(P.lowered vars forms).program, P.solver k (P.lowered vars forms).program⟩] ∧
      (P.iterate more k time vars).outcome = (P.solver k (P.lowered vars forms).program).map
        fun a => conclude (k + 1) (time + a.time) a.status.isAcceptable
          (.ofAnswer (P.lowered vars forms) vars.length (P.constraints.map (·.negateDual)) a) := by
  unfold iterate pass lowered
  simp only [hforms, hsettles]
  cases P.solver k (Lowered.ofProblem (vars.map (·.toDeclaration)) forms P.objective).program with
  | error e => exact ⟨rfl, rfl⟩
  | ok a => by_cases ha : a.status.isAcceptable = true <;> simp [ha, Except.map]

namespace Model

/-- Tries operations one after the other; each has to succeed. -/
def attemptAll (m : Model R) (ops : List (Operation R)) : Except (Error R) (Model R) :=
  ops.foldlM (fun m op => (m.attempt op).outcome.map fun _ => (m.attempt op).model) m

theorem attemptAll_cons {m m' : Model R} {op : Operation R} (hop : m.attempt op = ⟨m', .ok ()⟩)
    (ops : List (Operation R)) : m.attemptAll (op :: ops) = m'.attemptAll ops := by
  rw [attemptAll, List.foldlM_cons, hop]
  rfl

/-- A geometric model and a signomial model of the same problem. -/
structure Twins (g s : ModelId) (m m' : Model R) : Prop where
  id : m.id = g ∧ m'.id = s
  kind : m.kind = .geometric ∧ m'.kind = .signomial
  declarations : m'.vars.map (·.toDeclaration) = m.vars.map (·.toDeclaration)
  constraints : m'.constraints = m.constraints.map (·.moveTo s)
  objective : m'.objective = m.objective.map (·.moveTo s)
  geometric : ∀ c ∈ m.constraints, c.form.isSignomial = false
  owned : ∀ c ∈ m.constraints, Terms.OwnedBy g c.form.terms
  ownedObjective : ∀ o ∈ m.objective, Terms.OwnedBy g o.terms

namespace Twins

variable {g s : ModelId} {m m' : Model R}

theorem empty (g s : ModelId) :
    Twins g s (.empty g .geometric : Model R) (.empty s .signomial) where
  id := ⟨rfl, rfl⟩
  kind := ⟨rfl, rfl⟩
  declarations := rfl
  constraints := rfl
  objective := rfl
  geometric := by simp [Model.empty]
  owned := by simp [Model.empty]
  ownedObjective := by simp [Model.empty]

variable (h : Twins g s m m')
include h

omit [Scalar R] in
theorem length_vars : m'.vars.length = m.vars.length := by
  simpa using congrArg List.length h.declarations

omit [Scalar R] in
theorem owns_moveTo {v : Variable} (hv : m.owns v = true) :
    v.owner = g ∧ m'.owns (v.moveTo s) = true := by
  simp only [owns, Bool.and_eq_true, beq_iff_eq, decide_eq_true_eq] at hv ⊢
  exact ⟨hv.1.trans h.id.1, h.id.2.symm, h.length_vars ▸ hv.2⟩

omit [Scalar R] in
/-- The handles in an expression of the one model name declared variables of the other. -/
theorem owns_expr {e : Expr R} (he : ∀ v ∈ e.occurrences, m.owns v = true) :
    e.OwnedBy g ∧ ∀ v ∈ (e.moveTo s).occurrences, m'.owns v = true := by
  have howned : e.OwnedBy g := fun v hv => (h.owns_moveTo (he v hv)).1
  refine ⟨howned, fun v hv => ?_⟩
  rw [Expr.occurrences_moveTo howned] at hv
  obtain ⟨u, hu, rfl⟩ := List.mem_map.mp hv
  exact (h.owns_moveTo (he u hu)).2

theorem addVariable {d : Declaration R} {n : Model R}
    (hadd : m.attempt (.addVariable d) = ⟨n, .ok ()⟩) :
    ∃ n', m'.attempt (.addVariable d) = ⟨n', .ok ()⟩ ∧ Twins g s n n' := by
  obtain ⟨hadd, rfl⟩ := attempt_records hadd
  obtain ⟨hfault, _, _⟩ := addVariable_eq_ok_iff.mp hadd
  exact ⟨_, m'.attempt_addVariable hfault,
    { h with declarations := by rw [List.map_append, List.map_append, h.declarations] }⟩

/-- The geometric model stores a geometric form, so the signomial model stores the same one. -/
theorem addConstraint {r : Relation R} {name : Option String} {n : Model R}
    (hadd : m.attempt (.addConstraint r name) = ⟨n, .ok ()⟩) :
    ∃ n', m'.attempt (.addConstraint (r.moveTo s) name) = ⟨n', .ok ()⟩ ∧ Twins g s n n' := by
  obtain ⟨howns, c, hc, rfl, _⟩ := addConstraint_eq_ok_iff.mp (attempt_records hadd).1
  rw [h.kind.1] at hc
  obtain ⟨hnormal, hgeometric⟩ := Relation.normalize_false_eq_ok_iff.mp hc
  have hsides : (∀ v ∈ r.lhs.occurrences, m.owns v = true) ∧
      ∀ v ∈ r.rhs.occurrences, m.owns v = true := by
    simpa [Relation.support, or_imp, forall_and] using howns
  obtain ⟨hl, hl'⟩ := h.owns_expr hsides.1
  obtain ⟨hr, hr'⟩ := h.owns_expr hsides.2
  have howns' : ∀ v ∈ (r.moveTo s).support, m'.owns v = true := by
    intro v hv
    exact (Relation.mem_support.mp hv).elim (hl' v) (hr' v)
  have hnormal' : (r.moveTo s).normalize (m'.kind == .signomial) = .ok (c.moveTo s) := by
    rw [h.kind.2]
    exact Relation.normalize_moveTo ⟨hl, hr⟩ hnormal
  refine ⟨_, attempt_addConstraint howns' hnormal', { h with
    constraints := ?_
    geometric := ?_
    owned := ?_ }⟩
  · rw [h.constraints, List.map_append]
    rfl
  · exact List.forall_mem_append.mpr ⟨h.geometric, by simpa using hgeometric⟩
  · refine List.forall_mem_append.mpr ⟨h.owned, ?_⟩
    simpa using Relation.ownedBy_of_normalize ⟨hl, hr⟩ hnormal

theorem setObjective {d : Direction} {e : Expr R} {n : Model R}
    (hset : m.attempt (.setObjective d e) = ⟨n, .ok ()⟩) :
    ∃ n', m'.attempt (.setObjective d (e.moveTo s)) = ⟨n', .ok ()⟩ ∧ Twins g s n n' := by
  obtain ⟨howns, o, ho, rfl⟩ := setObjective_eq_ok_iff.mp hset
  obtain ⟨he, howns'⟩ := h.owns_expr howns
  refine ⟨{ m' with objective := some (o.moveTo s) },
    setObjective_eq_ok_iff.mpr ⟨howns', _, Objective.ofExpr_moveTo he ho, rfl⟩,
    { h with objective := rfl, ownedObjective := ?_ }⟩
  rintro o' ⟨⟩
  exact Objective.ownedBy_of_ofExpr he ho

/-- Whatever a solve ends with, the problems are what they were. -/
theorem solve (solver : Solver R) :
    Twins g s (m.solveWith solver).model (m'.solveWith solver).model :=
  { h with declarations := (m'.run_vars solver).trans (h.declarations.trans (m.run_vars solver).symm) }

/-- What the one model accepts, the other accepts. -/
theorem attempt {op : Operation R} {n : Model R} (hop : m.attempt op = ⟨n, .ok ()⟩) :
    ∃ n', m'.attempt (op.moveTo s) = ⟨n', .ok ()⟩ ∧ Twins g s n n' := by
  cases op with
  | addVariable d => exact h.addVariable hop
  | addConstraint r name => exact h.addConstraint hop
  | setObjective d e => exact h.setObjective hop
  | setSettings c =>
    obtain rfl := attempt_records hop
    exact ⟨_, rfl, { h with }⟩
  | setTolerances t =>
    obtain rfl := attempt_records hop
    exact ⟨_, rfl, { h with }⟩
  | solve solver =>
    obtain rfl := congrArg Attempt.model hop
    exact ⟨_, rfl, h.solve solver⟩

/-- So the models stay twins along any list of operations that the geometric one accepts. -/
theorem attemptAll {ops : List (Operation R)} {n : Model R} (hops : m.attemptAll ops = .ok n) :
    ∃ n', m'.attemptAll (ops.map (·.moveTo s)) = .ok n' ∧ Twins g s n n' := by
  induction ops generalizing m m' with
  | nil =>
    obtain rfl := Except.ok.inj hops
    exact ⟨m', rfl, h⟩
  | cons op ops ih =>
    rcases m.attempt_cases op with ⟨e, hop⟩ | ⟨k, hop⟩
    · rw [Model.attemptAll, List.foldlM_cons, hop] at hops
      cases hops
    · rw [attemptAll_cons hop] at hops
      obtain ⟨k', hop', hk⟩ := h.attempt hop
      obtain ⟨n', hops', hn⟩ := ih hk hops
      exact ⟨n', (attemptAll_cons hop' _).trans hops', hn⟩

/-! ## Solving -/

/-- The forms that the two solves lower. -/
theorem exists_forms : ∃ forms, m.constraints.mapM (·.geometric) = .ok forms ∧
    (∀ x, m'.constraints.mapM (Constraint.approximate x) = .ok (forms.map (·.moveTo s))) ∧
    ∀ f ∈ forms, Terms.OwnedBy g f.terms := by
  have hgeometric : ∀ c ∈ m.constraints, ∃ f, c.geometric = .ok f := by
    intro c hc
    have hform := h.geometric c hc
    cases hf : c.form with
    | geometric f => exact ⟨f, Constraint.geometric_eq_ok_iff.mpr hf⟩
    | signomial p q =>
      rw [hf] at hform
      cases hform
  obtain ⟨forms, hforms⟩ := exists_mapM_ok hgeometric
  refine ⟨forms, hforms, fun x => ?_, fun f hf => ?_⟩
  · rw [h.constraints, mapM_eq_ok_iff, List.forall₂_map_left_iff, List.forall₂_map_right_iff]
    refine (mapM_eq_ok_iff.mp hforms).imp fun c f hcf => ?_
    have hform : (c.moveTo s).form = .geometric (f.moveTo s) := by
      show c.form.moveTo s = _
      rw [Constraint.geometric_eq_ok_iff.mp hcf, Form.moveTo]
    rw [Constraint.approximate, hform]
  · obtain ⟨c, hc, hcf⟩ := (mem_of_mapM_ok hforms).2 f hf
    have howned := h.owned c hc
    rwa [Constraint.geometric_eq_ok_iff.mp hcf] at howned

/-- No constraint is approximated, so the first accepted point settles the iteration. -/
theorem settles (solver : Solver R) (last next : Point R) :
    (m'.signomialProblem solver).settles last next = true := by
  have hnone : (m'.signomialProblem solver).constraints.any Constraint.isSignomial = false := by
    show m'.constraints.any Constraint.isSignomial = false
    rw [h.constraints, List.any_map, List.any_eq_false]
    intro c hc
    show ¬ (c.form.moveTo s).isSignomial = true
    rw [Form.isSignomial_moveTo, h.geometric c hc]
    exact Bool.false_ne_true
  rw [SignomialProblem.settles, hnone]
  rfl

/-- The signomial solve asks about one program and reads its answer as the geometric solve. -/
theorem run_eq {forms : List (GeometricForm R)} (hforms : ∀ x,
      m'.constraints.mapM (Constraint.approximate x) = .ok (forms.map (·.moveTo s)))
    (howned : ∀ f ∈ forms, Terms.OwnedBy g f.terms) {l : Lowered R}
    (hl : l = .ofProblem (m.vars.map (·.toDeclaration)) forms m.objective) (solver : Solver R) :
    (m'.solveWith solver).calls = [⟨l.program, solver 0 l.program⟩] ∧
      (m'.solveWith solver).outcome = (solver 0 l.program).map fun a =>
        SignomialProblem.conclude 1 (0 + a.time) a.status.isAcceptable
          (.ofAnswer l m.vars.length (m.constraints.map (·.negateDual)) a) := by
  have hdeclarations : (m'.vars.map (·.ensurePoint)).map (·.toDeclaration) =
      m.vars.map (·.toDeclaration) := by
    rw [← h.declarations, List.map_map]
    exact List.map_congr_left fun d _ => d.toDeclaration_ensurePoint
  have hlowered : (m'.signomialProblem solver).lowered (m'.vars.map (·.ensurePoint))
      (forms.map (·.moveTo s)) = l := by
    show Lowered.ofProblem _ _ m'.objective = l
    rw [hdeclarations, h.objective, Lowered.ofProblem_moveTo _ howned h.ownedObjective, hl]
  have hnegate : m'.constraints.map (·.negateDual) = m.constraints.map (·.negateDual) := by
    rw [h.constraints, List.map_map]
    rfl
  have hfirst : (m'.signomialProblem solver).constraints.mapM
      (Constraint.approximate ((m'.vars.map (·.ensurePoint)).map (·.current))) =
        .ok (forms.map (·.moveTo s)) := hforms _
  have hrun := (m'.signomialProblem solver).iterate_of_settles hfirst (h.settles solver)
    (m'.tolerances.maxIterations - 1) 0 0
  rw [hlowered, List.length_map, h.length_vars] at hrun
  simp only [solveWith, run, h.kind.2]
  refine ⟨hrun.1, hrun.2.trans ?_⟩
  show Except.map (fun a => SignomialProblem.conclude 1 (0 + a.time) a.status.isAcceptable
    (.ofAnswer l m.vars.length (m'.constraints.map (·.negateDual)) a)) _ = _
  rw [hnegate]
  rfl

/-- One program for both. -/
theorem outcomes : ∃ p : Program R, ∀ solver : Solver R,
    (m.solveWith solver).calls = [⟨p, solver 0 p⟩] ∧
    (m'.solveWith solver).calls = [⟨p, solver 0 p⟩] ∧
    (∀ e, solver 0 p = .error e →
      (m.solveWith solver).outcome = .error e ∧ (m'.solveWith solver).outcome = .error e) ∧
    ∀ a, solver 0 p = .ok a → ∃ t t', (m.solveWith solver).outcome = .ok t ∧
      (m'.solveWith solver).outcome = .ok t' ∧ t.status = a.status ∧ t.AgreesWith t' := by
  obtain ⟨forms, hgeometric, hforms, howned⟩ := h.exists_forms
  refine ⟨(Lowered.ofProblem (m.vars.map (·.toDeclaration)) forms m.objective).program,
    fun solver => ?_⟩
  obtain ⟨hcalls, houtcome⟩ := solveWith_geometric h.kind.1 hgeometric solver rfl
  obtain ⟨hcalls', houtcome'⟩ := h.run_eq hforms howned rfl solver
  refine ⟨hcalls, hcalls', fun e he => ?_, fun a ha => ?_⟩
  · rw [houtcome, houtcome', he]
    exact ⟨rfl, rfl⟩
  · rw [houtcome, houtcome', ha]
    exact ⟨_, _, rfl, rfl, rfl, ⟨rfl, rfl, rfl, ⟨rfl, rfl⟩, rfl⟩⟩

end Twins

/-- The geometric and the signomial way of solving agree on what geometric models accept. Take
any operations that a new geometric model accepts one after the other, declarations as well as
solves, and any other model identity. A new signomial model accepts the same operations with
handles of its own, and stores the same canonical forms for the same sides of the relations. Whatever
solver is asked next, both models ask it about one and the same program, once; and either both end
with its error, or both with a result, and the results agree. -/
theorem solve_twins (g s : ModelId) (ops : List (Operation R)) (m : Model R)
    (hops : (Model.empty g .geometric).attemptAll ops = .ok m) :
    ∃ m', (Model.empty s .signomial).attemptAll (ops.map (·.moveTo s)) = .ok m' ∧
      m'.vars.map (·.toDeclaration) = m.vars.map (·.toDeclaration) ∧
      m'.constraints = m.constraints.map (·.moveTo s) ∧
      m'.objective = m.objective.map (·.moveTo s) ∧
      ∃ p : Program R, ∀ solver : Solver R,
        (m.solveWith solver).calls = [⟨p, solver 0 p⟩] ∧
        (m'.solveWith solver).calls = [⟨p, solver 0 p⟩] ∧
        (∀ e, solver 0 p = .error e →
          (m.solveWith solver).outcome = .error e ∧ (m'.solveWith solver).outcome = .error e) ∧
        ∀ a, solver 0 p = .ok a → ∃ t t', (m.solveWith solver).outcome = .ok t ∧
          (m'.solveWith solver).outcome = .ok t' ∧ t.status = a.status ∧ t.AgreesWith t' := by
  obtain ⟨m', hops', htwins⟩ := (Twins.empty g s).attemptAll hops
  exact ⟨m', hops', htwins.declarations, htwins.constraints, htwins.objective, htwins.outcomes⟩

/-- A bound, a solve that fails, and one more variable. -/
noncomputable def resumedRun : List (Operation ℝ) :=
  [.addVariable Lowered.plain, .addConstraint Relation.shiftedBound none,
    .solve fun _ _ => .error .notSolved, .addVariable Lowered.plain]

theorem exists_attemptAll_resumedRun :
    ∃ m, (Model.empty 0 .geometric).attemptAll resumedRun = .ok m := by
  have hplain : Lowered.plain.fault? = none := by
    simp [Lowered.plain, Declaration.fault?, Declaration.given]
  have hfirst : ∀ v ∈ Relation.shiftedBound.support, v = ⟨0, 0⟩ := fun v => List.mem_singleton.mp
  rw [resumedRun, attemptAll_cons (attempt_addVariable _ hplain),
    attemptAll_cons (attempt_addConstraint (fun v hv => hfirst v hv ▸ rfl)
      Relation.normalize_shiftedBound),
    attemptAll_cons rfl, attemptAll_cons (attempt_addVariable _ hplain)]
  exact ⟨_, rfl⟩

theorem solve_twins_resumedRun : ∃ m m', (Model.empty 0 .geometric).attemptAll resumedRun = .ok m ∧
    (Model.empty 1 .signomial).attemptAll (resumedRun.map (·.moveTo 1)) = .ok m' ∧
    ∃ t t', (m.solveWith fun _ _ => .ok ⟨.optimal, [], [], 0, 0⟩).outcome = .ok t ∧
      (m'.solveWith fun _ _ => .ok ⟨.optimal, [], [], 0, 0⟩).outcome = .ok t' ∧
      t.status = .optimal ∧ t'.status = .locallySolved ∧ t'.values = t.values := by
  obtain ⟨m, hm⟩ := exists_attemptAll_resumedRun
  obtain ⟨m', hm', _, _, _, p, hsolve⟩ := solve_twins 0 1 resumedRun m hm
  obtain ⟨_, _, _, hok⟩ := hsolve fun _ _ => .ok ⟨.optimal, [], [], 0, 0⟩
  obtain ⟨t, t', ht, ht', hstatus, hagrees⟩ := hok _ rfl
  refine ⟨m, m', hm, hm', t, t', ht, ht', hstatus, ?_, hagrees.values⟩
  rw [hagrees.status, hstatus]
  rfl

end Model

end LogConvex
