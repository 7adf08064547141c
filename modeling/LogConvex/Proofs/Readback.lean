import LogConvex.Proofs.RunRecord

/- What can be read back after a solve. A model keeps the last solution while more variables are
   declared, so the solution may know fewer variables than the model. Reading a variable fails
   then; reading an expression does not look, and takes the missing value for a number. Where the
   solution knows every variable of an expression, the two agree (`Model.readback_agrees`).

   A solution also says how it was found: by one call that ended as its status says, or by an
   iteration that settled or not. Only the latter is what `ensureConverged` asks for
   (`Model.ensureConverged_trusted`). -/
namespace LogConvex

variable {R : Type} [Scalar R]

/-! ## Values of expressions

Only the variables that occur are looked up. -/

theorem Term.evaluate_congr {t : Term R} {x y : Point R}
    (h : ∀ v ∈ t.exponents.keys, x.value v = y.value v) : t.evaluate x = t.evaluate y := by
  have hfold : ∀ (es : List (Variable × R)) (c : R), (∀ e ∈ es, x.value e.1 = y.value e.1) →
      es.foldl (fun acc p => acc * Scalar.pow (x.value p.1) p.2) c =
        es.foldl (fun acc p => acc * Scalar.pow (y.value p.1) p.2) c := by
    intro es
    induction es with
    | nil => intro _ _; rfl
    | cons e es ih =>
      intro c hes
      obtain ⟨he, hes⟩ := List.forall_mem_cons.mp hes
      rw [List.foldl_cons, List.foldl_cons, he, ih _ hes]
  exact hfold _ _ fun e he => h e.1 (List.mem_map_of_mem he)

theorem Terms.evaluate_congr {ts : Terms R} {x y : Point R}
    (h : ∀ v ∈ occurrences ts, x.value v = y.value v) : evaluate ts x = evaluate ts y := by
  unfold evaluate
  congr 1
  apply List.map_congr_left
  intro t ht
  exact Term.evaluate_congr fun v hv => h v (mem_occurrences.mpr ⟨t, ht, hv⟩)

theorem Expr.evaluate_congr {e : Expr R} {x y : Point R}
    (h : ∀ v ∈ e.occurrences, x.value v = y.value v) : e.evaluate x = e.evaluate y := by
  induction e with
  | monomial t => exact Term.evaluate_congr h
  | posynomial ts | signomial ts => exact Terms.evaluate_congr h
  | power a p ih | neg a ih => rw [evaluate, ih h, evaluate]
  | quotient a b iha ihb | sum a b iha ihb | product a b iha ihb =>
    obtain ⟨ha, hb⟩ := List.forall_mem_append.mp h
    rw [evaluate, iha ha, ihb hb, evaluate]

namespace Model

variable {m : Model R}

/-! ## What a solve ends with -/

/-- A solution has a value for every variable that is declared, and is read from the answer to
the last call. Of an iteration, the status depends on whether it settled. -/
theorem outcome_cases {solver : Solver R} {s : Solution R}
    (h : (m.solveWith solver).outcome = .ok s) :
    s.values.length = m.vars.length ∧
      ∃ before p a, (m.solveWith solver).calls = before ++ [⟨p, .ok a⟩] ∧
        match m.kind with
        | .geometric => before = [] ∧ s.status = a.status ∧ s.converged = true
        | .signomial => (s.converged = true → a.status.isAcceptable = true) ∧
            s.status = if s.converged then .locallySolved else a.status := by
  cases hkind : m.kind with
  | geometric =>
    cases hforms : m.constraints.mapM (·.geometric) with
    | error e => simp [solveWith, run, hkind, runGeometric, hforms] at h
    | ok forms =>
      obtain ⟨hcalls, houtcome⟩ := solveWith_geometric hkind hforms solver rfl
      rw [houtcome] at h
      cases ha : solver 0 (Lowered.ofProblem (m.vars.map (·.toDeclaration)) forms
          m.objective).program with
      | error e =>
        rw [ha] at h
        cases h
      | ok a =>
        rw [ha] at h hcalls
        obtain rfl := Except.ok.inj h
        exact ⟨length_values_ofAnswer .., [], _, a, hcalls, rfl, rfl, rfl⟩
  | signomial =>
    have hrun : m.run solver = (m.signomialProblem solver).run m.vars := by simp only [run, hkind]
    simp only [solveWith, hrun] at h ⊢
    obtain ⟨before, last, hrecord⟩ := (m.signomialProblem solver).iterate_record _ 0 0 _ h
    obtain ⟨_, _, _, _, hlast⟩ := hrecord.rounds before.length last (by simp)
    have hreported := hrecord.reported
    refine ⟨?_, before.map Round.call, last.program, last.answer, ?_, fun hs => ?_, ?_⟩
    · rw [hreported]
      show last.solution.values.length = _
      rw [hlast, length_values_ofAnswer, List.length_map, List.length_map]
    · exact hrecord.calls.trans (List.map_append ..)
    · rw [hrecord.settled, Bool.and_eq_true] at hs
      exact hs.1
    · rw [hreported]
      show (if s.converged then _ else last.solution.status) = _
      rw [hlast]
      rfl

/-! ## Reading values -/

omit [Scalar R] in
theorem summary_eq_ok_iff {s : Solution R} : m.summary = .ok s ↔ m.solution = some s := by
  unfold summary
  cases m.solution <;> simp

omit [Scalar R] in
theorem value_eq_ok_iff {v : Variable} {b : R} : m.value v = .ok b ↔
    m.owns v = true ∧ ∃ s, m.summary = .ok s ∧ s.values[v.index]? = some b := by
  have howns : m.owns v = true ↔ m.checkOwned [v] = .ok () := by
    rw [checkOwned_eq_ok_iff, List.forall_mem_singleton]
  rw [howns]
  unfold value
  cases m.checkOwned [v] with
  | error e => simp [bind, Except.bind]
  | ok _ =>
    cases m.summary with
    | error e => simp [bind, Except.bind]
    | ok s => cases hb : s.values[v.index]? <;> simp [bind, Except.bind, hb]

omit [Scalar R] in
/-- A variable that the solution does not know counts as not solved for. -/
theorem value_of_late {v : Variable} (hv : m.owns v = true) {s : Solution R}
    (hs : m.summary = .ok s) (hlate : s.values.length ≤ v.index) :
    m.value v = .error .notSolved := by
  have howned : m.checkOwned [v] = .ok () := by
    rw [checkOwned_eq_ok_iff, List.forall_mem_singleton]
    exact hv
  rw [value, howned, hs]
  simp [bind, Except.bind, List.getElem?_eq_none hlate]

theorem evaluate_eq_ok_iff {e : Expr R} {a : R} : m.evaluate e = .ok a ↔
    (∀ v ∈ e.support, m.owns v = true) ∧ ∃ s, m.summary = .ok s ∧ e.evaluate s.values = a := by
  rw [← checkOwned_eq_ok_iff]
  unfold evaluate
  cases m.checkOwned e.support with
  | error e => simp [bind, Except.bind]
  | ok _ => cases m.summary <;> simp [bind, Except.bind, pure, Except.pure]

/-- The solution that a model keeps is what some solve in its past ended with. It has values for
the variables that were declared by then. -/
theorem Reach.exists_solve {A : Solver R → Prop} {w : Written R} (hm : Reach A m w) {s : Solution R}
    (hs : m.solution = some s) : ∃ m₀ w₀ solver, Reach A m₀ w₀ ∧
      (m₀.solveWith solver).outcome = .ok s ∧ s.values.length = w₀.vars.length ∧
      w₀.vars <+: w.vars := by
  induction hm with
  | empty id kind => cases hs
  | @step m m' w w' hm hstep ih =>
    have later : m.solution = some s → w.vars <+: w'.vars → ∃ m₀ w₀ solver, Reach A m₀ w₀ ∧
        (m₀.solveWith solver).outcome = .ok s ∧ s.values.length = w₀.vars.length ∧
        w₀.vars <+: w'.vars := by
      intro hs hvars
      obtain ⟨m₀, w₀, solver, hm₀, houtcome, hlength, hprefix⟩ := ih hs
      exact ⟨m₀, w₀, solver, hm₀, houtcome, hlength, hprefix.trans hvars⟩
    cases hstep with
    | addVariable hadd =>
      obtain ⟨_, rfl, _⟩ := addVariable_eq_ok_iff.mp hadd
      exact later hs (List.prefix_append _ _)
    | addConstraint hadd =>
      obtain ⟨_, _, _, rfl, _⟩ := addConstraint_eq_ok_iff.mp hadd
      exact later hs (List.prefix_refl _)
    | setObjective hset =>
      obtain ⟨_, _, _, rfl⟩ := setObjective_eq_ok_iff.mp hset
      exact later hs (List.prefix_refl _)
    | setSettings | setTolerances | copy => exact later hs (List.prefix_refl _)
    | @solve solver _ =>
      cases houtcome : (m.solveWith solver).outcome with
      | error e =>
        -- the solution of the solve before stays
        have hkept : (m.solveWith solver).model.solution = m.solution := by
          have herror : (m.run solver).outcome = .error e := houtcome
          simp only [solveWith, herror]
        exact later (hkept.symm.trans hs) (List.prefix_refl _)
      | ok s' =>
        have hnew : (m.solveWith solver).model.solution = some s' := by
          have hok : (m.run solver).outcome = .ok s' := houtcome
          simp only [solveWith, hok]
        obtain rfl : s' = s := Option.some.inj (hnew.symm.trans hs)
        have hlength := (outcome_cases houtcome).1
        rw [hm.agrees.length] at hlength
        exact ⟨m, w, solver, hm, houtcome, hlength, List.prefix_refl _⟩

/-- Reading back an expression agrees with reading back its variables, as far as the solution
knows them. Take any history of a model, in which variables may have been declared after the last
solve, and any expression over its variables. If the solution has a value for each of them, the
expression can be read exactly if there is a solution and each variable can be read. Wherever all
of them can be read, what is read is the value of the expression at what is read of them. But the
expression can be read whenever there is a solution, also with variables that were declared after
the solve it came from; and these are the ones that cannot be read, since they count as not
solved for. -/
theorem readback_agrees {w : Written R} (hm : Reach (fun _ => True) m w) (e : Expr R)
    (he : ∀ v ∈ e.support, m.owns v = true) :
    ((∀ s, m.summary = .ok s → Point.Covers s.values e.support) →
      ((∃ a, m.evaluate e = .ok a) ↔
        (∃ s, m.summary = .ok s) ∧ ∀ v ∈ e.support, ∃ b, m.value v = .ok b)) ∧
      (∀ x : Point R, (∃ s, m.summary = .ok s) → (∀ v ∈ e.support, m.value v = .ok (x.value v)) →
        m.evaluate e = .ok (e.evaluate x)) ∧
      ((∃ a, m.evaluate e = .ok a) ↔ ∃ s, m.summary = .ok s) ∧
      ∀ s, m.summary = .ok s → ∃ m₀ w₀ solver, Reach (fun _ => True) m₀ w₀ ∧
        (m₀.solveWith solver).outcome = .ok s ∧ w₀.vars <+: w.vars ∧
        ∀ v, m.owns v = true → ((∃ b, m.value v = .ok b) ↔ v.index < w₀.vars.length) ∧
          (w₀.vars.length ≤ v.index → m.value v = .error .notSolved) := by
  have hsolved : (∃ a, m.evaluate e = .ok a) ↔ ∃ s, m.summary = .ok s := by
    simp only [evaluate_eq_ok_iff]
    constructor
    · rintro ⟨a, _, s, hs, _⟩
      exact ⟨s, hs⟩
    · rintro ⟨s, hs⟩
      exact ⟨_, he, s, hs, rfl⟩
  have hvalue : ∀ s, m.summary = .ok s → ∀ v, m.owns v = true →
      ((∃ b, m.value v = .ok b) ↔ v.index < s.values.length) := by
    intro s hs v hv
    simp only [value_eq_ok_iff, hs, hv, true_and, Except.ok.injEq, exists_eq_left']
    simp [← Option.isSome_iff_exists]
  refine ⟨fun hcovered => ?_, fun x hs hx => ?_, hsolved, fun s hs => ?_⟩
  · rw [hsolved]
    constructor
    · rintro ⟨s, hs⟩
      exact ⟨⟨s, hs⟩, fun v hv => (hvalue s hs v (he v hv)).mpr (hcovered s hs v hv)⟩
    · exact And.left
  · obtain ⟨s, hs⟩ := hs
    refine evaluate_eq_ok_iff.mpr ⟨he, s, hs, Expr.evaluate_congr fun v hv => ?_⟩
    obtain ⟨_, s', hs', hget⟩ := value_eq_ok_iff.mp (hx v (Expr.mem_support.mpr hv))
    obtain rfl : s = s' := Except.ok.inj (hs.symm.trans hs')
    rw [Point.value, hget, Option.getD_some]
  · obtain ⟨m₀, w₀, solver, hm₀, houtcome, hlength, hprefix⟩ :=
      hm.exists_solve (summary_eq_ok_iff.mp hs)
    refine ⟨m₀, w₀, solver, hm₀, houtcome, hprefix, fun v hv => ?_⟩
    rw [← hlength]
    exact ⟨hvalue s hs v hv, value_of_late hv hs⟩

/-- A variable that is solved for, and one that is declared after the solve. -/
def lateModel : Model Float :=
  let solver := Solver.replay [.ok ⟨.optimal, [0], [], 0, 0⟩]
  let solved := ({ (empty 0 .geometric : Model Float) with
    vars := [⟨⟨"x", none, none, none, none⟩, []⟩] }.solveWith solver).model
  { solved with vars := solved.vars ++ [⟨⟨"late", none, none, none, none⟩, []⟩] }

theorem reach_lateModel : Reach (fun _ => True) lateModel
    ⟨[⟨"x", none, none, none, none⟩, ⟨"late", none, none, none, none⟩], [], none⟩ := by
  have hdeclared := (addVariable_eq_ok_iff (m := (empty 0 .geometric : Model Float))
    (d := ⟨"x", none, none, none, none⟩)).mpr ⟨rfl, rfl, rfl⟩
  refine .step (.step (.step (.empty 0 .geometric) (.addVariable hdeclared)) (.solve trivial))
    (.addVariable (v := ⟨0, 1⟩) (addVariable_eq_ok_iff.mpr ⟨rfl, rfl, rfl⟩))

/-- The variable that was solved for can be read, and so can an expression of it. -/
theorem readback_agrees_lateModel :
    (∀ s, lateModel.summary = .ok s →
      Point.Covers s.values (Expr.monomial ⟨2, .single ⟨0, 0⟩ 1⟩ : Expr Float).support) ∧
      ∃ b, lateModel.value ⟨0, 0⟩ = .ok b ∧ lateModel.evaluate (.monomial ⟨2, .single ⟨0, 0⟩ 1⟩) =
        .ok ((Expr.monomial ⟨2, .single ⟨0, 0⟩ 1⟩).evaluate [b]) := by
  have hvars : ∀ v ∈ (Expr.monomial ⟨(2 : Float), .single ⟨0, 0⟩ 1⟩).support, v = ⟨0, 0⟩ :=
    fun v => List.mem_singleton.mp
  have hlength : ∃ s, lateModel.summary = .ok s ∧ s.values.length = 1 := ⟨_, rfl, rfl⟩
  obtain ⟨s, hs, hone⟩ := hlength
  have hcovered : ∀ s', lateModel.summary = .ok s' →
      Point.Covers s'.values (Expr.monomial ⟨(2 : Float), .single ⟨0, 0⟩ 1⟩).support := by
    intro s' hs' v hv
    obtain rfl := Except.ok.inj (hs.symm.trans hs')
    rw [hvars v hv, hone]
    exact Nat.zero_lt_one
  obtain ⟨hagree, hevaluate, hsolved, _⟩ := readback_agrees reach_lateModel
    (.monomial ⟨2, .single ⟨0, 0⟩ 1⟩) fun v hv => hvars v hv ▸ rfl
  obtain ⟨_, hreadable⟩ := (hagree hcovered).mp (hsolved.mpr ⟨s, hs⟩)
  obtain ⟨b, hb⟩ := hreadable ⟨0, 0⟩ (List.mem_singleton.mpr rfl)
  refine ⟨hcovered, b, hb, hevaluate [b] ⟨s, hs⟩ fun v hv => ?_⟩
  rw [hvars v hv, hb]
  rfl

/-- The late variable cannot be read, but an expression of it can: the missing number counts. -/
theorem readback_disagrees_lateModel :
    (∃ w, Reach (fun _ => True) lateModel w) ∧
      (∀ v ∈ (Expr.monomial ⟨(1 : Float), .single ⟨0, 1⟩ 1⟩).support, lateModel.owns v = true) ∧
      (∃ s, lateModel.summary = .ok s) ∧ lateModel.value ⟨0, 1⟩ = .error .notSolved ∧
      lateModel.evaluate (.monomial ⟨1, .single ⟨0, 1⟩ 1⟩) =
        .ok (1 * Scalar.pow Scalar.missing 1) := by
  refine ⟨⟨_, reach_lateModel⟩, fun v hv => ?_, ⟨_, rfl⟩, rfl, rfl⟩
  obtain rfl : v = ⟨0, 1⟩ := List.mem_singleton.mp hv
  rfl

/-! ## Convergence -/

/-- A solution that passes as converged can be trusted if it is that of a signomial model. Take
any model, tolerances and solver, and a solve that ends with a solution, which is read from the
answer to the last call. A signomial solution that passes is a local solution, and the status of
that answer could be trusted. A geometric solve has one call and nothing to converge, so its
solution always passes; its status is what the solver said, and has to be looked at by itself. -/
theorem ensureConverged_trusted (solver : Solver R) (s : Solution R)
    (h : (m.solveWith solver).outcome = .ok s) :
    ∃ before p a, (m.solveWith solver).calls = before ++ [⟨p, .ok a⟩] ∧
      (m.kind = .signomial → s.ensureConverged = .ok () →
        s.status.isAcceptable = true ∧ s.status = .locallySolved ∧
          a.status.isAcceptable = true) ∧
      (m.kind = .geometric → before = [] ∧ s.ensureConverged = .ok () ∧ s.status = a.status) := by
  have hconverged : s.ensureConverged = .ok () ↔ s.converged = true := by
    unfold Solution.ensureConverged
    cases s.converged <;> simp
  obtain ⟨_, before, p, a, hcalls, hkind⟩ := outcome_cases h
  refine ⟨before, p, a, hcalls, fun hsignomial hpass => ?_, fun hgeometric => ?_⟩
  · rw [hsignomial] at hkind
    obtain ⟨haccepted, hstatus⟩ := hkind
    rw [hconverged.mp hpass, if_pos rfl] at hstatus
    exact ⟨by rw [hstatus]; rfl, hstatus, haccepted (hconverged.mp hpass)⟩
  · rw [hgeometric] at hkind
    obtain ⟨hone, hstatus, htrue⟩ := hkind
    exact ⟨hone, hconverged.mpr htrue, hstatus⟩

/-- The model of the least `x` with `c ≤ x + x ^ e`, to be solved in up to three rounds, until
one of them stays where it is. -/
noncomputable def patientModel (c e : ℝ) : Model ℝ :=
  { powerModel c e with tolerances := ⟨3, 0, 0⟩ }

/-- Every round of the steady solver ends at one and the same point. -/
theorem steadySolver_round {k : Nat} {r : Round ℝ}
    (h : ((patientModel 2 2).signomialProblem steadySolver).IsRound [fromOne] k r) :
    r.accepted = true ∧ r.solution.values = [Real.exp 1] := by
  obtain ⟨forms, _, hprogram, ha, hsolution⟩ := h
  have hanswer : r.answer = ⟨.optimal, List.replicate r.program.bounds.length 1, [], 0, 0⟩ :=
    (Except.ok.inj ha).symm
  have hbounds : 1 ≤ r.program.bounds.length := by
    rw [hprogram]
    simp [Lowered.ofProblem]
  constructor
  · rw [Round.accepted, hanswer]
    rfl
  · rw [hsolution, List.length_singleton, Lowered.values_ofAnswer _ _ (by simpa [hanswer]), hanswer]
    simp [hbounds]

/-- The steady solver moves from the start in the first round, and stays in the second. -/
theorem steadySolver_settles {s : Solution ℝ}
    (hs : ((patientModel 2 2).solveWith steadySolver).outcome = .ok s) :
    s.iterations = 2 ∧ s.converged = true := by
  let P := (patientModel 2 2).signomialProblem steadySolver
  let start := (patientModel 2 2).vars.map (·.ensurePoint)
  have hdeclared : start.map (·.toDeclaration) = [fromOne] := rfl
  have hstart : start.map (·.current) = [1] := rfl
  obtain ⟨before, last, hrecord⟩ := P.iterate_record 2 0 0 start hs
  have hsteady : ∀ r ∈ before ++ [last], r.accepted = true ∧ r.solution.values = [Real.exp 1] := by
    intro r hr
    obtain ⟨k, hk⟩ := List.getElem?_of_mem hr
    exact steadySolver_round (hdeclared ▸ hrecord.rounds k r hk)
  have hsettles : ∀ a, P.settles [a] [Real.exp 1] = true ↔ Real.exp 1 = a := fun a =>
    settles_single_iff rfl ⟨rfl, rfl⟩ (Real.exp_pos 1)
  have hpoints := hrecord.points
  rw [hstart] at hpoints
  obtain ⟨haccepted, hvalues⟩ := hsteady last (by simp)
  have hconverged := hrecord.settled
  rw [haccepted, hvalues, Bool.true_and] at hconverged
  rcases before with _ | ⟨first, _ | ⟨second, rest⟩⟩
  · -- a single round would have moved, with budget left
    exfalso
    have hpoint : last.point = [1] := (List.cons.inj hpoints).1
    have hunsettled : s.converged = false := by
      rw [hconverged, hpoint, Bool.eq_false_iff, ne_eq, hsettles]
      simp
    rcases hrecord.exhausted hunsettled with hrejected | hall
    · rw [haccepted] at hrejected
      cases hrejected
    · cases hall
  · have hpoint : last.point = [Real.exp 1] :=
      (List.cons.inj (List.cons.inj hpoints).2).1.trans (hsteady first (by simp)).2
    refine ⟨by simpa using hrecord.count, ?_⟩
    rw [hconverged, hpoint, hsettles]
  · -- the second round would have ended the run
    exfalso
    have hpoint : second.point = [Real.exp 1] :=
      (List.cons.inj (List.cons.inj hpoints).2).1.trans (hsteady first (by simp)).2
    have hunsettled := (hrecord.continued second (by simp)).2
    rw [hpoint, (hsteady second (by simp)).2, Bool.eq_false_iff, ne_eq, hsettles] at hunsettled
    exact hunsettled rfl

/-- A true signomial model that settles in its second round passes. -/
theorem ensureConverged_trusted_patientModel : ∃ s,
    ((patientModel 2 2).solveWith steadySolver).outcome = .ok s ∧
      (∃ c ∈ (patientModel 2 2).constraints, c.isSignomial = true) ∧ s.iterations = 2 ∧
      s.ensureConverged = .ok () ∧ s.status = .locallySolved := by
  have hreach : Reach Solver.Full (patientModel 2 2) (leastProblem fromOne (powerBound 2 2)) :=
    .step (reach_powerModel Solver.Full two_pos (OfNat.ofNat_ne_one 2)) (.setTolerances ⟨3, 0, 0⟩)
  obtain ⟨s, hs⟩ := hreach.exists_outcome steadySolver_full fun _ _ => ⟨_, rfl⟩
  obtain ⟨htwo, hconverged⟩ := steadySolver_settles hs
  have hpass : s.ensureConverged = .ok () := by rw [Solution.ensureConverged, hconverged]; rfl
  obtain ⟨_, _, _, _, hsignomial, _⟩ := ensureConverged_trusted steadySolver s hs
  exact ⟨s, hs, ⟨_, List.mem_cons_self, rfl⟩, htwo, hpass, (hsignomial rfl hpass).2.1⟩

/-- Without an iteration, a solution passes whatever its status says. -/
theorem ensureConverged_infeasible :
    (∃ w, Reach (fun _ => True) (empty 0 .geometric : Model Float) w) ∧
      ∃ s, ((empty 0 .geometric : Model Float).solveWith
          (Solver.replay [.ok ⟨.infeasible, [], [], 0, 0⟩])).outcome = .ok s ∧
        s.ensureConverged = .ok () ∧ s.status.isAcceptable = false :=
  ⟨⟨_, .empty 0 .geometric⟩, _, rfl, rfl, rfl⟩

end Model

end LogConvex
