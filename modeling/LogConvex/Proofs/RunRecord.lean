import LogConvex.Proofs.SolverErrors

/- What a signomial solve reports, for any numbers, tolerances and solver. A run that ends
   with a solution consists of rounds that were answered. All but the last were accepted and
   did not settle; the last one settled, or was rejected, or used up the budget. `Record`
   says so of a run from any state of the iteration, together with what the run leaves
   behind, and is built along the recursion: `single` for the last round and `cons` for one
   round before the others. -/
namespace LogConvex

/-- A round with an answer: the point of its program, the program, the answer, and what was
read from it. -/
structure Round (R : Type) where
  point : Point R
  program : Program R
  answer : Answer R
  solution : Solution R

variable {R : Type} [Scalar R]

namespace Round

omit [Scalar R] in
def call (r : Round R) : Call R := ⟨r.program, .ok r.answer⟩

omit [Scalar R] in
/-- The answer can be trusted. -/
def accepted (r : Round R) : Bool := r.answer.status.isAcceptable

/-- How far the values are from the point. -/
def absoluteStep (r : Round R) : R :=
  Scalar.norm (List.zipWith (· - ·) r.solution.values r.point)

def relativeStep (r : Round R) : R := r.absoluteStep / Scalar.norm r.solution.values

end Round

theorem length_duals_ofAnswer (ds : List (Declaration R)) (gs : List (GeometricForm R))
    (o : Option (Objective R)) (count : Nat) (negate : List Bool) (a : Answer R) :
    (Solution.ofAnswer (.ofProblem ds gs o) count negate a).duals.length =
      min gs.length negate.length := by
  simp [Solution.ofAnswer, Lowered.ofProblem]

namespace SignomialProblem

variable (P : SignomialProblem R)

/-- The round solves the approximations at its point, as the program number `k` of a run,
and reads the answer for the declared variables. -/
def IsRound (ds : List (Declaration R)) (k : Nat) (r : Round R) : Prop :=
  ∃ forms, P.constraints.mapM (Constraint.approximate r.point) = .ok forms ∧
    r.program = (Lowered.ofProblem ds forms P.objective).program ∧
    P.solver k r.program = .ok r.answer ∧
    r.solution = .ofAnswer (Lowered.ofProblem ds forms P.objective) ds.length
      (P.constraints.map (·.negateDual)) r.answer

theorem settles_iff (r : Round R) : P.settles r.point r.solution.values = true ↔
    (∀ c ∈ P.constraints, c.isSignomial = false) ∨
      r.relativeStep ≤ P.tolerances.relative ∨ r.absoluteStep ≤ P.tolerances.absolute := by
  simp only [settles, Round.relativeStep, Round.absoluteStep, Bool.or_eq_true, Bool.not_eq_true',
    List.any_eq_false, Bool.not_eq_true, decide_eq_true_eq, or_assoc]

variable {P}

/-- A round reads a value for every variable and a dual value for every constraint. -/
theorem IsRound.solution_spec {ds : List (Declaration R)} {k : Nat} {r : Round R}
    (h : P.IsRound ds k r) : r.solution.values.length = ds.length ∧
      r.solution.duals.length = P.constraints.length ∧ r.solution.status = r.answer.status := by
  obtain ⟨forms, hforms, _, _, hsolution⟩ := h
  have hlength : forms.length = P.constraints.length := (mapM_eq_ok_iff.mp hforms).length_eq.symm
  rw [hsolution, length_values_ofAnswer, length_duals_ofAnswer, hlength, List.length_map,
    Nat.min_self]
  exact ⟨rfl, rfl, rfl⟩

section Pass

variable {k : Nat} {vars : List (DeclaredVariable R)} {p : Program R} {a : Answer R}
  {s : Solution R}

theorem isRound_of_rejected (h : P.pass k vars = .rejected p a s) :
    P.IsRound (vars.map (·.toDeclaration)) k ⟨vars.map (·.current), p, a, s⟩ ∧
      a.status.isAcceptable = false := by
  have hspec := P.pass_spec k vars
  rw [h] at hspec
  obtain ⟨forms, hforms, hp, ha, hs, hstatus⟩ := hspec
  exact ⟨⟨forms, hforms, hp, ha, by simpa [lowered] using hs⟩, hstatus⟩

theorem isRound_of_accepted {settled : Bool} (h : P.pass k vars = .accepted p a s settled) :
    P.IsRound (vars.map (·.toDeclaration)) k ⟨vars.map (·.current), p, a, s⟩ ∧
      a.status.isAcceptable = true ∧ settled = P.settles (vars.map (·.current)) s.values := by
  have hspec := P.pass_spec k vars
  rw [h] at hspec
  obtain ⟨forms, hforms, hp, ha, hs, hstatus, hsettled⟩ := hspec
  exact ⟨⟨forms, hforms, hp, ha, by simpa [lowered] using hs⟩, hstatus, hsettled⟩

end Pass

/-- What a run reports that starts with the round number `k` after some time and may add
`more` rounds to the first. -/
structure Record (P : SignomialProblem R) (more k : Nat) (time : R)
    (vars : List (DeclaredVariable R)) (run : Run R) (s : Solution R) (before : List (Round R))
    (last : Round R) : Prop where
  calls : run.calls = (before ++ [last]).map Round.call
  count : s.iterations = k + (before ++ [last]).length
  budget : before.length ≤ more
  rounds : ∀ i r, (before ++ [last])[i]? = some r →
    P.IsRound (vars.map (·.toDeclaration)) (k + i) r
  points : (before ++ [last]).map (·.point) =
    vars.map (·.current) :: before.map (·.solution.values)
  continued : ∀ r ∈ before, r.accepted = true ∧ P.settles r.point r.solution.values = false
  settled : s.converged = (last.accepted && P.settles last.point last.solution.values)
  exhausted : s.converged = false → last.accepted = false ∨ before.length = more
  reported : s = conclude s.iterations s.time s.converged last.solution
  total : s.time = ((before ++ [last]).map (·.answer.time)).foldl (· + ·) time
  recorded : run.vars =
    (((before ++ [last]).filter Round.accepted).map (·.solution.values)).foldl recordAll vars

namespace Record

variable {k : Nat} {vars : List (DeclaredVariable R)}

/-- A run of one round. -/
theorem single (more : Nat) (time : R) (converged : Bool) (outcome : Except (Error R) (Solution R))
    {r : Round R} (hr : P.IsRound (vars.map (·.toDeclaration)) k r)
    (hpoint : r.point = vars.map (·.current))
    (hconverged : converged = (r.accepted && P.settles r.point r.solution.values))
    (hend : converged = false → r.accepted = false ∨ more = 0) :
    Record P more k time vars
      ⟨if r.accepted then recordAll vars r.solution.values else vars, [r.call], outcome⟩
      (conclude (k + 1) (time + r.answer.time) converged r.solution) [] r := by
  constructor
  · rfl
  · rfl
  · exact Nat.zero_le more
  · intro i r' hr'
    obtain ⟨rfl, rfl⟩ : i = 0 ∧ r = r' := by simpa [List.getElem?_singleton] using hr'
    exact hr
  · simp [hpoint]
  · simp
  · exact hconverged
  · exact fun h => (hend h).imp_right Eq.symm
  · rfl
  · rfl
  · cases h : r.accepted <;> simp [h]

/-- One more round before the others. -/
theorem cons {more : Nat} {time : R} {r last : Round R} {before : List (Round R)} {run : Run R}
    {s : Solution R}
    (hr : P.IsRound (vars.map (·.toDeclaration)) k r)
    (hpoint : r.point = vars.map (·.current)) (haccepted : r.accepted = true)
    (hunsettled : P.settles r.point r.solution.values = false)
    (hlength : r.solution.values.length = vars.length)
    (h : Record P more (k + 1) (time + r.answer.time) (recordAll vars r.solution.values) run s
      before last) :
    Record P (more + 1) k time vars { run with calls := r.call :: run.calls } s (r :: before)
      last := by
  constructor
  · simp [h.calls]
  · rw [h.count, List.cons_append, List.length_cons]
    omega
  · simpa using h.budget
  · intro i r' hr'
    cases i with
    | zero =>
      obtain rfl : r = r' := by simpa using hr'
      exact hr
    | succ i =>
      have hi := h.rounds i r' (by simpa using hr')
      rw [declarations_recordAll hlength] at hi
      rwa [Nat.add_right_comm] at hi
  · -- the rest starts where this round ended
    rw [List.cons_append, List.map_cons, h.points, current_recordAll hlength, hpoint,
      List.map_cons]
  · exact List.forall_mem_cons.mpr ⟨⟨haccepted, hunsettled⟩, h.continued⟩
  · exact h.settled
  · exact fun hs => (h.exhausted hs).imp_right (by simp)
  · exact h.reported
  · exact h.total
  · simp [h.recorded, haccepted]

section Reported

variable {more : Nat} {time : R} {run : Run R} {s : Solution R} {before : List (Round R)}
  {last : Round R} (h : Record P more k time vars run s before last)
include h

/-- A round before the last met neither tolerance, and had something to approximate. -/
theorem not_small {r : Round R} (hr : r ∈ before) :
    ¬ ((∀ c ∈ P.constraints, c.isSignomial = false) ∨
      r.relativeStep ≤ P.tolerances.relative ∨ r.absoluteStep ≤ P.tolerances.absolute) := by
  intro hsmall
  have hunsettled := (h.continued r hr).2
  rw [(P.settles_iff r).mpr hsmall] at hunsettled
  cases hunsettled

/-- What is reported is that of the last round, but for the status of a run that converged. -/
theorem solution_eq : s.values = last.solution.values ∧ s.objective = last.solution.objective ∧
    s.duals = last.solution.duals ∧
    s.status = if s.converged then .locallySolved else last.solution.status := by
  rw [h.reported]
  exact ⟨rfl, rfl, rfl, rfl⟩

theorem isRound_last : P.IsRound (vars.map (·.toDeclaration)) (k + before.length) last :=
  h.rounds before.length last (by simp)

end Reported

end Record

/-- A run that ends with a solution has a record. -/
theorem iterate_record (P : SignomialProblem R) (more k : Nat) (time : R)
    (vars : List (DeclaredVariable R)) {s : Solution R}
    (h : (P.iterate more k time vars).outcome = .ok s) :
    ∃ before last, Record P more k time vars (P.iterate more k time vars) s before last := by
  fun_induction P.iterate more k time vars with
  | case1 | case2 => cases h
  | case3 more k time vars p a s' hpass =>
    obtain rfl := Except.ok.inj h
    obtain ⟨hr, hstatus⟩ := isRound_of_rejected hpass
    have haccepted : Round.accepted ⟨vars.map (·.current), p, a, s'⟩ = false := hstatus
    have hrecord := Record.single more time false
      (.ok (conclude (k + 1) (time + a.time) false s')) hr rfl (by rw [haccepted, Bool.false_and])
      (fun _ => .inl haccepted)
    rw [haccepted] at hrecord
    exact ⟨[], _, hrecord⟩
  | case4 more k time vars p a s' time' vars' hpass =>
    obtain rfl := Except.ok.inj h
    obtain ⟨hr, hstatus, hsettled⟩ := isRound_of_accepted hpass
    have haccepted : Round.accepted ⟨vars.map (·.current), p, a, s'⟩ = true := hstatus
    have hrecord := Record.single more time true (.ok (conclude (k + 1) time' true s')) hr rfl
      (by rw [haccepted, ← hsettled, Bool.and_self]) (fun h => absurd h (by simp))
    rw [haccepted] at hrecord
    exact ⟨[], _, hrecord⟩
  | case5 k time vars p a s' settled hpass time' vars' hs =>
    obtain rfl := Except.ok.inj h
    obtain ⟨hr, hstatus, hsettled⟩ := isRound_of_accepted hpass
    have haccepted : Round.accepted ⟨vars.map (·.current), p, a, s'⟩ = true := hstatus
    have hrecord := Record.single 0 time false (.ok (conclude (k + 1) time' false s')) hr rfl
      (by rw [haccepted, ← hsettled]; simpa using hs) (fun _ => .inr rfl)
    rw [haccepted] at hrecord
    exact ⟨[], _, hrecord⟩
  | case6 k time vars p a s' settled hpass time' vars' hs more rest ih =>
    obtain ⟨hr, hstatus, hsettled⟩ := isRound_of_accepted hpass
    obtain ⟨before, last, hrest⟩ := ih h
    exact ⟨_ :: before, last, .cons hr rfl hstatus (by simpa [← hsettled] using hs)
      (P.length_values_of_accepted hpass) hrest⟩

end SignomialProblem

/-! ## Models -/

namespace Model

/-- What the result of a signomial solve says of its rounds, the last of which is `last`. -/
structure Reports (m : Model R) (solver : Solver R) (s : Solution R) (before : List (Round R))
    (last : Round R) : Prop where
  /-- The calls to the solver are the rounds. -/
  calls : (m.solveWith solver).calls = (before ++ [last]).map Round.call
  count : s.iterations = (before ++ [last]).length
  asked : 1 ≤ s.iterations
  budget : s.iterations ≤ max m.tolerances.maxIterations 1
  rounds : ∀ k r, (before ++ [last])[k]? = some r →
    (m.signomialProblem solver).IsRound (m.vars.map (·.toDeclaration)) k r
  /-- The first round is taken at the latest points, each other one where the last ended. -/
  points : (before ++ [last]).map (·.point) =
    m.vars.map (·.current) :: before.map (·.solution.values)
  continued : ∀ r ∈ before, r.accepted = true ∧ ¬ r.relativeStep ≤ m.tolerances.relative ∧
    ¬ r.absoluteStep ≤ m.tolerances.absolute
  /-- Without a constraint to approximate there is one round. -/
  approximated : before ≠ [] → ∃ c ∈ m.constraints, c.isSignomial = true
  converged : s.converged = true ↔ last.accepted = true ∧
    ((∀ c ∈ m.constraints, c.isSignomial = false) ∨
      last.relativeStep ≤ m.tolerances.relative ∨ last.absoluteStep ≤ m.tolerances.absolute)
  exhausted : s.converged = false →
    last.accepted = false ∨ s.iterations = max m.tolerances.maxIterations 1
  status : s.status = if s.converged then .locallySolved else last.answer.status
  values : s.values = last.solution.values
  length_values : s.values.length = m.vars.length
  objective : s.objective = last.solution.objective
  duals : s.duals = last.solution.duals
  length_duals : s.duals.length = m.constraints.length
  time : s.time = ((before ++ [last]).map (·.answer.time)).foldl (· + ·) 0
  /-- The accepted rounds are recorded with the variables. -/
  recorded : (m.solveWith solver).model.vars =
    (((before ++ [last]).filter Round.accepted).map (·.solution.values)).foldl recordAll
      (m.vars.map (·.ensurePoint))

/-- A signomial solve does what its result says. Take any model, tolerances and solver, and
a solve that ends with a solution. The calls to the solver are the rounds of the run, as many
as are reported, at least one and within the budget. The first round is taken at the latest
points of the variables, each other one at the values of the round before. Every round but
the last was accepted and met neither tolerance, and there is more than one only if a
constraint had to be approximated. The run converged if the last round was accepted and
there was nothing to approximate or a tolerance was met; if it did not, the last round was
rejected or the budget is used up. What is reported is read from the last answer, for every
variable and every constraint; the time is that of all calls; and the accepted rounds are
recorded with the variables. -/
theorem solve_signomial_record {m : Model R} (hkind : m.kind = .signomial) {solver : Solver R}
    {s : Solution R} (h : (m.solveWith solver).outcome = .ok s) :
    ∃ before last, m.Reports solver s before last := by
  have hrun : m.run solver = (m.signomialProblem solver).run m.vars := by
    simp only [run, hkind]
  have hdeclared : (m.vars.map (·.ensurePoint)).map (·.toDeclaration) =
      m.vars.map (·.toDeclaration) := by simp [Function.comp_def]
  have hcurrent : (m.vars.map (·.ensurePoint)).map (·.current) = m.vars.map (·.current) := by
    simp [Function.comp_def]
  have hsolve : (m.solveWith solver).outcome = (m.run solver).outcome := rfl
  rw [hsolve, hrun] at h
  obtain ⟨before, last, hrecord⟩ := (m.signomialProblem solver).iterate_record _ 0 0 _ h
  obtain ⟨hvalues, hobjective, hduals, hstatus⟩ := hrecord.solution_eq
  have hlast := hrecord.isRound_last
  rw [hdeclared] at hlast
  obtain ⟨hlength_values, hlength_duals, hanswered⟩ := hlast.solution_spec
  have hcount : s.iterations = before.length + 1 := by simpa using hrecord.count
  have hbefore : before.length ≤ m.tolerances.maxIterations - 1 := hrecord.budget
  refine ⟨before, last, {
    calls := (congrArg Run.calls hrun).trans hrecord.calls
    count := by simpa using hcount
    asked := by omega
    budget := by omega
    rounds := fun k r hr => ?rounds
    points := hcurrent ▸ hrecord.points
    continued := fun r hr => ?continued
    approximated := fun hne => ?approximated
    converged := ?converged
    exhausted := fun hs => ?exhausted
    status := hanswered ▸ hstatus
    values := hvalues
    length_values := by simpa [hvalues] using hlength_values
    objective := hobjective
    duals := hduals
    length_duals := hduals ▸ hlength_duals
    time := hrecord.total
    recorded := (congrArg Run.vars hrun).trans hrecord.recorded }⟩
  case rounds => simpa [hdeclared] using hrecord.rounds k r hr
  case continued =>
    have hnot := hrecord.not_small hr
    exact ⟨(hrecord.continued r hr).1, fun h => hnot (.inr (.inl h)), fun h => hnot (.inr (.inr h))⟩
  case approximated =>
    obtain ⟨r, hr⟩ := List.exists_mem_of_ne_nil before hne
    have hnot := hrecord.not_small hr
    by_contra hnone
    exact hnot (.inl (by simpa [signomialProblem] using hnone))
  case converged =>
    rw [hrecord.settled, Bool.and_eq_true]
    exact and_congr_right fun _ => (m.signomialProblem solver).settles_iff last
  case exhausted =>
    refine (hrecord.exhausted hs).imp_right fun hmore => ?_
    have hall : before.length = m.tolerances.maxIterations - 1 := hmore
    omega

/-- A solver whose answers cannot be trusted after the first, and each of which takes a
second. -/
noncomputable def fadingSolver : Solver ℝ := fun k p =>
  .ok ⟨if k = 0 then .optimal else .infeasible, List.replicate p.bounds.length 1, [], 0, 1⟩

/-- The model of the least `x` with `c ≤ x + x ^ e`, to be solved in two rounds that no step
is small enough to end. -/
noncomputable def restlessModel (c e : ℝ) : Model ℝ :=
  { powerModel c e with tolerances := ⟨2, -1, -1⟩ }

theorem exists_outcome_restlessModel :
    ∃ s, ((restlessModel 2 2).solveWith fadingSolver).outcome = .ok s := by
  have hreach : Reach Solver.Full (restlessModel 2 2) (leastProblem fromOne (powerBound 2 2)) :=
    .step (reach_powerModel Solver.Full two_pos (OfNat.ofNat_ne_one 2)) (.setTolerances ⟨2, -1, -1⟩)
  have hfull : fadingSolver.Full := by
    intro k p a ha _
    obtain rfl := Except.ok.inj ha
    simp
  exact hreach.exists_outcome hfull fun _ _ => ⟨_, rfl⟩

/-- The first answer is accepted, the second is rejected. -/
theorem solve_signomial_record_fading : ∃ s,
    ((restlessModel 2 2).solveWith fadingSolver).outcome = .ok s ∧ s.iterations = 2 ∧
      s.converged = false ∧ s.status = .infeasible ∧ s.time = 2 := by
  obtain ⟨s, hs⟩ := exists_outcome_restlessModel
  obtain ⟨before, last, hreports⟩ := solve_signomial_record rfl hs
  have hanswer : ∀ k r, (before ++ [last])[k]? = some r →
      r.answer.status = (if k = 0 then .optimal else .infeasible) ∧ r.answer.time = 1 := by
    intro k r hr
    obtain ⟨_, _, _, ha, _⟩ := hreports.rounds k r hr
    have heq := Except.ok.inj ha
    rw [← heq]
    exact ⟨rfl, rfl⟩
  have hsmall : ∀ r : Round ℝ, ¬ r.relativeStep ≤ -1 ∧ ¬ r.absoluteStep ≤ -1 := by
    intro r
    have habsolute : 0 ≤ r.absoluteStep := Scalar.norm_nonneg _
    have hrelative : 0 ≤ r.relativeStep := div_nonneg habsolute (Scalar.norm_nonneg _)
    constructor <;> linarith
  have hfinal : s.converged = false := by
    rw [Bool.eq_false_iff, ne_eq, hreports.converged]
    rintro ⟨_, hnone | hrelative | habsolute⟩
    · have hsignomial : true = false := hnone _ List.mem_cons_self
      cases hsignomial
    · exact (hsmall last).1 hrelative
    · exact (hsmall last).2 habsolute
  have htwo : s.iterations ≤ 2 := hreports.budget
  have hend := hreports.exhausted hfinal
  rw [hreports.count] at htwo hend
  rcases before with _ | ⟨r, _ | _⟩
  · obtain ⟨hlast, _⟩ := hanswer 0 last rfl
    have haccepted : last.accepted = true := by rw [Round.accepted, hlast]; rfl
    rcases hend with hrejected | hone
    · rw [haccepted] at hrejected
      cases hrejected
    · cases hone
  · obtain ⟨_, hr⟩ := hanswer 0 r rfl
    obtain ⟨hlast, hlasttime⟩ := hanswer 1 last rfl
    refine ⟨s, hs, hreports.count, hfinal, ?_, ?_⟩
    · rw [hreports.status, hfinal, hlast]
      rfl
    · rw [hreports.time]
      simp [hr, hlasttime]
      norm_num
  · simp at htwo

end Model

end LogConvex
