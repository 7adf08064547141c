import LogConvex.Proofs.Convexification
import LogConvex.Proofs.GeometricSolve

/- How a solve fails. Everything that could be wrong with a problem is found when it is
   declared: constraints of a geometric model have geometric forms, and those of a signomial
   model have tangents at every point that a run can reach, because all recorded points stay
   positive. So a solve always comes to ask its solver, and an error that it ends with is the
   solver's own. `Run.Answered` says this of a run from any state of the iteration; it is built
   along the recursion, `single` for the last round and `cons` for a round before others. -/
namespace LogConvex

/-- A run whose programs are numbered from `k` on. It asks at least once, every call has the
answer of the solver, and the run fails exactly if its last call does, with the same error. -/
structure Run.Answered {R : Type} (solver : Solver R) (k : Nat) (run : Run R) : Prop where
  asked : run.calls ≠ []
  answered : ∀ i c, run.calls[i]? = some c → c.answer = solver (k + i) c.program
  error_iff : ∀ e, run.outcome = .error e ↔ ∃ before p, run.calls = before ++ [⟨p, .error e⟩]

namespace Run.Answered

variable {R : Type} {solver : Solver R} {k : Nat}

/-- A run of one call. -/
theorem single (vars : List (DeclaredVariable R)) {p : Program R}
    {answer : Except (Error R) (Answer R)} {outcome : Except (Error R) (Solution R)}
    (hanswer : solver k p = answer) (houtcome : ∀ e, outcome = .error e ↔ answer = .error e) :
    Answered solver k ⟨vars, [⟨p, answer⟩], outcome⟩ := by
  constructor
  · simp
  · intro i c hc
    obtain ⟨rfl, rfl⟩ : i = 0 ∧ ⟨p, answer⟩ = c := by
      simpa [List.getElem?_singleton] using hc
    exact hanswer.symm
  · intro e
    rw [houtcome]
    constructor
    · rintro rfl
      exact ⟨[], p, rfl⟩
    · rintro ⟨before, p', h⟩
      have hcalls : [] ++ [⟨p, answer⟩] = before ++ [⟨p', .error e⟩] := h
      obtain ⟨_, hlast⟩ := List.append_inj' hcalls rfl
      exact congrArg Call.answer (List.singleton_inj.mp hlast)

/-- One more call, which was answered, before the others. -/
theorem cons {p : Program R} {a : Answer R} {rest : Run R} (ha : solver k p = .ok a)
    (h : Answered solver (k + 1) rest) :
    Answered solver k { rest with calls := ⟨p, .ok a⟩ :: rest.calls } := by
  constructor
  · simp
  · intro i c hc
    cases i with
    | zero =>
      obtain rfl : ⟨p, .ok a⟩ = c := by simpa using hc
      exact ha.symm
    | succ i =>
      have hi := h.answered i c (by simpa using hc)
      rwa [Nat.add_right_comm] at hi
  · intro e
    show rest.outcome = .error e ↔ _
    rw [h.error_iff]
    constructor
    · rintro ⟨before, p', hcalls⟩
      exact ⟨⟨p, .ok a⟩ :: before, p', by rw [hcalls, List.cons_append]⟩
    · rintro ⟨before, p', hcalls⟩
      cases before with
      | nil =>
        -- the first call did not fail
        have hfirst : (⟨p, .ok a⟩ : Call R) = ⟨p', .error e⟩ := (List.cons.inj hcalls).1
        cases congrArg Call.answer hfirst
      | cons c before => exact ⟨before, p', (List.cons.inj hcalls).2⟩

end Run.Answered

namespace SignomialProblem

/-- A run from positive points asks its solver, and fails only as that does. -/
theorem WellFormed.iterate_answered {P : SignomialProblem ℝ} {ds : List (Declaration ℝ)}
    (hP : P.WellFormed ds) (hfull : P.solver.Full) (more k : Nat) (time : ℝ)
    {vars : List (DeclaredVariable ℝ)} (hvars : vars.map (·.toDeclaration) = ds)
    (hpos : Point.Positive (vars.map (·.current))) :
    Run.Answered P.solver k (P.iterate more k time vars) := by
  have hspec := P.pass_spec k vars
  fun_induction P.iterate more k time vars with
  | case1 more k time vars e hpass => exact absurd hpass (hP.pass_ne_refused hvars hpos e)
  | case2 more k time vars p e hpass =>
    rw [hpass] at hspec
    obtain ⟨_, _, _, he⟩ := hspec
    exact .single vars he (by simp)
  | case3 more k time vars p a s hpass =>
    rw [hpass] at hspec
    obtain ⟨_, _, _, ha, _⟩ := hspec
    exact .single vars ha (by simp)
  | case4 more k time vars p a s _ _ hpass =>
    rw [hpass] at hspec
    obtain ⟨_, _, _, ha, _⟩ := hspec
    exact .single _ ha (by simp)
  | case5 k time vars p a s settled hpass =>
    rw [hpass] at hspec
    obtain ⟨_, _, _, ha, _⟩ := hspec
    exact .single _ ha (by simp)
  | case6 k time vars p a s settled hpass _ _ _ more rest ih =>
    rw [hpass] at hspec
    obtain ⟨_, _, _, ha, _⟩ := hspec
    -- the new point is made of exponentials, so the rest of the run starts from positive points
    have hlength : s.values.length = vars.length := P.length_values_of_accepted hpass
    have hpos' : Point.Positive ((recordAll vars s.values).map (·.current)) := by
      rw [current_recordAll hlength]
      exact values_pos hfull hpass
    exact .cons ha (ih ((declarations_recordAll hlength).trans hvars) hpos'
      (P.pass_spec _ _))

end SignomialProblem

namespace Model

variable {m : Model ℝ} {w : Written ℝ}

theorem Reach.run_answered (hm : Reach Solver.Full m w) {solver : Solver ℝ}
    (hfull : solver.Full) : Run.Answered solver 0 (m.run solver) := by
  have h := hm.agrees
  cases hkind : m.kind with
  | geometric =>
    obtain ⟨forms, hforms, _⟩ := h.geometric_forms hkind
    simp only [run, hkind, runGeometric, hforms]
    refine .single m.vars rfl fun e => ?_
    cases solver 0 (Lowered.ofProblem (m.vars.map (·.toDeclaration)) forms m.objective).program <;>
      simp [Except.map]
  | signomial =>
    have hdeclared : (m.vars.map (·.ensurePoint)).map (·.toDeclaration) = w.vars := by
      simp [← h.vars, Function.comp_def]
    have hpos : Point.Positive ((m.vars.map (·.ensurePoint)).map (·.current)) := by
      simpa [Function.comp_def] using hm.positivePoints.current h.fault?
    simp only [run, hkind]
    exact (h.wellFormed solver).iterate_answered hfull _ 0 0 hdeclared hpos

/-- A solve ends with a solution if its solver always answers. -/
theorem Reach.exists_outcome (hm : Reach Solver.Full m w) {solver : Solver ℝ}
    (hfull : solver.Full) (hanswers : ∀ k p, ∃ a, solver k p = .ok a) :
    ∃ s, (m.solveWith solver).outcome = .ok s := by
  have hrun := hm.run_answered hfull
  cases houtcome : (m.solveWith solver).outcome with
  | ok s => exact ⟨s, rfl⟩
  | error e =>
    obtain ⟨before, p, hcalls⟩ := (hrun.error_iff e).mp houtcome
    have hlast := hrun.answered before.length ⟨p, .error e⟩ (by simp [hcalls])
    obtain ⟨a, ha⟩ := hanswers (0 + before.length) p
    cases hlast.trans ha

/-- Nothing is left to fail in a solve but the solver. Take any model that declarations and
earlier solves can lead to, where every solver has a value for each column whenever its answer
can be trusted, and one more solve by such a solver. The solver is asked at least once, and the
calls are what it answered, in order. The solve ends with an error exactly if the last call
does, and with the same error; so if the solver knows no other errors than those of solvers,
the solve has no other either. -/
theorem solve_error_iff (hm : Reach Solver.Full m w) (solver : Solver ℝ) (hfull : solver.Full) :
    (m.solveWith solver).calls ≠ [] ∧
      (∀ i c, (m.solveWith solver).calls[i]? = some c → c.answer = solver i c.program) ∧
      (∀ e, (m.solveWith solver).outcome = .error e ↔
        ∃ before p, (m.solveWith solver).calls = before ++ [⟨p, .error e⟩]) ∧
      ((∀ k p e, solver k p = .error e → ∃ reason, e = .solver reason) →
        ∀ e, (m.solveWith solver).outcome = .error e → ∃ reason, e = .solver reason) := by
  have h := hm.run_answered hfull
  have hanswered : ∀ i c, (m.solveWith solver).calls[i]? = some c →
      c.answer = solver i c.program := by
    intro i c hc
    simpa using h.answered i c hc
  refine ⟨h.asked, hanswered, h.error_iff, fun hsolver e he => ?_⟩
  obtain ⟨before, p, hcalls⟩ := (h.error_iff e).mp he
  have hlast := hanswered before.length ⟨p, .error e⟩ (by
    show (m.run solver).calls[before.length]? = _
    simp [hcalls])
  exact hsolver _ _ e hlast.symm

/-- A solver that says one for every column. -/
noncomputable def steadySolver : Solver ℝ := fun _ p =>
  .ok ⟨.optimal, List.replicate p.bounds.length 1, [], 0, 0⟩

theorem steadySolver_full : steadySolver.Full := by
  intro k p a ha _
  obtain rfl := Except.ok.inj ha
  simp

/-- A solver that gives up. -/
def brokenSolver : Solver ℝ := fun _ _ => .error (.solver "gave up")

/-- A signomial solve after another one asks its solver, and fails as that does. -/
theorem solve_error_iff_broken :
    (((powerModel 2 2).solveWith steadySolver).model.solveWith brokenSolver).outcome =
      .error (.solver "gave up") := by
  have hbroken : brokenSolver.Full := by
    intro k p a ha
    cases ha
  have hreach : Reach Solver.Full ((powerModel 2 2).solveWith steadySolver).model
      (leastProblem fromOne (powerBound 2 2)) :=
    .step (reach_powerModel Solver.Full two_pos (OfNat.ofNat_ne_one 2)) (.solve steadySolver_full)
  obtain ⟨hasked, hanswered, herror, _⟩ := solve_error_iff hreach brokenSolver hbroken
  refine (herror _).mpr ?_
  -- whatever the last call is, its answer is the error
  obtain ⟨before, ⟨p, answer⟩, hcalls⟩ := List.eq_nil_or_concat _ |>.resolve_left hasked
  rw [List.concat_eq_append] at hcalls
  obtain rfl : answer = .error (.solver "gave up") :=
    hanswered before.length ⟨p, answer⟩ (by rw [hcalls]; simp)
  exact ⟨before, p, hcalls⟩

end Model

end LogConvex
