import LogConvex.Proofs.History

/- Geometric solves from end to end. A geometric model asks its solver about one program.
   That program has allowed columns exactly if the problem, as it was written, has admitted
   points; and if the solver answers with an exact optimum, the solve ends with a best
   point of the problem and its value (`Model.solve_geometric_exact`). -/
namespace LogConvex

theorem Constraint.geometric_eq_ok_iff {R : Type} {c : Constraint R} {g : GeometricForm R} :
    c.geometric = .ok g ↔ c.form = .geometric g := by
  unfold geometric
  cases c.form with
  | geometric g' => simp [Form.geometric?]
  | signomial p q => simp [Form.geometric?, Relation.refuse]

namespace Model

/-- A geometric model asks once, and reads the answer back. -/
theorem solveWith_geometric {R : Type} [Scalar R] {m : Model R} (hkind : m.kind = .geometric)
    {forms : List (GeometricForm R)} (hforms : m.constraints.mapM (·.geometric) = .ok forms)
    (solver : Solver R) {l : Lowered R}
    (hl : l = .ofProblem (m.vars.map (·.toDeclaration)) forms m.objective) :
    (m.solveWith solver).calls = [⟨l.program, solver 0 l.program⟩] ∧
      (m.solveWith solver).outcome = (solver 0 l.program).map
        (.ofAnswer l m.vars.length (m.constraints.map (·.negateDual))) := by
  subst hl
  constructor
  · simp only [solveWith, run, hkind, runGeometric, hforms]
  · simp only [solveWith, run, hkind, runGeometric, hforms]

variable {m : Model ℝ} {w : Written ℝ}

/-- Every constraint of a geometric model has a geometric form, and these forms stand for
the constraints. -/
theorem Agrees.geometric_forms (h : m.Agrees w) (hkind : m.kind = .geometric) :
    ∃ forms, m.constraints.mapM (·.geometric) = .ok forms ∧
      (∀ g ∈ forms, Terms.Proper w.vars.length g.terms) ∧
      ∀ x, (∀ g ∈ forms, g.Holds x) ↔ ∀ c ∈ m.constraints, c.form.Holds x := by
  have hgeometric : ∀ c ∈ m.constraints, ∃ g, c.geometric = .ok g := by
    intro c hc
    have hnormal := h.normal c hc
    rw [hkind] at hnormal
    obtain ⟨g, hg⟩ := Relation.geometric_of_normalize hnormal
    exact ⟨g, Constraint.geometric_eq_ok_iff.mpr hg⟩
  obtain ⟨forms, hforms⟩ := exists_mapM_ok hgeometric
  obtain ⟨hleft, hright⟩ := mem_of_mapM_ok hforms
  refine ⟨forms, hforms, fun g hg => ?_, fun x => ⟨fun hx c hc => ?_, fun hx g hg => ?_⟩⟩
  · obtain ⟨c, hc, hcg⟩ := hright g hg
    have hproper := h.proper_form c hc
    rwa [Constraint.geometric_eq_ok_iff.mp hcg] at hproper
  · obtain ⟨g, hg, hcg⟩ := hleft c hc
    rw [Constraint.geometric_eq_ok_iff.mp hcg]
    exact hx g hg
  · obtain ⟨c, hc, hcg⟩ := hright g hg
    have hholds := hx c hc
    rwa [Constraint.geometric_eq_ok_iff.mp hcg] at hholds

/-- A geometric solve is exact if its solver is. Whatever the history of the model, there
is one program, which has allowed columns exactly if the problem has admitted points. If
the answer is an exact optimum, the solve succeeds; its values obey every declaration and
satisfy every relation as it was written, its objective is the goal at these values, and
the goal prefers no admitted point to them. -/
theorem solve_geometric_exact (hm : Reach (fun _ => True) m w) (hkind : m.kind = .geometric) :
    ∃ p : Program ℝ, (∀ solver, (m.solveWith solver).calls = [⟨p, solver 0 p⟩]) ∧
      ((∃ y, p.Feasible y) ↔ ∃ x, w.Admits x) ∧
      ∀ (solver : Solver ℝ) (a : Answer ℝ), solver 0 p = .ok a → a.IsExact p →
        ∃ s, (m.solveWith solver).outcome = .ok s ∧ w.Admits s.values ∧
          s.objective = w.value s.values ∧ ∀ x, w.Admits x → w.NoWorse s.values x := by
  have h := hm.agrees
  obtain ⟨forms, hforms, hproper, hholds⟩ := h.geometric_forms hkind
  have hadmits : ∀ x, w.Admits x ↔
      Declaration.AdmitsAll w.vars x ∧ ∀ g ∈ forms, g.Holds x := by
    intro x
    rw [h.admits_iff, hholds]
  have hlowered : Lowered.ofProblem w.vars forms m.objective =
      .ofProblem (m.vars.map (·.toDeclaration)) forms m.objective := by rw [h.vars]
  refine ⟨(Lowered.ofProblem w.vars forms m.objective).program, fun solver => ?_, ?_, ?_⟩
  · exact (solveWith_geometric hkind hforms solver hlowered).1
  · simp only [hadmits]
    exact Lowered.ofProblem_feasible_iff h.accepted hproper h.proper_objective
  · intro solver a ha hexact
    obtain ⟨_, houtcome⟩ := solveWith_geometric hkind hforms solver hlowered
    rw [ha, h.length] at houtcome
    obtain ⟨hx, hg, _, hvalue, hbest⟩ :=
      Lowered.ofAnswer_exact h.accepted hproper h.proper_objective hexact rfl
    refine ⟨_, houtcome, (hadmits _).mpr ⟨hx, hg⟩, hvalue.trans (h.value_eq _), ?_⟩
    intro x hxw
    obtain ⟨hx', hg'⟩ := (hadmits x).mp hxw
    exact (h.noWorse_iff hx hx').mpr (hbest x hx' hg')

/-- The form `c / x ≤ 1`. -/
noncomputable def inverseForm (c : ℝ) : GeometricForm ℝ := .inequality [⟨c, .single ⟨0, 0⟩ (-1)⟩]

theorem holds_inverseForm {b : ℝ} (hb : 0 < b) (c : ℝ) : (inverseForm c).Holds [b] ↔ c ≤ b := by
  have hvalue : Terms.evaluate [⟨c, .single ⟨0, 0⟩ (-1)⟩] [b] = c / b := by
    simp [Term.evaluate, Sparse.single, Point.value, Real.rpow_neg_one, div_eq_mul_inv]
  rw [inverseForm, GeometricForm.Holds, hvalue, div_le_one hb]

/-- The least value that the shifted bound allows is two, and a solver that knows its
logarithm finds a best point. -/
theorem solve_geometric_exact_shiftedBound : ∃ (solver : Solver ℝ) (s : Solution ℝ),
    ((leastModel .geometric Lowered.plain Relation.shiftedBound
      ⟨.geometric (inverseForm 2), true⟩).solveWith solver).outcome = .ok s ∧
    (leastProblem Lowered.plain Relation.shiftedBound).Admits s.values ∧
    ∀ x, (leastProblem Lowered.plain Relation.shiftedBound).Admits x →
      (leastProblem Lowered.plain Relation.shiftedBound).NoWorse s.values x := by
  have hplain : Lowered.plain.fault? = none := by
    simp [Lowered.plain, Declaration.fault?, Declaration.given]
  have hsupport : Relation.shiftedBound.support = [⟨0, 0⟩] := rfl
  have hreach : Reach (fun _ => True) (leastModel .geometric Lowered.plain Relation.shiftedBound
      ⟨.geometric (inverseForm 2), true⟩) (leastProblem Lowered.plain Relation.shiftedBound) :=
    reach_leastModel _ hplain (by simp [hsupport]) Relation.normalize_shiftedBound
  obtain ⟨p, hcalls, _, hsolve⟩ := solve_geometric_exact hreach rfl
  obtain rfl : (Lowered.ofProblem [Lowered.plain] [inverseForm 2]
      (some leastObjective)).program = p := by
    -- the program does not depend on the solver, so any solver shows which one it is
    have hcall := hcalls fun _ _ => .error .notSolved
    rw [(solveWith_geometric rfl rfl _ rfl).1] at hcall
    exact congrArg Call.program (List.singleton_inj.mp hcall)
  have hexact := isExact_least Lowered.plain [inverseForm 2] 2 hplain
    (by simp [inverseForm, GeometricForm.terms, Terms.Proper, Sparse.keys, Sparse.single])
    (by simp [Lowered.plain, Declaration.Admits, Declaration.effectiveLower,
          Declaration.effectiveUpper, Declaration.defaultLower]; norm_num)
    (by simpa using (holds_inverseForm two_pos 2).mpr le_rfl)
    (fun b hb _ h => (holds_inverseForm hb 2).mp (h _ List.mem_cons_self))
  obtain ⟨s, hs, hadmits, _, hbest⟩ := hsolve (fun _ _ => .ok _) _ rfl hexact
  exact ⟨_, s, hs, hadmits, hbest⟩

end Model

end LogConvex
