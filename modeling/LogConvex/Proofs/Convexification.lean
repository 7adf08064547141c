import LogConvex.Proofs.History
import LogConvex.Proofs.Tangent

/- Successive convexification over the reals. A round replaces each true signomial
   constraint by one that is stronger everywhere and the same at the current point
   (`Constraint.approximate_spec`). So the point of an exact answer satisfies the true
   constraints, and if the current point does so already, the new one is no worse. These
   two facts carry the induction over the rounds of a run (`SignomialProblem.Descent`): the
   first makes each recorded point feasible, which the second needs in the next round. -/
namespace LogConvex

/-! ## One constraint -/

theorem Terms.Proper.divTerm {n : Nat} {p : Terms ℝ} {d : Term ℝ} (hp : Terms.Proper n p)
    (hd : 0 < d.coefficient) (hkeys : ∀ v ∈ d.exponents.keys, v.index < n) :
    Terms.Proper n (Terms.divTerm p d) := by
  intro u hu
  obtain ⟨t, ht, rfl⟩ := List.mem_map.mp hu
  constructor
  · rw [Term.coefficient_div]
    exact div_pos (hp t ht).1 hd
  · intro v hv
    rcases Term.mem_keys_div hv with hv | hv
    · exact (hp t ht).2 v hv
    · exact hkeys v hv

/-- Divided by a monomial, a sum is at most one exactly where the monomial is not below it. -/
theorem GeometricForm.holds_divTerm_iff {p : Terms ℝ} {d : Term ℝ} {y : Point ℝ} (hy : y.Positive)
    (hcp : y.Covers (Terms.occurrences p)) (hcd : y.Covers d.exponents.keys)
    (hd : 0 < d.coefficient) :
    (GeometricForm.inequality (Terms.divTerm p d)).Holds y ↔ Terms.evaluate p y ≤ d.evaluate y := by
  show Terms.evaluate (Terms.divTerm p d) y ≤ 1 ↔ _
  rw [Terms.evaluate_divTerm hy hcp hcd, div_le_one (Term.evaluate_pos hd hy hcd)]

/-- The approximation at a positive point exists. It implies the constraint at every
positive point, and the constraint implies it at its own point. -/
theorem Constraint.approximate_spec {c : Constraint ℝ} {x : Point ℝ} (hx : x.Positive)
    (hproper : Terms.Proper x.length c.form.terms)
    (hq : ∀ p q, c.form = .signomial p q → q ≠ []) :
    ∃ g, c.approximate x = .ok g ∧ Terms.Proper x.length g.terms ∧
      (∀ y : Point ℝ, y.Positive → y.length = x.length → g.Holds y → c.form.Holds y) ∧
      (c.form.Holds x → g.Holds x) := by
  unfold approximate
  cases hform : c.form with
  | geometric g =>
    rw [hform] at hproper
    exact ⟨g, rfl, hproper, fun y _ _ h => h, fun h => h⟩
  | signomial p q =>
    rw [hform] at hproper
    have hp : Terms.Proper x.length p := fun t ht => hproper t (List.mem_append_left q ht)
    have hqp : Terms.Proper x.length q := fun t ht => hproper t (List.mem_append_right p ht)
    have hne : q ≠ [] := hq p q hform
    have hqpos : ∀ t ∈ q, 0 < t.coefficient := fun t ht => (hqp t ht).1
    obtain ⟨m, hm, hcoef, hkeys, _⟩ := Terms.tangent_spec hne hqpos hx hqp.covers
    obtain ⟨htouch, hbelow⟩ := Terms.tangent_le hne hqpos hx hqp.covers hm
    have hmkeys : ∀ v ∈ m.exponents.keys, v.index < x.length :=
      fun v hv => hqp.covers v (hkeys v hv)
    -- dividing by the tangent compares the left side with it
    have hdivided : ∀ y : Point ℝ, y.Positive → y.length = x.length →
        ((GeometricForm.inequality (Terms.divTerm p m)).Holds y ↔
          Terms.evaluate p y ≤ m.evaluate y) := by
      intro y hy hlen
      have hcp : y.Covers (Terms.occurrences p) := (hlen ▸ hp).covers
      have hcm : y.Covers m.exponents.keys := fun v hv => (hmkeys v hv).trans_eq hlen.symm
      exact GeometricForm.holds_divTerm_iff hy hcp hcm hcoef
    refine ⟨.inequality (Terms.divTerm p m), ?_, hp.divTerm hcoef hmkeys,
      fun y hy hlen h => ?_, fun h => ?_⟩
    · simp only [hm, Except.map]
    · have hcq : y.Covers (Terms.occurrences q) := (hlen ▸ hqp).covers
      exact sub_nonpos.mpr (((hdivided y hy hlen).mp h).trans (hbelow y hy hcq))
    · refine (hdivided x hx rfl).mpr ?_
      rw [htouch]
      exact sub_nonpos.mp h

namespace SignomialProblem

/-! ## One round -/

/-- The problem can be convexified over the declarations: what is declared was accepted,
and every term is positive and has declared variables only. -/
structure WellFormed (P : SignomialProblem ℝ) (ds : List (Declaration ℝ)) : Prop where
  accepted : ∀ d ∈ ds, d.fault? = none
  proper : ∀ c ∈ P.constraints, Terms.Proper ds.length c.form.terms
  bounded : ∀ c ∈ P.constraints, ∀ p q, c.form = .signomial p q → q ≠ []
  objective : Objective.Proper ds.length P.objective

/-- The point obeys the declarations and satisfies the true constraints. -/
def Feasible (P : SignomialProblem ℝ) (ds : List (Declaration ℝ)) (x : Point ℝ) : Prop :=
  Declaration.AdmitsAll ds x ∧ ∀ c ∈ P.constraints, c.form.Holds x

variable {P : SignomialProblem ℝ} {ds : List (Declaration ℝ)} (hP : P.WellFormed ds)
include hP

/-- The constraints of a round: stronger than the true ones, and the same at the point
where they are taken. -/
theorem WellFormed.approximations {x : Point ℝ} (hx : x.Positive) (hlen : x.length = ds.length) :
    ∃ forms, P.constraints.mapM (Constraint.approximate x) = .ok forms ∧
      (∀ g ∈ forms, Terms.Proper ds.length g.terms) ∧
      (∀ y, Declaration.AdmitsAll ds y → (∀ g ∈ forms, g.Holds y) → P.Feasible ds y) ∧
      (P.Feasible ds x → ∀ g ∈ forms, g.Holds x) := by
  have hspec := fun c hc => Constraint.approximate_spec hx (hlen ▸ hP.proper c hc)
    (hP.bounded c hc)
  obtain ⟨forms, hforms⟩ := exists_mapM_ok (f := Constraint.approximate x)
    fun c hc => (hspec c hc).imp fun g hg => hg.1
  obtain ⟨hleft, hright⟩ := mem_of_mapM_ok hforms
  have hpair : ∀ c ∈ P.constraints, ∀ g, c.approximate x = .ok g →
      Terms.Proper x.length g.terms ∧
        (∀ y : Point ℝ, y.Positive → y.length = x.length → g.Holds y → c.form.Holds y) ∧
        (c.form.Holds x → g.Holds x) := by
    intro c hc g hcg
    obtain ⟨g', hg', hspec⟩ := hspec c hc
    obtain rfl : g' = g := Except.ok.inj (hg'.symm.trans hcg)
    exact hspec
  refine ⟨forms, hforms, fun g hg => ?_, fun y hy hholds => ⟨hy, fun c hc => ?_⟩,
    fun hfeasible g hg => ?_⟩
  · obtain ⟨c, hc, hcg⟩ := hright g hg
    exact hlen ▸ (hpair c hc g hcg).1
  · obtain ⟨g, hg, hcg⟩ := hleft c hc
    exact (hpair c hc g hcg).2.1 y (hy.pos hP.accepted) (hy.length_eq.symm.trans hlen.symm)
      (hholds g hg)
  · obtain ⟨c, hc, hcg⟩ := hright g hg
    exact (hpair c hc g hcg).2.2 (hfeasible.2 c hc)

/-- What an exact answer adds in a round. Its point is feasible, it has the value of the
objective there, and it is no worse than the current point, if that was feasible. -/
theorem WellFormed.accepted_exact {k : Nat} {vars : List (DeclaredVariable ℝ)}
    (hvars : vars.map (·.toDeclaration) = ds) (hpos : Point.Positive (vars.map (·.current)))
    {p : Program ℝ} {a : Answer ℝ} {s : Solution ℝ} {settled : Bool}
    (hpass : P.pass k vars = .accepted p a s settled) (ha : a.IsExact p) :
    P.Feasible ds s.values ∧ a.objective = Objective.logValue s.values P.objective ∧
      (P.Feasible ds (vars.map (·.current)) →
        Objective.logValue s.values P.objective ≤
          Objective.logValue (vars.map (·.current)) P.objective) := by
  have hlength : vars.length = ds.length := by rw [← hvars, List.length_map]
  obtain ⟨forms, hforms, hproper, hstronger, hsame⟩ :=
    hP.approximations hpos (by simpa using hlength)
  have hspec := P.pass_spec k vars
  rw [hpass] at hspec
  obtain ⟨forms', hforms', rfl, _, hs, _⟩ := hspec
  obtain rfl : forms = forms' := Except.ok.inj (hforms.symm.trans hforms')
  -- the round solves exactly the problem of the approximations
  rw [lowered, hvars] at ha
  rw [lowered, hvars, hlength] at hs
  obtain ⟨hx, hg, hobjective, _, hbest⟩ :=
    Lowered.ofAnswer_exact hP.accepted hproper hP.objective ha hs
  refine ⟨hstronger _ hx hg, hobjective, fun hcurrent => ?_⟩
  exact hbest _ hcurrent.1 (hsame hcurrent)

/-- A round at a positive point is never refused. -/
theorem WellFormed.pass_ne_refused {k : Nat} {vars : List (DeclaredVariable ℝ)}
    (hvars : vars.map (·.toDeclaration) = ds) (hpos : Point.Positive (vars.map (·.current)))
    (e : Error ℝ) : P.pass k vars ≠ .refused e := by
  intro hpass
  obtain ⟨forms, hforms, _⟩ := hP.approximations hpos (by simp [← hvars])
  have hspec := P.pass_spec k vars
  rw [hpass, hforms] at hspec
  cases hspec

omit hP

/-! ## Whole runs -/

/-- What a run does whose answers are exact: it records feasible points, one for each
answer and with its value, none worse than those before it, and reports the last one. -/
structure Descent (P : SignomialProblem ℝ) (ds : List (Declaration ℝ))
    (start : List (DeclaredVariable ℝ)) (run : Run ℝ) (xs : List (Point ℝ)) : Prop where
  recorded : run.vars = xs.foldl recordAll start
  feasible : ∀ x ∈ xs, P.Feasible ds x
  answered : List.Forall₂ (fun x c => ∃ a, c.answer = .ok a ∧
    a.objective = Objective.logValue x P.objective) xs run.calls
  descending : xs.Pairwise fun x y =>
    Objective.logValue y P.objective ≤ Objective.logValue x P.objective
  reported : ∃ s, run.outcome = .ok s ∧ xs.getLast? = some s.values

namespace Descent

variable {start : List (DeclaredVariable ℝ)} {x : Point ℝ} {p : Program ℝ} {a : Answer ℝ}
  (hx : P.Feasible ds x) (ha : a.objective = Objective.logValue x P.objective)
include hx ha

/-- A run of one round. -/
theorem single {s : Solution ℝ} (hs : s.values = x) :
    Descent P ds start ⟨recordAll start x, [⟨p, .ok a⟩], .ok s⟩ [x] where
  recorded := rfl
  feasible := by simpa using hx
  answered := .cons ⟨a, rfl, ha⟩ .nil
  descending := List.pairwise_singleton _ x
  reported := ⟨s, rfl, by simp [hs]⟩

/-- One more round before the others. -/
theorem cons {rest : Run ℝ} {xs : List (Point ℝ)}
    (hrest : Descent P ds (recordAll start x) rest xs)
    (hbelow : ∀ y ∈ xs, Objective.logValue y P.objective ≤ Objective.logValue x P.objective) :
    Descent P ds start { rest with calls := ⟨p, .ok a⟩ :: rest.calls } (x :: xs) where
  recorded := hrest.recorded
  feasible := List.forall_mem_cons.mpr ⟨hx, hrest.feasible⟩
  answered := .cons ⟨a, rfl, ha⟩ hrest.answered
  descending := List.pairwise_cons.mpr ⟨hbelow, hrest.descending⟩
  reported := by
    obtain ⟨s, hs, hlast⟩ := hrest.reported
    refine ⟨s, hs, ?_⟩
    rw [List.getLast?_cons, hlast, Option.getD_some]

end Descent

include hP

/-- A run from positive points with exact answers descends. If the current point is
feasible, no recorded point is worse than it. -/
theorem WellFormed.iterate_descends (more k : Nat) (time : ℝ) {vars : List (DeclaredVariable ℝ)}
    (hvars : vars.map (·.toDeclaration) = ds) (hpos : Point.Positive (vars.map (·.current)))
    (hexact : ∀ c ∈ (P.iterate more k time vars).calls, ∃ a, c.answer = .ok a ∧
      a.IsExact c.program) :
    ∃ xs, Descent P ds vars (P.iterate more k time vars) xs ∧
      (P.Feasible ds (vars.map (·.current)) → ∀ x ∈ xs,
        Objective.logValue x P.objective ≤
          Objective.logValue (vars.map (·.current)) P.objective) := by
  fun_induction P.iterate more k time vars with
  | case1 more k time vars e hpass => exact absurd hpass (hP.pass_ne_refused hvars hpos e)
  | case2 more k time vars p e hpass =>
    obtain ⟨a, ha, _⟩ := hexact _ List.mem_cons_self
    cases ha
  | case3 more k time vars p a s hpass =>
    -- an exact answer says that it is optimal, so it is not rejected
    obtain ⟨_, ha, hexact⟩ := hexact _ List.mem_cons_self
    cases ha
    have hspec := P.pass_spec k vars
    rw [hpass] at hspec
    obtain ⟨_, _, _, _, _, hstatus⟩ := hspec
    rw [hexact.status] at hstatus
    cases hstatus
  | case4 more k time vars p a s _ _ hpass =>
    obtain ⟨_, ha, hexact⟩ := hexact _ List.mem_cons_self
    cases ha
    obtain ⟨hx, hobjective, hbelow⟩ := hP.accepted_exact hvars hpos hpass hexact
    exact ⟨[s.values], .single hx hobjective rfl, fun hcurrent => by simpa using hbelow hcurrent⟩
  | case5 k time vars p a s settled hpass =>
    obtain ⟨_, ha, hexact⟩ := hexact _ List.mem_cons_self
    cases ha
    obtain ⟨hx, hobjective, hbelow⟩ := hP.accepted_exact hvars hpos hpass hexact
    exact ⟨[s.values], .single hx hobjective rfl, fun hcurrent => by simpa using hbelow hcurrent⟩
  | case6 k time vars p a s settled hpass _ _ _ more rest ih =>
    -- the new point is feasible, which is what the rest of the run has to start from
    obtain ⟨⟨_, ha, hexact⟩, hexacts⟩ := List.forall_mem_cons.mp hexact
    cases ha
    obtain ⟨hx, hobjective, hbelow⟩ := hP.accepted_exact hvars hpos hpass hexact
    have hlength : s.values.length = vars.length := P.length_values_of_accepted hpass
    have hcurrent : (recordAll vars s.values).map (·.current) = s.values :=
      current_recordAll hlength
    have hpos' : Point.Positive ((recordAll vars s.values).map (·.current)) := by
      rw [hcurrent]
      exact hx.1.pos hP.accepted
    obtain ⟨xs, hrest, hafter⟩ := ih ((declarations_recordAll hlength).trans hvars) hpos' hexacts
    rw [hcurrent] at hafter
    refine ⟨s.values :: xs, .cons hx hobjective hrest (hafter hx), fun hstart => ?_⟩
    rw [List.forall_mem_cons]
    exact ⟨hbelow hstart, fun y hy => (hafter hx y hy).trans (hbelow hstart)⟩

end SignomialProblem

/-! ## Models -/

namespace Model

variable {m : Model ℝ} {w : Written ℝ}

theorem Agrees.wellFormed (h : m.Agrees w) (solver : Solver ℝ) :
    (m.signomialProblem solver).WellFormed w.vars where
  accepted := h.accepted
  proper := h.proper_form
  bounded := by
    rintro c hc p q hform rfl
    exact absurd (Relation.two_le_of_normalize (h.normal c hc) hform) (by simp)
  objective := h.proper_objective

/-- Successive convexification is a feasible descent. Take any model that declarations and
earlier solves can lead to, and a solve whose every subproblem is answered by an exact
optimum. The solve succeeds, and what it records after the starting points are the answers,
one point for each. Every recorded point obeys the declarations and satisfies the relations
as they were written, though only approximations were solved; each answer claims the value
of the goal at its point; and no point is worse than one before it. -/
theorem solve_signomial_descends (hm : Reach Solver.Full m w) (hkind : m.kind = .signomial)
    (solver : Solver ℝ) (hexact : ∀ c ∈ (m.solveWith solver).calls,
      ∃ a, c.answer = .ok a ∧ a.IsExact c.program) :
    ∃ xs : List (Point ℝ),
      (m.solveWith solver).model.vars = xs.foldl recordAll (m.vars.map (·.ensurePoint)) ∧
      (∀ x ∈ xs, w.Admits x) ∧
      List.Forall₂ (fun x c => ∃ a, c.answer = .ok a ∧ w.claimed a = w.value x)
        xs (m.solveWith solver).calls ∧
      xs.Pairwise (fun x y => w.NoWorse y x) ∧
      ∃ s, (m.solveWith solver).outcome = .ok s ∧ xs.getLast? = some s.values := by
  have h := hm.agrees
  have hrun : m.run solver = (m.signomialProblem solver).run m.vars := by
    simp only [run, hkind]
  have hstart : (m.vars.map (·.ensurePoint)).map (·.toDeclaration) = w.vars := by
    rw [← h.vars]
    simp [Function.comp_def]
  have hfault : ∀ v ∈ m.vars.map (·.ensurePoint), v.fault? = none := by
    intro v hv
    exact h.accepted v.toDeclaration (hstart ▸ List.mem_map_of_mem hv)
  have hpos : Point.Positive ((m.vars.map (·.ensurePoint)).map (·.current)) :=
    (hm.positivePoints.ensurePoint h.fault?).current hfault
  -- from here on only the run matters
  simp only [solveWith, hrun] at hexact ⊢
  obtain ⟨xs, hxs, _⟩ := (h.wellFormed solver).iterate_descends _ 0 0 hstart hpos hexact
  have hadmits : ∀ x ∈ xs, w.Admits x := fun x hx => h.admits_iff.mpr (hxs.feasible x hx)
  refine ⟨xs, hxs.recorded, hadmits, ?_, ?_, hxs.reported⟩
  · have hanswered := (List.forall₂_and_left _ _).mpr ⟨hadmits, hxs.answered⟩
    refine hanswered.imp fun x c hc => ?_
    obtain ⟨hx, a, ha, hobjective⟩ := hc
    exact ⟨a, ha, h.claimed_eq hx.1 hobjective⟩
  · refine hxs.descending.imp_of_mem fun hx hy hle => ?_
    exact (h.noWorse_iff (hadmits _ hy).1 (hadmits _ hx).1).mpr hle

/-- The relation `c ≤ x + x ^ e`. -/
noncomputable def powerBound (c e : ℝ) : Relation ℝ where
  lhs := .monomial (.constant c)
  sense := .atMost
  rhs := .posynomial [⟨1, .single ⟨0, 0⟩ 1⟩, ⟨1, .single ⟨0, 0⟩ e⟩]

/-- Its canonical form, which is not geometric. -/
noncomputable def powerForm (c e : ℝ) : Canonical ℝ :=
  ⟨.signomial [.constant c] [⟨1, .single ⟨0, 0⟩ 1⟩, ⟨1, .single ⟨0, 0⟩ e⟩], false⟩

theorem normalize_powerBound {c e : ℝ} (hc : 0 < c) (he : e ≠ 1) :
    (powerBound c e).normalize true = .ok (powerForm c e) := by
  have hempty : ∀ e' : ℝ, ((.empty : Sparse Variable ℝ) == .single ⟨0, 0⟩ e') = false :=
    fun _ => rfl
  have hsingle : ((.single ⟨0, 0⟩ 1 : Sparse Variable ℝ) == .single ⟨0, 0⟩ e) = false := by
    rw [Bool.eq_false_iff]
    intro h
    have heq := Sparse.eq_of_beq h
    simp only [Sparse.single, Sparse.mk.injEq, List.cons.injEq, Prod.mk.injEq, true_and,
      and_true] at heq
    exact he heq.symm
  have hdifference : (powerBound c e).difference.terms? =
      some [.constant c, ⟨-1, .single ⟨0, 0⟩ 1⟩, ⟨-1, .single ⟨0, 0⟩ e⟩] := by
    rw [Relation.difference, powerBound, Expr.terms?_sub rfl rfl]
    simp [Terms.neg, Term.neg, Term.scale]
  have hsplit : Terms.split [.constant c, ⟨-1, .single ⟨0, 0⟩ 1⟩, ⟨-1, .single ⟨0, 0⟩ e⟩] =
      (.ok ([.constant c], [⟨1, .single ⟨0, 0⟩ 1⟩, ⟨1, .single ⟨0, 0⟩ e⟩]) :
        Except (Error ℝ) (Terms ℝ × Terms ℝ)) := by
    simp [Terms.split_eq, Terms.combine, Terms.merge, Term.constant, hempty, hsingle,
      Terms.positivePart, Terms.negativePart, Term.neg, Term.scale, hc]
  have hl : (powerBound c e).lhs.terms? = some [.constant c] := rfl
  have hr : (powerBound c e).rhs.terms? =
      some [⟨1, .single ⟨0, 0⟩ 1⟩, ⟨1, .single ⟨0, 0⟩ e⟩] := rfl
  have hs : (powerBound c e).support.isEmpty = false := rfl
  have hz : (List.all [(⟨1, .single ⟨0, 0⟩ 1⟩ : Term ℝ), ⟨1, .single ⟨0, 0⟩ e⟩]
      fun t => t.coefficient == 0) = false := by simp
  simp only [Relation.normalize, hl, hr, hdifference, hs, hz, hsplit, Option.getD_some]
  rfl

/-- A variable that is at least one, and starts there. -/
noncomputable def fromOne : Declaration ℝ := ⟨"x", some 1, none, none, none⟩

/-- The model of the least `x` that a power bound allows, to be solved in one round. -/
noncomputable def powerModel (c e : ℝ) : Model ℝ :=
  { leastModel .signomial fromOne (powerBound c e) (powerForm c e) with tolerances := ⟨1, 0, 0⟩ }

theorem reach_powerModel (A : Solver ℝ → Prop) {c e : ℝ} (hc : 0 < c) (he : e ≠ 1) :
    Reach A (powerModel c e) (leastProblem fromOne (powerBound c e)) := by
  have hsupport : (powerBound c e).support = [⟨0, 0⟩] := rfl
  have hfault : fromOne.fault? = none := by
    simp [fromOne, Declaration.fault?, Declaration.given, Declaration.isAdmissible]
  exact .step (reach_leastModel A hfault (by simp [hsupport]) (normalize_powerBound hc he))
    (.setTolerances ⟨1, 0, 0⟩)

/-! ## A run of two rounds -/

/-- A variable that is at least `l`, and starts at one. -/
noncomputable def downFromOne (l : ℝ) : Declaration ℝ := ⟨"x", some l, none, none, some 1⟩

theorem fault?_downFromOne {l : ℝ} (hl : 0 < l) : (downFromOne l).fault? = none := by
  simp [downFromOne, Declaration.fault?, Declaration.given, Declaration.isAdmissible, hl]

theorem admits_downFromOne {l b : ℝ} : (downFromOne l).Admits b ↔ l ≤ b := by
  simp [downFromOne, Declaration.Admits, Declaration.effectiveLower, Declaration.effectiveUpper]

/-- The model of the least `x` above `l` with `c ≤ x + x ^ e`, to be solved in two rounds. -/
noncomputable def twoRoundModel (l c e : ℝ) : Model ℝ :=
  { leastModel .signomial (downFromOne l) (powerBound c e) (powerForm c e) with
    tolerances := ⟨2, 0, 0⟩ }

theorem reach_twoRoundModel (A : Solver ℝ → Prop) {l c e : ℝ} (hl : 0 < l) (hc : 0 < c)
    (he : e ≠ 1) :
    Reach A (twoRoundModel l c e) (leastProblem (downFromOne l) (powerBound c e)) := by
  have hsupport : (powerBound c e).support = [⟨0, 0⟩] := rfl
  exact .step (reach_leastModel A (fault?_downFromOne hl) (by simp [hsupport])
    (normalize_powerBound hc he)) (.setTolerances ⟨2, 0, 0⟩)

/-- The right side of a power bound. -/
noncomputable def powerSum (e : ℝ) : Terms ℝ := [⟨1, .single ⟨0, 0⟩ 1⟩, ⟨1, .single ⟨0, 0⟩ e⟩]

/-- Its tangent at a point of one coordinate. -/
theorem exists_tangent_powerSum (e : ℝ) {b : ℝ} (hb : 0 < b) :
    ∃ d, Terms.tangent (powerSum e) [b] = .ok d ∧ 0 < d.coefficient ∧
      (∀ v ∈ d.exponents.keys, v.index < 1) ∧
      ∀ y : ℝ, 0 < y → d.evaluate [y] = (b + b ^ e) *
        Real.exp ((b + b ^ e * e) / (b + b ^ e) * (Real.log y - Real.log b)) := by
  have hpositive : ∀ y : ℝ, 0 < y → Point.Positive [y] := by simp [Point.Positive]
  have hcovers : ∀ y : ℝ, Point.Covers [y] (Terms.occurrences (powerSum e)) := by
    simp [powerSum, Point.Covers, Terms.occurrences, Sparse.keys, Sparse.single]
  have hsum : Terms.evaluate (powerSum e) [b] = b + b ^ e := by
    simp [powerSum, Terms.evaluate, Term.evaluate_single]
  have hne : powerSum e ≠ [] := List.cons_ne_nil _ _
  obtain ⟨d, hd, hcoef, hkeys, hvalue⟩ :=
    Terms.tangent_spec hne (by simp [powerSum]) (hpositive b hb) (hcovers b)
  refine ⟨d, hd, hcoef, fun v hv => hcovers b v (hkeys v hv), fun y hy => ?_⟩
  have hmean : Terms.meanStep (powerSum e) [b] [y] =
      (b + b ^ e * e) / (b + b ^ e) * (Real.log y - Real.log b) := by
    rw [Terms.meanStep, hsum]
    simp [powerSum, Term.evaluate_single, Term.logStep_single]
    ring
  rw [hvalue _ (hpositive y hy) (hcovers y), hsum, hmean]

/-- The approximation of a power bound at a point compares its left side with the tangent. -/
theorem exists_approximate_powerForm {c e b : ℝ} (r : Relation ℝ) (hc : 0 < c) (hb : 0 < b) :
    ∃ g, Constraint.approximate [b] ⟨powerForm c e, r, none⟩ = .ok g ∧ Terms.Proper 1 g.terms ∧
      ∀ y : ℝ, 0 < y → (g.Holds [y] ↔ c ≤ (b + b ^ e) *
        Real.exp ((b + b ^ e * e) / (b + b ^ e) * (Real.log y - Real.log b))) := by
  obtain ⟨d, hd, hcoef, hkeys, hvalue⟩ := exists_tangent_powerSum e hb
  have hconstant : Terms.Proper 1 [(.constant c : Term ℝ)] := by
    simp [Terms.Proper, Term.constant, Sparse.keys, Sparse.empty, hc]
  refine ⟨.inequality (Terms.divTerm [.constant c] d), ?_, hconstant.divTerm hcoef hkeys,
    fun y hy => ?_⟩
  · show (Terms.tangent (powerSum e) [b]).map _ = _
    rw [hd]
    rfl
  · have hleft : Terms.evaluate [(.constant c : Term ℝ)] [y] = c := by
      simp [Terms.evaluate, Term.evaluate_constant]
    rw [GeometricForm.holds_divTerm_iff (by simpa [Point.Positive] using hy)
      (Terms.Proper.covers (x := [y]) hconstant) hkeys hcoef, hleft, hvalue y hy]

/-- Without a tolerance, a step of one coordinate settles exactly if it goes nowhere. -/
theorem settles_single_iff {P : SignomialProblem ℝ}
    (hsignomial : P.constraints.any Constraint.isSignomial = true)
    (htolerances : P.tolerances.relative = 0 ∧ P.tolerances.absolute = 0) {a b : ℝ} (hb : 0 < b) :
    P.settles [a] [b] = true ↔ b = a := by
  have hquotient : |b - a| / |b| ≤ 0 ↔ |b - a| ≤ 0 := by
    rw [div_le_iff₀ (abs_pos.mpr hb.ne'), zero_mul]
  rw [SignomialProblem.settles, hsignomial, htolerances.1, htolerances.2, List.zipWith_cons_cons,
    List.zipWith_nil_left, Scalar.norm_singleton, Scalar.norm_singleton]
  simp [hquotient, sub_eq_zero]

/-- The calls of two rounds, the first of which moves to another point. -/
theorem calls_twoRoundModel {l c e b : ℝ} (hb : 0 < b) (hne : b ≠ 1) {g₀ g₁ : GeometricForm ℝ}
    (hg₀ : Constraint.approximate [1] ⟨powerForm c e, powerBound c e, none⟩ = .ok g₀)
    (hg₁ : Constraint.approximate [b] ⟨powerForm c e, powerBound c e, none⟩ = .ok g₁)
    (a₀ a₁ : Answer ℝ) (hstatus : a₀.status.isAcceptable = true)
    (ha₀ : a₀.primal = Lowered.columnsOf [g₀] (some leastObjective) [b]) :
    ((twoRoundModel l c e).solveWith (.replay [.ok a₀, .ok a₁])).calls =
      [⟨(Lowered.ofProblem [downFromOne l] [g₀] (some leastObjective)).program, .ok a₀⟩,
        ⟨(Lowered.ofProblem [downFromOne l] [g₁] (some leastObjective)).program, .ok a₁⟩] := by
  let P := (twoRoundModel l c e).signomialProblem (.replay [.ok a₀, .ok a₁])
  let start := (twoRoundModel l c e).vars.map (·.ensurePoint)
  have hstart : start.map (·.current) = [1] := rfl
  have hdeclared : start.map (·.toDeclaration) = [downFromOne l] := rfl
  have hfirst : P.constraints.mapM (Constraint.approximate (start.map (·.current))) =
      .ok [g₀] := by
    rw [hstart]
    exact mapM_eq_ok_iff.mpr (.cons hg₀ .nil)
  have hsecond : P.constraints.mapM (Constraint.approximate
      ((recordAll start [b]).map (·.current))) = .ok [g₁] := by
    rw [current_recordAll rfl]
    exact mapM_eq_ok_iff.mpr (.cons hg₁ .nil)
  have hunsettled : P.settles (start.map (·.current)) [b] = false := by
    rw [hstart, Bool.eq_false_iff, ne_eq, settles_single_iff rfl ⟨rfl, rfl⟩ hb]
    exact hne
  have hcalls := P.iterate_succ_calls 0 0 0 hfirst rfl hstatus
    (Lowered.values_of_columnsOf _ _ _ (by simpa [Point.Positive] using hb) rfl _ ha₀) hunsettled
  have hanswer : P.solver (0 + 1) (P.lowered (recordAll start [b]) [g₁]).program = .ok a₁ := rfl
  rw [P.iterate_zero_calls hsecond, hanswer, SignomialProblem.lowered, SignomialProblem.lowered,
    declarations_recordAll rfl, hdeclared] at hcalls
  exact hcalls

/-- A point that a least problem admits has its value as its only coordinate. -/
theorem eq_of_admits_leastProblem {d : Declaration ℝ} {r : Relation ℝ} {x : Point ℝ}
    (hx : (leastProblem d r).Admits x) : x = [(leastProblem d r).value x] := by
  obtain ⟨hdeclared, -⟩ := hx
  obtain _ | ⟨_, hnil⟩ := hdeclared
  cases hnil
  simp [leastProblem, Written.value, Expr.evaluate, Term.evaluate_single]

/-- The answer with the columns of the least value `b`. -/
noncomputable def leastAnswer (g : GeometricForm ℝ) (b : ℝ) : Answer ℝ :=
  ⟨.optimal, Lowered.columnsOf [g] (some leastObjective) [b], [], Real.log b, 0⟩

/-- An admitted point at which such an answer claims the value of the goal is that value. -/
theorem eq_of_claimed_leastAnswer {d : Declaration ℝ} {r : Relation ℝ} {g : GeometricForm ℝ} {b : ℝ}
    (hb : 0 < b) {x : Point ℝ} (hx : (leastProblem d r).Admits x)
    (h : (leastProblem d r).claimed (leastAnswer g b) = (leastProblem d r).value x) : x = [b] := by
  have hclaimed : (leastProblem d r).claimed (leastAnswer g b) = b := Real.exp_log hb
  rw [eq_of_admits_leastProblem hx, ← h, hclaimed]

/-- The tangent to `x + x ^ 3` at one is the square, doubled, so one half is the least value with
a tangent of one half. -/
theorem exists_round_one : ∃ g,
    Constraint.approximate [1] ⟨powerForm (1 / 2) 3, powerBound (1 / 2) 3, none⟩ = .ok g ∧
      (leastAnswer g (1 / 2)).IsExact
        (Lowered.ofProblem [downFromOne (9 / 20)] [g] (some leastObjective)).program := by
  obtain ⟨g, hg, hproper, hholds⟩ := exists_approximate_powerForm (c := 1 / 2) (e := 3)
    (powerBound (1 / 2) 3) (by norm_num) one_pos
  have hsquare : ∀ y : ℝ, 0 < y → (g.Holds [y] ↔ 1 / 2 ≤ 2 * y ^ 2) := by
    intro y hy
    have hpower : Real.exp (2 * Real.log y) = y ^ 2 := by
      rw [← Real.exp_log (pow_pos hy 2), Real.log_pow, Nat.cast_ofNat]
    rw [hholds y hy, Real.one_rpow, Real.log_one, sub_zero, ← hpower]
    norm_num
  refine ⟨g, hg, isExact_least _ [g] (1 / 2) (fault?_downFromOne (by norm_num))
    (by simpa using hproper) (admits_downFromOne.mpr (by norm_num)) ?_ fun b hb _ h => ?_⟩
  · rw [List.forall_mem_singleton, hsquare _ (by norm_num)]
    norm_num
  · have hbound := (hsquare b hb).mp (h g List.mem_cons_self)
    nlinarith

/-- The tangent at one half is above one half at the least value that is declared. -/
theorem exists_round_half : ∃ g,
    Constraint.approximate [1 / 2] ⟨powerForm (1 / 2) 3, powerBound (1 / 2) 3, none⟩ = .ok g ∧
      (leastAnswer g (9 / 20)).IsExact
        (Lowered.ofProblem [downFromOne (9 / 20)] [g] (some leastObjective)).program := by
  obtain ⟨g, hg, hproper, hholds⟩ := exists_approximate_powerForm (c := 1 / 2) (e := 3)
    (b := 1 / 2) (powerBound (1 / 2) 3) (by norm_num) (by norm_num)
  refine ⟨g, hg, isExact_least _ [g] (9 / 20) (fault?_downFromOne (by norm_num))
    (by simpa using hproper) (admits_downFromOne.mpr le_rfl) ?_
    fun b _ hb _ => admits_downFromOne.mp hb⟩
  have hcube : (1 / 2 : ℝ) ^ (3 : ℝ) = 1 / 8 := by
    rw [Real.rpow_ofNat]
    norm_num
  have hlog : -(1 / 9) ≤ Real.log (9 / 20) - Real.log (1 / 2) := by
    have hratio : (9 / 20 : ℝ) / (1 / 2) = 9 / 10 := by norm_num
    rw [← Real.log_div (by norm_num) (by norm_num), hratio]
    refine le_trans (by norm_num) (Real.one_sub_inv_le_log_of_pos (x := 9 / 10) (by norm_num))
  rw [List.forall_mem_singleton, hholds _ (by norm_num), hcube]
  have hline := Real.add_one_le_exp
    ((1 / 2 + 1 / 8 * 3) / (1 / 2 + 1 / 8) * (Real.log (9 / 20) - Real.log (1 / 2)))
  linarith

/-- From one, the first program is least at one half; from there, the second allows the least
value that is declared. Both points are admitted, and the second is the better one. -/
theorem solve_signomial_descends_twoRoundModel : ∃ solver : Solver ℝ,
    ((twoRoundModel (9 / 20) (1 / 2) 3).solveWith solver).model.vars.map (·.points) =
      [[1, 1 / 2, 9 / 20]] ∧
    (leastProblem (downFromOne (9 / 20)) (powerBound (1 / 2) 3)).Admits [1 / 2] ∧
    (leastProblem (downFromOne (9 / 20)) (powerBound (1 / 2) 3)).Admits [9 / 20] ∧
    (leastProblem (downFromOne (9 / 20)) (powerBound (1 / 2) 3)).NoWorse [9 / 20] [1 / 2] := by
  have hreach : Reach Solver.Full (twoRoundModel (9 / 20) (1 / 2) 3)
      (leastProblem (downFromOne (9 / 20)) (powerBound (1 / 2) 3)) :=
    reach_twoRoundModel _ (by norm_num) (by norm_num) (by norm_num)
  obtain ⟨g₀, hg₀, hexact₀⟩ := exists_round_one
  obtain ⟨g₁, hg₁, hexact₁⟩ := exists_round_half
  have hcalls := calls_twoRoundModel (l := 9 / 20) (b := 1 / 2) (by norm_num) (by norm_num) hg₀
    hg₁ (leastAnswer g₀ (1 / 2)) (leastAnswer g₁ (9 / 20)) rfl rfl
  refine ⟨.replay [.ok (leastAnswer g₀ (1 / 2)), .ok (leastAnswer g₁ (9 / 20))], ?_⟩
  obtain ⟨xs, hrecorded, hadmits, hanswered, hdescending, -⟩ :=
    solve_signomial_descends hreach rfl
      (.replay [.ok (leastAnswer g₀ (1 / 2)), .ok (leastAnswer g₁ (9 / 20))]) (by
        rw [hcalls, List.forall_mem_cons, List.forall_mem_singleton]
        exact ⟨⟨_, rfl, hexact₀⟩, _, rfl, hexact₁⟩)
  -- the points are what the answers claim
  rw [hcalls] at hanswered
  obtain ⟨x₀, rest, ⟨_, ha₀, hvalue₀⟩, hrest, rfl⟩ := List.forall₂_cons_right_iff.mp hanswered
  obtain ⟨x₁, _, ⟨_, ha₁, hvalue₁⟩, hnil, rfl⟩ := List.forall₂_cons_right_iff.mp hrest
  cases hnil
  cases ha₀
  cases ha₁
  have hx₀ := hadmits x₀ List.mem_cons_self
  have hx₁ := hadmits x₁ (List.mem_cons_of_mem _ List.mem_cons_self)
  obtain rfl : x₀ = [1 / 2] := eq_of_claimed_leastAnswer (by norm_num) hx₀ hvalue₀
  obtain rfl : x₁ = [9 / 20] := eq_of_claimed_leastAnswer (by norm_num) hx₁ hvalue₁
  refine ⟨?_, hx₀, hx₁, List.rel_of_pairwise_cons hdescending List.mem_cons_self⟩
  rw [hrecorded]
  rfl

end Model

end LogConvex
