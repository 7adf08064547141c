import LogConvex.Proofs.Lowering
import LogConvex.Solution

/- Exact answers to lowered programs. An exact answer holds an optimum of the program and
   its value. Because the lowering is sound and complete, such an answer is read back as a
   point that the problem allows and that no allowed point improves on
   (`Lowered.ofProblem_optimal`), and the program has allowed columns exactly where the
   problem has allowed points. -/
namespace LogConvex

/-- The answer is an optimum of the program, with its value, and says so. -/
structure Answer.IsExact {R : Type} [Scalar R] (p : Program R) (a : Answer R) : Prop where
  status : a.status = .optimal
  optimal : p.Optimal a.primal
  objective : a.objective = p.objective.evaluate a.primal

/-- The value `a` is at least as good as the value `b`. -/
def Direction.NoWorse {R : Type} [LE R] : Direction → R → R → Prop
  | minimize, a, b => a ≤ b
  | maximize, a, b => b ≤ a

/-! ## Objectives in logarithms -/

namespace Objective

/-- The value of an objective, one if there is none. -/
noncomputable def value (x : Point ℝ) (o : Option (Objective ℝ)) : ℝ :=
  o.elim 1 (evaluate x)

theorem evaluate_pos {x : Point ℝ} (hx : x.Positive) {f : Objective ℝ}
    (hf : f.terms ≠ [] ∧ Terms.Proper x.length f.terms) : 0 < f.evaluate x := by
  have hpos : 0 < Terms.evaluate f.terms x :=
    Terms.evaluate_pos hf.1 (fun t ht => (hf.2 t ht).1) hx hf.2.covers
  cases f with
  | minimize p => exact hpos
  | maximize m => simpa [terms, evaluate] using hpos

/-- Logarithms are compared as the values are, the right way round. -/
theorem logValue_le_iff {x y : Point ℝ} (hx : x.Positive) (hy : y.Positive) {f : Objective ℝ}
    (hfx : Proper x.length (some f)) (hfy : Proper y.length (some f)) :
    logValue x (some f) ≤ logValue y (some f) ↔
      f.direction.NoWorse (f.evaluate x) (f.evaluate y) := by
  have hxpos : 0 < f.evaluate x := evaluate_pos hx (hfx f rfl)
  have hypos : 0 < f.evaluate y := evaluate_pos hy (hfy f rfl)
  cases f with
  | minimize p => exact Real.log_le_log_iff hxpos hypos
  | maximize m =>
    show -Real.log (m.evaluate x) ≤ -Real.log (m.evaluate y) ↔ _
    rw [neg_le_neg_iff]
    exact Real.log_le_log_iff hypos hxpos

end Objective

namespace Lowered

variable {vars : List (Declaration ℝ)} {gs : List (GeometricForm ℝ)} {o : Option (Objective ℝ)}

/-- A program is turned around for an objective that is maximized. -/
theorem negated_ofProblem (vars : List (Declaration ℝ)) (gs : List (GeometricForm ℝ))
    (o : Option (Objective ℝ)) :
    (ofProblem vars gs o).negated = o.any fun f => f.direction == .maximize := by
  match o with
  | none => rfl
  | some (.maximize m) => rfl
  | some (.minimize p) =>
    unfold ofProblem ObjectivePart.ofObjective
    split <;> simp_all [Objective.direction]

/-- What is read back from the value that a program minimizes at a point is the logarithm of
the objective there. -/
theorem logObjective_logValue (vars : List (Declaration ℝ)) (gs : List (GeometricForm ℝ))
    (x : Point ℝ) (o : Option (Objective ℝ)) :
    (ofProblem vars gs o).logObjective (Objective.logValue x o) =
      Real.log (Objective.value x o) := by
  rw [logObjective, negated_ofProblem]
  match o with
  | none => simp [Objective.logValue, Objective.value]
  | some (.minimize p) => rfl
  | some (.maximize m) => exact neg_neg _

/-- The reported objective undoes the logarithm and the change of sign. -/
theorem exp_logObjective (vars : List (Declaration ℝ)) (gs : List (GeometricForm ℝ))
    {x : Point ℝ} (hx : x.Positive) (ho : Objective.Proper x.length o) :
    Real.exp ((ofProblem vars gs o).logObjective (Objective.logValue x o)) =
      Objective.value x o := by
  rw [logObjective_logValue]
  cases o with
  | none => simp [Objective.value]
  | some f => exact Real.exp_log (Objective.evaluate_pos hx (ho f rfl))

/-- The values that a solution reports are the exponentials of the first columns. -/
theorem values_ofAnswer (l : Lowered ℝ) {count : Nat} (negate : List Bool) {a : Answer ℝ}
    (h : count ≤ a.primal.length) :
    (Solution.ofAnswer l count negate a).values = (a.primal.take count).map Real.exp := by
  apply List.ext_getElem
  · simp [Solution.ofAnswer, h]
  · intro i hi hi'
    have hlen : i < a.primal.length := by
      simp only [List.length_map, List.length_take] at hi'
      omega
    simp [Solution.ofAnswer, hlen]

/-- The answer that has the columns of a point has its values. -/
theorem values_of_columnsOf (l : Lowered ℝ) (gs : List (GeometricForm ℝ))
    (o : Option (Objective ℝ)) {x : Point ℝ} (hx : x.Positive) {count : Nat}
    (hcount : count = x.length) (negate : List Bool) {a : Answer ℝ} (ha : a.primal = columnsOf gs o x) :
    (Solution.ofAnswer l count negate a).values = x := by
  have hlogs : (x.map Real.log).length = count := by simp [hcount]
  rw [values_ofAnswer _ _ (by simp [ha, columnsOf, hcount]), ha, columnsOf,
    List.take_left' hlogs, List.map_map]
  calc x.map (Real.exp ∘ Real.log) = x.map id :=
        List.map_congr_left fun b hb => Real.exp_log (hx b hb)
    _ = x := List.map_id x

variable (hvars : ∀ d ∈ vars, d.fault? = none)
  (hgs : ∀ g ∈ gs, Terms.Proper vars.length g.terms) (ho : Objective.Proper vars.length o)
include hvars hgs ho

/-- A lowered program has allowed columns exactly if the problem has allowed points. -/
theorem ofProblem_feasible_iff : (∃ y, (ofProblem vars gs o).program.Feasible y) ↔
    ∃ x, Declaration.AdmitsAll vars x ∧ ∀ g ∈ gs, g.Holds x := by
  constructor
  · rintro ⟨y, hy⟩
    obtain ⟨hx, h, _⟩ := ofProblem_sound hvars hgs ho hy
    exact ⟨_, hx, h⟩
  · rintro ⟨x, hx, h⟩
    exact ⟨_, (ofProblem_complete hvars hgs ho hx h).1⟩

/-- An optimum of a lowered program is an optimum of the problem, and the program has the
value of the problem there. -/
theorem ofProblem_optimal {y : List ℝ} (hy : (ofProblem vars gs o).program.Optimal y) :
    Declaration.AdmitsAll vars ((y.take vars.length).map Real.exp) ∧
      (∀ g ∈ gs, g.Holds ((y.take vars.length).map Real.exp)) ∧
      (ofProblem vars gs o).program.objective.evaluate y =
        Objective.logValue ((y.take vars.length).map Real.exp) o ∧
      ∀ x, Declaration.AdmitsAll vars x → (∀ g ∈ gs, g.Holds x) →
        Objective.logValue ((y.take vars.length).map Real.exp) o ≤ Objective.logValue x o := by
  obtain ⟨hx, h, hle, _⟩ := ofProblem_sound hvars hgs ho hy.1
  -- what any allowed point costs in the program bounds the optimum from above
  have hbest : ∀ x, Declaration.AdmitsAll vars x → (∀ g ∈ gs, g.Holds x) →
      (ofProblem vars gs o).program.objective.evaluate y ≤ Objective.logValue x o := by
    intro x hx h
    obtain ⟨hfeasible, hvalue⟩ := ofProblem_complete hvars hgs ho hx h
    rw [← hvalue]
    exact hy.2 _ hfeasible
  refine ⟨hx, h, le_antisymm (hbest _ hx h) hle, ?_⟩
  intro x' hx' h'
  exact hle.trans (hbest x' hx' h')

/-- What is read back from an exact answer is a best point of the problem, with the value of
the objective there. -/
theorem ofAnswer_exact {a : Answer ℝ} (ha : a.IsExact (ofProblem vars gs o).program)
    {negate : List Bool} {s : Solution ℝ}
    (hs : s = Solution.ofAnswer (ofProblem vars gs o) vars.length negate a) :
    Declaration.AdmitsAll vars s.values ∧ (∀ g ∈ gs, g.Holds s.values) ∧
      a.objective = Objective.logValue s.values o ∧ s.objective = Objective.value s.values o ∧
      ∀ x, Declaration.AdmitsAll vars x → (∀ g ∈ gs, g.Holds x) →
        Objective.logValue s.values o ≤ Objective.logValue x o := by
  have hlen : vars.length ≤ a.primal.length := by
    have := ha.optimal.1.1
    simp only [ofProblem, List.length_append, List.length_map] at this
    omega
  obtain ⟨hx, h, hvalue, hbest⟩ := ofProblem_optimal hvars hgs ho ha.optimal
  rw [← values_ofAnswer _ negate hlen, ← hs] at hx h hvalue hbest
  have hobjective := ha.objective.trans hvalue
  refine ⟨hx, h, hobjective, ?_, hbest⟩
  -- the reported objective is read off the answer, not off the values
  rw [hs] at hx hobjective ⊢
  rw [← exp_logObjective vars gs (hx.pos hvars) (hx.length_eq ▸ ho), ← hobjective]
  rfl

/-- A best point of the problem makes an exact answer. -/
theorem isExact_of_best {x : Point ℝ} (hx : Declaration.AdmitsAll vars x)
    (h : ∀ g ∈ gs, g.Holds x)
    (hbest : ∀ x', Declaration.AdmitsAll vars x' → (∀ g ∈ gs, g.Holds x') →
      Objective.logValue x o ≤ Objective.logValue x' o) :
    Answer.IsExact (ofProblem vars gs o).program
      ⟨.optimal, columnsOf gs o x, [], Objective.logValue x o, 0⟩ := by
  obtain ⟨hfeasible, hvalue⟩ := ofProblem_complete hvars hgs ho hx h
  refine ⟨rfl, ⟨hfeasible, fun y hy => ?_⟩, hvalue.symm⟩
  obtain ⟨hx', h', hle, _⟩ := ofProblem_sound hvars hgs ho hy
  rw [hvalue]
  exact (hbest _ hx' h').trans hle

end Lowered

end LogConvex
