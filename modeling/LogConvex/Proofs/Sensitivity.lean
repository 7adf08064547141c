import LogConvex.Proofs.GeometricSolve
import LogConvex.Proofs.Duality

/- Reported dual values are sensitivities. Divided by the reported objective, and turned back
   for a bound from below, the dual value of a constraint is the rate at which the logarithm
   of the objective can improve when the right-hand side of its canonical form is relaxed
   from one to another number. What is proved:

   1. the block of a constraint ends in a single row, and the columns of a point leave in it
      a slack that is not below what the relaxation takes (`Block.ofForm_filled`);
   2. the index of that row is found through `dualCones` and `rowOf`, whatever stands around
      the block (`Lowered.ofProblem_around`);
   3. by duality, the value of the row bounds what the relaxation can gain, first for a
      lowered program (`Lowered.answer_sensitivity`), then for a model
      (`Model.solve_geometric_sensitivity`). -/
namespace LogConvex

open LinearSystem

namespace GeometricForm

/-- The form says that something is at most one, and not that it equals one. -/
def isBound : GeometricForm ℝ → Bool
  | equality _ => false
  | inequality _ => true

/-- The constraint with another number in place of one. -/
def HoldsAt (r : ℝ) (x : Point ℝ) : GeometricForm ℝ → Prop
  | equality m => m.evaluate x = r
  | inequality p => Terms.evaluate p x ≤ r

/-- What another number in place of one is worth, for each unit of the dual value. -/
noncomputable def worth (r : ℝ) (g : GeometricForm ℝ) : ℝ :=
  if g.isBound then r - 1 else Real.log r

end GeometricForm

/-! ## The last row of a block -/

namespace Block

/-- At the columns of a point all cones of a block hold but the last, whatever the point
does to the constraint. The last has a single row, whose slack, times any number that is a
possible dual value, is not below what the relaxation is worth. -/
theorem ofForm_filled (first : Nat) (g : GeometricForm ℝ) :
    ∃ init a, (ofForm first g).cones = init ++ [.single g.isBound a] ∧
      ∀ (x : Point ℝ) (y : List ℝ), x.Positive → x.map Real.log <+: y →
        Terms.Proper x.length g.terms → g.fill x <+: y.drop first →
        (∀ c ∈ init, c.Holds y) ∧ ∀ r, 0 < r → g.HoldsAt r x →
          ∀ d : ℝ, (g.isBound = true → 0 ≤ d) →
            -(d * g.worth r) ≤ d * Row.slack y ⟨a, g.isBound⟩ := by
  cases g with
  | equality m =>
    refine ⟨[], m.logAffine, rfl, fun x y hx hy hg _ => ⟨by simp, fun r _ hr d _ => ?_⟩⟩
    obtain ⟨hm, hc⟩ := hg m (by simp [GeometricForm.terms])
    have hslack : Row.slack y ⟨m.logAffine, false⟩ = -Real.log r := by
      rw [Row.slack, Term.evaluate_logAffine hm hx hc hy, show m.evaluate x = r from hr]
      rfl
    show -(d * Real.log r) ≤ d * Row.slack y ⟨m.logAffine, false⟩
    rw [hslack, mul_neg]
  | inequality p =>
    obtain ⟨init, a, hcones, hfilled⟩ := atMostOne_filled first .zero p
    refine ⟨init, a, hcones, fun x y hx hy hg hfill => ?_⟩
    have hp : Terms.Proper x.length p := hg
    have hfill : fill (fun t => Real.exp (shifted .zero y t)) p <+: y.drop first := by
      rw [fill_shifted hx hy hp]
      simpa using show fill (fun t => t.evaluate x) p <+: y.drop first from hfill
    obtain ⟨hinit, hlast⟩ := hfilled y hfill
    refine ⟨hinit, fun r hr hsum d hd => ?_⟩
    have hle : 1 - r ≤ a.evaluate y := by
      refine hlast r hr ?_
      rw [sum_exp_shifted hx hy hp]
      simpa using show Terms.evaluate p x ≤ r from hsum
    calc -(d * (r - 1)) = d * (1 - r) := by ring
      _ ≤ d * a.evaluate y := mul_le_mul_of_nonneg_left hle (hd rfl)

theorem ofForms_append (first : Nat) (gs hs : List (GeometricForm ℝ)) :
    ofForms first (gs ++ hs) =
      ofForms first gs ++ ofForms (first + addedColumns (ofForms first gs)) hs := by
  induction gs generalizing first with
  | nil => rfl
  | cons g gs ih => simp only [List.cons_append, ofForms, ih, addedColumns, Nat.add_assoc]

/-- The last cone of a block stands behind the cones of the blocks before it. -/
theorem getElem?_lastCones {R : Type} (before : Nat) (bs : List (Block R)) (b : Block R)
    (cs : List (Block R)) : (lastCones before (bs ++ b :: cs))[bs.length]? =
      some (before + (bs.flatMap (·.cones)).length + b.cones.length - 1) := by
  induction bs generalizing before with
  | nil => simp [lastCones]
  | cons b' bs ih =>
    simp only [List.cons_append, lastCones, List.length_cons, List.getElem?_cons_succ, ih,
      List.flatMap_cons, List.length_append, Nat.add_assoc]

end Block

/-! ## Lowered programs -/

namespace Lowered

variable {vars : List (Declaration ℝ)} {pre post : List (GeometricForm ℝ)} {g : GeometricForm ℝ}
  {o : Option (Objective ℝ)} (hvars : ∀ d ∈ vars, d.fault? = none)
  (hgs : ∀ g' ∈ pre ++ g :: post, Terms.Proper vars.length g'.terms)
  (ho : Objective.Proper vars.length o)
include hvars hgs ho

/-- The cone that reports for a constraint has a single row. The columns of a point that
satisfies all other constraints satisfy all other cones. -/
theorem ofProblem_around : ∃ before a after,
    (ofProblem vars (pre ++ g :: post) o).program.constraints =
        before ++ .single g.isBound a :: after ∧
      (ofProblem vars (pre ++ g :: post) o).dualCones[pre.length]? = some before.length ∧
      ∀ x : Point ℝ, Declaration.AdmitsAll vars x → (∀ g' ∈ pre ++ post, g'.Holds x) →
        (∀ c ∈ before ++ after, c.Holds (columnsOf (pre ++ g :: post) o x)) ∧
        ∀ r, 0 < r → g.HoldsAt r x → ∀ d : ℝ, (g.isBound = true → 0 ≤ d) →
          -(d * g.worth r) ≤
            d * Row.slack (columnsOf (pre ++ g :: post) o x) ⟨a, g.isBound⟩ := by
  -- the columns that the block of the constraint adds start at `first`
  obtain ⟨first, hfirst⟩ :
      ∃ n, n = vars.length + Block.addedColumns (Block.ofForms vars.length pre) := ⟨_, rfl⟩
  have hsplit := Block.ofForms_append vars.length pre (g :: post)
  rw [← hfirst, Block.ofForms] at hsplit
  obtain ⟨init, a, hcones, hfilled⟩ := Block.ofForm_filled first g
  refine ⟨(Block.ofForms vars.length pre).flatMap (·.cones) ++ init, a,
    (Block.ofForms (first + (Block.ofForm first g).columns) post).flatMap (·.cones) ++
      (ObjectivePart.ofObjective (vars.length +
        Block.addedColumns (Block.ofForms vars.length (pre ++ g :: post))) o).cones, ?_, ?_, ?_⟩
  · simp [ofProblem, hsplit, hcones]
  · have hlast := Block.getElem?_lastCones 0 (Block.ofForms vars.length pre)
      (Block.ofForm first g) (Block.ofForms (first + (Block.ofForm first g).columns) post)
    rw [Block.length_ofForms, hcones] at hlast
    simp only [ofProblem, hsplit, hlast, List.length_append, List.length_singleton]
    congr 1
    omega
  · intro x hx h
    have hpos : x.Positive := hx.pos hvars
    have hy : x.map Real.log <+: columnsOf (pre ++ g :: post) o x := List.prefix_append _ _
    obtain ⟨_, _, hobjective, _⟩ := ofProblem_filled hvars hgs ho hx
    obtain ⟨rest, hrest⟩ := fill_prefix_columnsOf (pre ++ g :: post) o hx.length_eq
    rw [hx.length_eq] at hgs
    rw [List.forall_mem_append, List.forall_mem_cons] at hgs
    rw [List.forall_mem_append] at h
    rw [List.flatMap_append, List.flatMap_cons, List.append_assoc, List.append_assoc] at hrest
    have hdrop : g.fill x ++ (post.flatMap (GeometricForm.fill x) ++ rest) =
        (columnsOf (pre ++ g :: post) o x).drop first := by
      rw [hfirst, Block.addedColumns_ofForms x, ← List.drop_drop, ← hrest, List.drop_left]
    have hdrop' : post.flatMap (GeometricForm.fill x) ++ rest =
        (columnsOf (pre ++ g :: post) o x).drop (first + (Block.ofForm first g).columns) := by
      rw [← Block.length_fill_form first x, ← List.drop_drop, ← hdrop, List.drop_left]
    obtain ⟨hinit, hlast⟩ := hfilled x _ hpos hy hgs.2.1 ⟨_, hdrop⟩
    refine ⟨?_, hlast⟩
    simp only [List.forall_mem_append]
    exact ⟨⟨Block.ofForms_complete hpos hy hgs.1 h.1 ⟨_, hrest⟩, hinit⟩,
      Block.ofForms_complete hpos hy hgs.2.2 h.2 ⟨_, hdrop'⟩, hobjective⟩

/-- The dual value that is handed back for a constraint bounds what relaxing it can gain. -/
theorem answer_sensitivity {y z : List ℝ} {status : Status} {time : ℝ} {a : Answer ℝ}
    (h : (StandardForm.ofProgram
      (ofProblem vars (pre ++ g :: post) o).program).PrimalDual y z)
    (ha : a = (StandardForm.ofProgram
      (ofProblem vars (pre ++ g :: post) o).program).answer status y z time) :
    ∃ cone d, (ofProblem vars (pre ++ g :: post) o).dualCones[pre.length]? = some cone ∧
      a.duals[cone]? = some d ∧ (g.isBound = true → 0 ≤ d) ∧
      ∀ x : Point ℝ, Declaration.AdmitsAll vars x → (∀ g' ∈ pre ++ post, g'.Holds x) →
        ∀ r, 0 < r → g.HoldsAt r x → a.objective - d * g.worth r ≤ Objective.logValue x o := by
  obtain ⟨before, form, after, hp, hcone, haround⟩ := ofProblem_around hvars hgs ho
  have hrow := Program.rowOf_around hp
  refine ⟨_, _, hcone, ?_, h.nonneg_of_slack hp hrow, fun x hx hothers r hr hat => ?_⟩
  · rw [ha, StandardForm.answer, List.getElem?_map, hrow]
    rfl
  · obtain ⟨hlength, hbounds, _, hvalue⟩ := ofProblem_filled hvars hgs ho hx
    obtain ⟨hrest, hrelaxed⟩ := haround x hx hothers
    have hle := h.le_dot_q hp hrow hlength hbounds hrest
    have hslack := hrelaxed r hr hat _ (h.nonneg_of_slack hp hrow)
    have hobjective := StandardForm.dot_q_ofProgram _ hlength
    rw [hvalue] at hobjective
    rw [ha, StandardForm.answer]
    dsimp only
    linarith

end Lowered

/-! ## Models -/

/-- The form of an accepted relation is a bound unless the relation is an equation. -/
theorem Relation.isBound_of_normalize {r : Relation ℝ} {allow : Bool} {c : Canonical ℝ}
    (h : r.normalize allow = .ok c) {g : GeometricForm ℝ} (hg : c.form = .geometric g) :
    g.isBound = true ↔ r.sense ≠ .equal := by
  obtain ⟨_, _, _, _, _, _, _, _, _, hform, _⟩ := normalize_cases h
  rw [hg] at hform
  rcases formOf_cases hform with ⟨hs, _, _, _, _, hf⟩ | ⟨hs, _, ⟨_, _, hf⟩ | ⟨_, _, hf⟩⟩
  · obtain rfl := Form.geometric.inj hf
    simp [GeometricForm.isBound, hs]
  · obtain rfl := Form.geometric.inj hf
    simp [GeometricForm.isBound, hs]
  · simp at hf

theorem Relation.negateDual_normalize {r : Relation ℝ} {allow : Bool} {c : Canonical ℝ}
    (h : r.normalize allow = .ok c) : c.negateDual = (r.sense == .atLeast) := by
  obtain ⟨_, _, _, _, _, _, _, _, _, _, hn⟩ := normalize_cases h
  exact hn

theorem Solution.log_objective (l : Lowered ℝ) (count : Nat) (negate : List Bool) (a : Answer ℝ) :
    Real.log (ofAnswer l count negate a).objective = l.logObjective a.objective :=
  Real.log_exp _

/-- A reported dual value without the factor of the objective, and turned back for a bound
from below. -/
noncomputable def Solution.rate (s : Solution ℝ) (sense : Sense) (d : ℝ) : ℝ :=
  if sense = .atLeast then -(d / s.objective) else d / s.objective

/-- The value `b` is better than `a` by at most `gain`. -/
def Direction.GainsAtMost (gain a b : ℝ) : Direction → Prop
  | minimize => a - gain ≤ b
  | maximize => b ≤ a + gain

/-- The rate of the dual value that is reported for a constraint is the dual value of its
cone. -/
theorem Solution.exists_dual {l : Lowered ℝ} {count : Nat} {negate : List Bool} {a : Answer ℝ}
    {s : Solution ℝ} (hs : s = .ofAnswer l count negate a) {i cone : Nat} {d : ℝ} {sense : Sense}
    (hcone : l.dualCones[i]? = some cone) (hd : a.duals[cone]? = some d)
    (hn : negate[i]? = some (sense == .atLeast)) :
    ∃ d', s.duals[i]? = some d' ∧ s.rate sense d' = d ∧
      (sense = .atMost → 0 ≤ d → 0 ≤ d') ∧ (sense = .atLeast → 0 ≤ d → d' ≤ 0) := by
  have hpos : 0 < s.objective := by
    rw [hs]
    exact Real.exp_pos _
  have hdual : s.duals[i]? = some (Solution.dual a.duals s.objective cone (sense == .atLeast)) := by
    rw [hs]
    simp only [ofAnswer, List.getElem?_zipWith, hcone, hn]
  have hcancel : d * s.objective / s.objective = d := mul_div_cancel_right₀ d hpos.ne'
  refine ⟨_, hdual, ?_⟩
  cases sense with
  | equal => simp [dual, rate, hd, hcancel]
  | atMost => simp [dual, rate, hd, hcancel, mul_nonneg_iff_of_pos_right hpos]
  | atLeast => simp [dual, rate, hd, hcancel, mul_nonneg_iff_of_pos_right hpos, neg_div]

/-- What a program minimizes and what is read back from it gain the same. -/
theorem Lowered.gainsAtMost_logObjective (vars : List (Declaration ℝ))
    (gs : List (GeometricForm ℝ)) (o : Option (Objective ℝ)) {gain a b : ℝ} (h : a - gain ≤ b) :
    (o.elim .minimize (·.direction)).GainsAtMost gain ((ofProblem vars gs o).logObjective a)
      ((ofProblem vars gs o).logObjective b) := by
  rw [logObjective, logObjective, negated_ofProblem]
  cases o with
  | none => exact h
  | some f =>
    cases f with
    | minimize p => exact h
    | maximize m =>
      show -b ≤ -a + gain
      linarith

/-- The geometric form of a constraint, and the forms of the constraints before and after
it. -/
theorem Constraint.forms_around {cs : List (Constraint ℝ)} {forms : List (GeometricForm ℝ)}
    (h : cs.mapM (·.geometric) = .ok forms) {i : Nat} {c : Constraint ℝ} (hc : cs[i]? = some c) :
    ∃ pre g post, forms = pre ++ g :: post ∧ pre.length = i ∧ c.form = .geometric g ∧
      ∀ g' ∈ pre ++ post, ∃ (j : Nat) (c' : Constraint ℝ), j ≠ i ∧ cs[j]? = some c' ∧
        c'.form = .geometric g' := by
  obtain ⟨hlen, hpairs⟩ := List.forall₂_iff_get.mp (mapM_eq_ok_iff.mp h)
  obtain ⟨hi, rfl⟩ := List.getElem?_eq_some_iff.mp hc
  have hi' : i < forms.length := hlen ▸ hi
  refine ⟨forms.take i, forms[i], forms.drop (i + 1), ?_, ?_, ?_, ?_⟩
  · rw [← List.drop_eq_getElem_cons, List.take_append_drop]
  · rw [List.length_take, Nat.min_eq_left hi'.le]
  · exact geometric_eq_ok_iff.mp (hpairs i hi hi')
  · intro g' hg'
    rw [← List.eraseIdx_eq_take_drop_succ, List.mem_eraseIdx_iff_getElem?] at hg'
    obtain ⟨j, hji, hj⟩ := hg'
    obtain ⟨hj', rfl⟩ := List.getElem?_eq_some_iff.mp hj
    have hlt : j < cs.length := hlen ▸ hj'
    exact ⟨j, cs[j], hji, List.getElem?_eq_getElem hlt, geometric_eq_ok_iff.mp (hpairs j hlt hj')⟩

namespace Model

variable {m : Model ℝ} {w : Written ℝ}

/-- Reported dual values are sensitivities. If the solver hands back columns and dual values
that prove each other optimal, the solve succeeds, and the dual value of each constraint has
the sign that its relation asks for. Its rate bounds what relaxing the constraint can gain:
at any point that satisfies all other relations, the logarithm of the goal is better by at
most the rate times what the relaxation is worth. -/
theorem solve_geometric_sensitivity (hm : Reach (fun _ => True) m w)
    (hkind : m.kind = .geometric) :
    ∃ p : Program ℝ, (∀ solver, (m.solveWith solver).calls = [⟨p, solver 0 p⟩]) ∧
      ∀ (solver : Solver ℝ) (y z : List ℝ) (status : Status) (time : ℝ),
        (StandardForm.ofProgram p).PrimalDual y z →
        solver 0 p = .ok ((StandardForm.ofProgram p).answer status y z time) →
        ∃ s : Solution ℝ, (m.solveWith solver).outcome = .ok s ∧ 0 < s.objective ∧
          ∀ (i : Nat) (c : Constraint ℝ), m.constraints[i]? = some c →
            ∃ (d : ℝ) (g : GeometricForm ℝ), s.duals[i]? = some d ∧ c.form = .geometric g ∧
              (c.relation.sense = .atMost → 0 ≤ d) ∧ (c.relation.sense = .atLeast → d ≤ 0) ∧
              (c.relation.sense ≠ .equal → 0 ≤ s.rate c.relation.sense d) ∧
              ∀ r, 0 < r → ∀ x : Point ℝ, Declaration.AdmitsAll w.vars x →
                (∀ (j : Nat) (c' : Constraint ℝ), j ≠ i → m.constraints[j]? = some c' →
                  c'.relation.Holds x) →
                g.HoldsAt r x →
                w.direction.GainsAtMost
                  (s.rate c.relation.sense d *
                    if c.relation.sense = .equal then Real.log r else r - 1)
                  (Real.log s.objective) (Real.log (w.value x)) := by
  have h := hm.agrees
  obtain ⟨forms, hforms, hproper, _⟩ := h.geometric_forms hkind
  have hlowered : Lowered.ofProblem w.vars forms m.objective =
      .ofProblem (m.vars.map (·.toDeclaration)) forms m.objective := by rw [h.vars]
  refine ⟨(Lowered.ofProblem w.vars forms m.objective).program,
    fun solver => (solveWith_geometric hkind hforms solver hlowered).1, ?_⟩
  intro solver y z status time hpair hanswer
  obtain ⟨_, houtcome⟩ := solveWith_geometric hkind hforms solver hlowered
  rw [hanswer] at houtcome
  refine ⟨_, houtcome, Real.exp_pos _, ?_⟩
  intro i c hc
  have hmem : c ∈ m.constraints := List.mem_of_getElem? hc
  obtain ⟨pre, g, post, hsplit, hlen, hg, hothers⟩ := Constraint.forms_around hforms hc
  subst hsplit hlen
  obtain ⟨cone, d, hcone, hd, hnonneg, hgain⟩ :=
    Lowered.answer_sensitivity h.accepted hproper h.proper_objective hpair rfl
  have hnegate : (m.constraints.map (·.negateDual))[pre.length]? =
      some (c.relation.sense == .atLeast) := by
    rw [List.getElem?_map, hc, Option.map_some, Relation.negateDual_normalize (h.normal c hmem)]
  obtain ⟨d', hd', hrate, hatMost, hatLeast⟩ := Solution.exists_dual rfl hcone hd hnegate
  have hbound : g.isBound = true ↔ c.relation.sense ≠ .equal :=
    Relation.isBound_of_normalize (h.normal c hmem) hg
  refine ⟨d', g, hd', hg, fun hs => hatMost hs (hnonneg (hbound.mpr (by simp [hs]))),
    fun hs => hatLeast hs (hnonneg (hbound.mpr (by simp [hs]))), ?_, ?_⟩
  · rw [hrate]
    exact fun hs => hnonneg (hbound.mpr hs)
  · intro r hr x hx hrest hat
    have hholds : ∀ g' ∈ pre ++ post, g'.Holds x := by
      intro g' hg'
      obtain ⟨j, c', hj, hc', hform⟩ := hothers g' hg'
      have := (h.holds_iff hx (List.mem_of_getElem? hc')).mp (hrest j c' hj hc')
      rwa [hform] at this
    have hle := hgain x hx hholds r hr hat
    have hworth : g.worth r = if c.relation.sense = .equal then Real.log r else r - 1 := by
      by_cases hs : c.relation.sense = .equal
      · simp [GeometricForm.worth, hbound, hs]
      · simp [GeometricForm.worth, hbound, hs]
    rw [← hworth, hrate, ← h.value_eq, h.direction_eq,
      ← Lowered.logObjective_logValue w.vars (pre ++ g :: post), Solution.log_objective]
    exact Lowered.gainsAtMost_logObjective _ _ _ hle

/-- The standard form of the least problem with the bound `2 / x ≤ 1` has a row for the
default lower bound and one for the constraint. -/
theorem ofProgram_least (f : StandardForm ℝ) (hf : f = .ofProgram (Lowered.ofProblem
      [Lowered.plain] [inverseForm 2] (some leastObjective)).program) :
    f.q = [1] ∧ f.a.toColumns = [[-1, -1]] ∧
      f.b = [-Real.log Declaration.defaultLower, -Real.log 2] ∧ f.sizes = ⟨0, 2, 0⟩ := by
  subst hf
  simp [StandardForm.ofProgram, Lowered.ofProblem, Lowered.plain, inverseForm, leastObjective,
    Block.ofForms, Block.ofForm, Block.atMostOne, Block.addedColumns, ObjectivePart.ofObjective,
    Declaration.logBounds, Declaration.effectiveUpper, Declaration.effectiveLower,
    ColumnBounds.fixedRows, ColumnBounds.boundRows, ColumnBounds.lowerRows, ColumnBounds.upperRows,
    ColumnBounds.isFixed, Cone.zeroRows, Cone.nonnegRows, Cone.exponentialRows,
    Row.triplets, Row.constant, Row.sign, Matrix.ofTriplets, Matrix.toColumns, Matrix.accumulate,
    Term.logAffine, Affine.addTerm, Affine.scalar, Affine.neg, Affine.scale, Affine.add,
    Affine.zero, Affine.column, Sparse.add, Sparse.alter, Sparse.alterEntries, Sparse.single,
    Sparse.empty, Sparse.consEntry, Sparse.map, Sparse.weight, Sparse.get?, List.range_succ]

/-- There the logarithm of two is proved optimal by the dual value one of the constraint. -/
theorem primalDual_least : (StandardForm.ofProgram (Lowered.ofProblem
    [Lowered.plain] [inverseForm 2] (some leastObjective)).program).PrimalDual
      [Real.log 2] [0, 1] := by
  obtain ⟨hq, hcolumns, hb, hsizes⟩ := ofProgram_least _ rfl
  have hadmits : Declaration.AdmitsAll [Lowered.plain] [2] := by
    simp [Declaration.AdmitsAll, Lowered.plain, Declaration.Admits, Declaration.effectiveLower,
      Declaration.effectiveUpper, Declaration.defaultLower]
    norm_num
  have hplain : ∀ d ∈ [Lowered.plain], d.fault? = none := by
    simp [Lowered.plain, Declaration.fault?, Declaration.given]
  have hproper : ∀ g ∈ [inverseForm 2], Terms.Proper [Lowered.plain].length g.terms := by
    simp [inverseForm, GeometricForm.terms, Terms.Proper, Sparse.keys, Sparse.single]
  have hobjective : Objective.Proper [Lowered.plain].length (some leastObjective) := by
    simp [leastObjective, Objective.Proper, Objective.terms, Terms.Proper, Sparse.keys,
      Sparse.single]
  have hholds : ∀ g ∈ [inverseForm 2], g.Holds [2] := by
    simpa using (holds_inverseForm two_pos 2).mpr le_rfl
  have hfeasible := (Lowered.ofProblem_complete hplain hproper hobjective hadmits hholds).1
  refine ⟨by rw [hq]; rfl, by rw [hsizes]; rfl, ?_, ?_, ?_, ?_⟩
  · exact (StandardForm.contains_slacks_iff _ rfl).mpr hfeasible
  · intro s hlen hs
    rw [hsizes] at hlen hs
    obtain ⟨a, b, rfl⟩ := List.length_eq_two.mp hlen
    have hb : 0 ≤ b := hs.2.1 b (List.mem_cons_of_mem a List.mem_cons_self)
    simpa [dot] using hb
  · rw [hcolumns, hq]
    simp [apply, dot]
  · rw [hq, hb]
    simp [dot]

/-- The bound `x ≥ 2`, in the form `2 / x ≤ r`, reports a dual value that is not positive,
and its rate bounds how far the least value drops. -/
theorem solve_geometric_sensitivity_shiftedBound :
    ∃ (solver : Solver ℝ) (s : Solution ℝ) (d : ℝ),
      ((leastModel .geometric Lowered.plain Relation.shiftedBound
        ⟨.geometric (inverseForm 2), true⟩).solveWith solver).outcome = .ok s ∧
      s.duals[0]? = some d ∧ d ≤ 0 ∧
      ∀ r, 0 < r → ∀ x : Point ℝ, Declaration.AdmitsAll [Lowered.plain] x →
        (inverseForm 2).HoldsAt r x →
        Real.log s.objective - s.rate .atLeast d * (r - 1) ≤
          Real.log ((leastProblem Lowered.plain Relation.shiftedBound).value x) := by
  have hplain : Lowered.plain.fault? = none := by
    simp [Lowered.plain, Declaration.fault?, Declaration.given]
  have hsupport : Relation.shiftedBound.support = [⟨0, 0⟩] := rfl
  have hreach : Reach (fun _ => True) (leastModel .geometric Lowered.plain Relation.shiftedBound
      ⟨.geometric (inverseForm 2), true⟩) (leastProblem Lowered.plain Relation.shiftedBound) :=
    reach_leastModel _ hplain (by simp [hsupport]) Relation.normalize_shiftedBound
  obtain ⟨p, hcalls, hsolve⟩ := solve_geometric_sensitivity hreach rfl
  obtain rfl : (Lowered.ofProblem [Lowered.plain] [inverseForm 2]
      (some leastObjective)).program = p := by
    have hcall := hcalls fun _ _ => .error .notSolved
    rw [(solveWith_geometric rfl rfl _ rfl).1] at hcall
    exact congrArg Call.program (List.singleton_inj.mp hcall)
  obtain ⟨s, hs, _, hduals⟩ := hsolve (fun _ _ => .ok _) _ _ .optimal 0 primalDual_least rfl
  obtain ⟨d, g, hd, hg, _, hneg, _, hgain⟩ := hduals 0 _ rfl
  obtain rfl : inverseForm 2 = g := Form.geometric.inj hg
  refine ⟨_, s, d, hs, hd, hneg rfl, fun r hr x hx hat => ?_⟩
  refine hgain r hr x hx (fun j c hj hc => ?_) hat
  -- there is no other constraint
  obtain ⟨hlt, _⟩ := List.getElem?_eq_some_iff.mp hc
  exact absurd (Nat.lt_one_iff.mp hlt) hj

end Model

end LogConvex
