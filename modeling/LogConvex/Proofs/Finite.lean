import LogConvex.Proofs.Doubles
import LogConvex.Proofs.GeometricSolve
import LogConvex.Proofs.Layout
import LogConvex.Proofs.Ownership
import LogConvex.Proofs.Renaming

/- Which numbers of a conic program are finite. Lowering puts every exponent, and the logarithm of
   every coefficient, into a form of its own place: it adds zeros to them and changes their signs,
   and the numbers that it puts beside them are zeros and ones (`Term.isFinite_logAffine`,
   `Block.isFinite_remainder`). So a program is finite exactly if these numbers are
   (`Lowered.isFinite_ofProblem`), layer by layer: forms, terms, bounds by one, programs.

   The numbers themselves are checked when a relation or an objective is declared, but only the
   coefficients are, and those of a relation before they are divided by one another. What the
   check leaves open is left open in `Workspace.program_finite_iff`. -/
namespace LogConvex

variable {R : Type} [Scalar R]

/-! ## Forms -/

namespace Affine

/-- All numbers of the form are finite. -/
def IsFinite (a : Affine R) : Prop :=
  Scalar.isFinite a.constant = true ∧
    ∀ e ∈ a.coefficients.entries, Scalar.isFinite e.2 = true

theorem isFinite_iff_get? {a : Affine R} : a.IsFinite ↔ Scalar.isFinite a.constant = true ∧
    ∀ c w, a.coefficients.get? c = some w → Scalar.isFinite w = true := by
  refine and_congr_right fun _ => ?_
  constructor
  · intro h c w hw
    exact h (c, w) (Sparse.mem_of_get? hw)
  · intro h e he
    exact h e.1 e.2 (Sparse.get?_of_mem he)

theorem isFinite_scalar {x : R} : (scalar x).IsFinite ↔ Scalar.isFinite x = true := by
  simp [IsFinite, scalar, Sparse.empty]

variable [ExactScalar R]

theorem isFinite_column (c : Nat) : (column c : Affine R).IsFinite := by
  simp [IsFinite, column, Sparse.single, ExactScalar.isFinite_zero, ExactScalar.isFinite_one]

theorem isFinite_neg {a : Affine R} : a.neg.IsFinite ↔ a.IsFinite := by
  have hentries : a.neg.coefficients.entries =
      a.coefficients.entries.map fun e => (e.1, e.2 * -1) := rfl
  rw [IsFinite, hentries, List.forall_mem_map]
  simp only [neg, scale, ExactScalar.isFinite_mul_neg_one, IsFinite]

/-- A finite form in other columns, whose constant is zero, leaves the rest to the first form. -/
theorem isFinite_add_iff {a b : Affine R} (hother : ∀ c ∈ b.columns, c ∉ a.columns)
    (hconstant : Scalar.isFinite (a.constant + b.constant) = Scalar.isFinite a.constant)
    (hb : b.IsFinite) : (a.add b).IsFinite ↔ a.IsFinite := by
  have hsum : Scalar.isFinite (a.add b).constant = Scalar.isFinite a.constant := hconstant
  rw [isFinite_iff_get?, isFinite_iff_get?, hsum]
  refine and_congr_right fun _ => forall_congr' fun c => ?_
  rw [get?_add]
  cases hw : b.coefficients.get? c with
  | none => rfl
  | some w =>
    -- the column is not in the first form, so its coefficient is added to zero
    have hnone : a.coefficients.get? c = none := by
      rw [get?_eq_none_iff]
      exact hother c (List.mem_map_of_mem (Sparse.mem_of_get? hw))
    have hfinite : Scalar.isFinite (0 + w) = true := by
      rw [ExactScalar.isFinite_zero_add]
      exact (isFinite_iff_get?.mp hb).2 c w hw
    simp [hnone, hfinite]

end Affine

/-- The forms that a constraint puts into a cone. -/
def Cone.forms : Cone R → List (Affine R)
  | zero a | nonneg a => [a]
  | exponential x y z => [x, y, z]

/-- All numbers of the constraint are finite. -/
def Cone.IsFinite (k : Cone R) : Prop := ∀ a ∈ k.forms, a.IsFinite

/-- All numbers in the forms of the program are finite. -/
def Program.IsFinite (p : Program R) : Prop :=
  p.objective.IsFinite ∧ ∀ k ∈ p.constraints, k.IsFinite

/-! ## Terms -/

namespace Term

/-- The logarithm of the coefficient is finite, and so are the exponents. -/
def LogFinite (t : Term R) : Prop :=
  Scalar.isFinite (Scalar.log t.coefficient) = true ∧
    ∀ e ∈ t.exponents.entries, Scalar.isFinite e.2 = true

theorem logAffine_eq (t : Term R) : t.logAffine =
    ⟨t.exponents.entries.foldl (fun m e => m.add e.1.index e.2) .empty,
      Scalar.log t.coefficient⟩ := by
  have hfold : ∀ (es : List (Variable × R)) (a : Affine R),
      es.foldl (fun a e => a.addTerm e.1.index e.2) a =
        ⟨es.foldl (fun m e => m.add e.1.index e.2) a.coefficients, a.constant⟩ := by
    intro es
    induction es with
    | nil => exact fun a => rfl
    | cons e es ih => exact fun a => ih _
  exact hfold _ _

/-- Different variables of one model have different columns, so every exponent is added to
zero. -/
theorem entries_logAffine {t : Term R} {id : ModelId} (ht : t.OwnedBy id) :
    t.logAffine.coefficients.entries = t.exponents.entries.map fun e => (e.1.index, 0 + e.2) := by
  have hsorted : t.exponents.entries.Pairwise fun a b => a.1.index < b.1.index := by
    refine t.exponents.sorted.imp_of_mem fun {a b} ha hb hlt => ?_
    have howner : a.1.owner = b.1.owner :=
      (ht a.1 (List.mem_map_of_mem ha)).trans (ht b.1 (List.mem_map_of_mem hb)).symm
    rcases hlt with hlt | ⟨_, hlt⟩
    · exact absurd howner (Nat.ne_of_lt hlt)
    · exact hlt
  rw [logAffine_eq]
  exact Sparse.entries_foldl_alter (fun _ => rfl) .empty hsorted (by simp [Sparse.empty])

variable [ExactScalar R]

theorem isFinite_logAffine {t : Term R} {id : ModelId} (ht : t.OwnedBy id) :
    t.logAffine.IsFinite ↔ t.LogFinite := by
  have hconstant : t.logAffine.constant = Scalar.log t.coefficient := by rw [logAffine_eq]
  rw [Affine.IsFinite, hconstant, entries_logAffine ht, List.forall_mem_map]
  simp only [ExactScalar.isFinite_zero_add, LogFinite]

end Term

/-! ## Bounds by one -/

namespace Block

variable [ExactScalar R]

theorem isFinite_remainder (first count : Nat) : (remainder first count : Affine R).IsFinite := by
  have hconstant : (columnSum first count : Affine R).constant = 0 := by
    induction count with
    | zero => rfl
    | succ count ih =>
      have hstep : (columnSum first (count + 1) : Affine R).constant =
          (columnSum first count : Affine R).constant + 0 := by
        rw [columnSum, List.range_succ, List.foldl_append]
        rfl
      rw [hstep, ih, ExactScalar.zero_add_zero]
  rw [remainder, Affine.isFinite_add_iff]
  · exact Affine.isFinite_scalar.mpr ExactScalar.isFinite_one
  · simp
  · show Scalar.isFinite (1 + (columnSum first count : Affine R).constant * -1) = _
    rw [hconstant]
    exact ExactScalar.isFinite_add_neg_zero 1
  · rw [Affine.isFinite_neg, Affine.isFinite_iff_get?, hconstant]
    refine ⟨ExactScalar.isFinite_zero, fun c w hw => ?_⟩
    rw [get?_columnSum] at hw
    split at hw
    · obtain rfl := Option.some.inj hw
      rw [ExactScalar.isFinite_zero_add]
      exact ExactScalar.isFinite_one
    · cases hw

/-- A bound by one is as finite as its terms, if the shift does not matter. -/
theorem isFinite_atMostOne (first : Nat) {shift : Affine R} {ts : Terms R}
    (hshift : ∀ t ∈ ts, (t.logAffine.add shift).IsFinite ↔ t.LogFinite) :
    (∀ k ∈ (atMostOne first shift ts).cones, k.IsFinite) ↔ ∀ t ∈ ts, t.LogFinite := by
  rcases atMostOne_cases first shift ts with ⟨t, rfl, hblock⟩ | hblock
  · rw [hblock]
    simpa [Cone.IsFinite, Cone.forms, Affine.isFinite_neg] using hshift t List.mem_cons_self
  · have hterm : ∀ (t : Term R) (c : Nat), t ∈ ts →
        ((Cone.exponential (t.logAffine.add shift) (.scalar 1) (.column c)).IsFinite ↔
          t.LogFinite) := by
      intro t c ht
      simp [Cone.IsFinite, Cone.forms, hshift t ht, Affine.isFinite_column,
        Affine.isFinite_scalar, ExactScalar.isFinite_one]
    have hlast : (Cone.nonneg (remainder first ts.length : Affine R)).IsFinite := by
      simpa [Cone.IsFinite, Cone.forms] using isFinite_remainder first ts.length
    rw [hblock, List.forall_mem_append, List.forall_mem_singleton, and_iff_left hlast]
    constructor
    · intro h t ht
      obtain ⟨k, hk, rfl⟩ := List.mem_iff_getElem.mp ht
      exact (hterm _ _ ht).mp (h _ (List.mem_mapIdx.mpr ⟨k, hk, rfl⟩))
    · intro h k hk
      obtain ⟨i, hi, rfl⟩ := List.mem_mapIdx.mp hk
      exact (hterm _ _ (List.getElem_mem hi)).mpr (h _ (List.getElem_mem hi))

theorem isFinite_ofForm (first : Nat) {g : GeometricForm R} {id : ModelId}
    (hg : Terms.OwnedBy id g.terms) :
    (∀ k ∈ (ofForm first g).cones, k.IsFinite) ↔ ∀ t ∈ g.terms, t.LogFinite := by
  cases g with
  | equality m =>
    simpa [ofForm, Cone.IsFinite, Cone.forms, GeometricForm.terms] using
      Term.isFinite_logAffine (hg m List.mem_cons_self)
  | inequality p =>
    refine isFinite_atMostOne first fun t ht => ?_
    rw [← Term.isFinite_logAffine (hg t ht)]
    exact Affine.isFinite_add_iff (fun c hc => absurd hc List.not_mem_nil)
      (ExactScalar.isFinite_add_zero _) (Affine.isFinite_scalar.mpr ExactScalar.isFinite_zero)

theorem isFinite_ofForms (first : Nat) {gs : List (GeometricForm R)}
    (hgs : ∀ g ∈ gs, ∃ id, Terms.OwnedBy id g.terms) :
    (∀ k ∈ (ofForms first gs).flatMap (·.cones), k.IsFinite) ↔
      ∀ g ∈ gs, ∀ t ∈ g.terms, t.LogFinite := by
  induction gs generalizing first with
  | nil => simp [ofForms]
  | cons g gs ih =>
    obtain ⟨⟨id, hg⟩, hgs⟩ := List.forall_mem_cons.mp hgs
    rw [ofForms, List.flatMap_cons, List.forall_mem_append, List.forall_mem_cons,
      isFinite_ofForm first hg, ih _ hgs]

end Block

/-! ## Programs -/

section Program

variable [ExactScalar R]

theorem ObjectivePart.isFinite_ofObjective (first : Nat) {o : Option (Objective R)}
    (ho : ∀ f ∈ o, ∃ id, Terms.OwnedBy id f.terms ∧
      ∀ v ∈ Terms.occurrences f.terms, v.index < first) :
    ((ofObjective first o).form.IsFinite ∧ ∀ k ∈ (ofObjective first o).cones, k.IsFinite) ↔
      ∀ f ∈ o, ∀ t ∈ f.terms, t.LogFinite := by
  unfold ofObjective
  split
  · simp [Affine.isFinite_scalar, ExactScalar.isFinite_zero]
  · next m =>
    obtain ⟨id, hm, _⟩ := ho _ rfl
    simpa [Affine.isFinite_neg, Objective.terms] using
      Term.isFinite_logAffine (hm m List.mem_cons_self)
  · next t =>
    obtain ⟨id, ht, _⟩ := ho _ rfl
    simpa [Objective.terms] using Term.isFinite_logAffine (ht t List.mem_cons_self)
  · next p _ =>
    obtain ⟨id, hp, hbelow⟩ := ho _ rfl
    have hshift : ∀ t ∈ p, (t.logAffine.add (Affine.column first).neg).IsFinite ↔
        t.LogFinite := by
      intro t ht
      rw [← Term.isFinite_logAffine (hp t ht)]
      refine Affine.isFinite_add_iff ?_ (ExactScalar.isFinite_add_neg_zero _)
        (Affine.isFinite_neg.mpr (Affine.isFinite_column first))
      -- the column of the bound is behind those of the variables
      intro c hc hmem
      obtain ⟨v, hv, hindex⟩ := Term.mem_columns_logAffine hmem
      have hlt := hbelow v (Terms.mem_occurrences.mpr ⟨t, ht, hv⟩)
      have hfirst : c = first := by simpa using hc
      omega
    simpa [Affine.isFinite_column, Objective.terms] using
      Block.isFinite_atMostOne (first + 1) hshift

theorem Lowered.isFinite_ofProblem {vars : List (Declaration R)} {gs : List (GeometricForm R)}
    {o : Option (Objective R)} (hgs : ∀ g ∈ gs, ∃ id, Terms.OwnedBy id g.terms)
    (ho : ∀ f ∈ o, ∃ id, Terms.OwnedBy id f.terms ∧
      ∀ v ∈ Terms.occurrences f.terms, v.index < vars.length) :
    (ofProblem vars gs o).program.IsFinite ↔
      (∀ g ∈ gs, ∀ t ∈ g.terms, t.LogFinite) ∧ ∀ f ∈ o, ∀ t ∈ f.terms, t.LogFinite := by
  have hlarger : ∀ f ∈ o, ∃ id, Terms.OwnedBy id f.terms ∧
      ∀ v ∈ Terms.occurrences f.terms,
        v.index < vars.length + Block.addedColumns (Block.ofForms vars.length gs) := by
    intro f hf
    obtain ⟨id, hid, hbelow⟩ := ho f hf
    exact ⟨id, hid, fun v hv => (hbelow v hv).trans_le (Nat.le_add_right _ _)⟩
  rw [← Block.isFinite_ofForms vars.length hgs, ← ObjectivePart.isFinite_ofObjective _ hlarger,
    Program.IsFinite]
  simp only [ofProblem, List.forall_mem_append]
  exact and_left_comm

end Program

/-! ## Models -/

namespace Model

/-- The geometric forms of a geometric model are those of its constraints. -/
theorem Sound.geometric_forms {m : Model R} (hm : m.Sound) (hkind : m.kind = .geometric) :
    ∃ forms, m.constraints.mapM (·.geometric) = .ok forms ∧
      (∀ g ∈ forms, ∃ c ∈ m.constraints, c.form = .geometric g) ∧
      ∀ c ∈ m.constraints, ∃ g ∈ forms, c.form = .geometric g := by
  have hgeometric : ∀ c ∈ m.constraints, ∃ g, c.geometric = .ok g := by
    intro c hc
    have hform := hm.geometric hkind c hc
    cases hf : c.form with
    | geometric g => exact ⟨g, Constraint.geometric_eq_ok_iff.mpr hf⟩
    | signomial p q =>
      rw [hf] at hform
      cases hform
  obtain ⟨forms, hforms⟩ := exists_mapM_ok hgeometric
  obtain ⟨hleft, hright⟩ := mem_of_mapM_ok hforms
  simp only [Constraint.geometric_eq_ok_iff] at hleft hright
  exact ⟨forms, hforms, hright, hleft⟩

/-- Every number that a model takes the logarithm of has a finite one, and every exponent is
finite. -/
def LogFinite (m : Model R) : Prop :=
  (∀ c ∈ m.constraints, ∀ t ∈ c.form.terms, t.LogFinite) ∧
    ∀ o ∈ m.objective, ∀ t ∈ o.terms, t.LogFinite

end Model

namespace Workspace

/-- The program of a geometric model is as finite as what the model stores. -/
theorem isFinite_program_iff [ExactScalar R] {requests : List (Request R)} {id : ModelId}
    {m : Model R} (hm : (run requests).get? id = some m) (hkind : m.kind = .geometric) :
    ∃ p : Program R, (∀ solver, (m.solveWith solver).calls = [⟨p, solver 0 p⟩]) ∧
      (p.IsFinite ↔ m.LogFinite) := by
  have hsound := (placed_run requests).sound hm
  obtain ⟨forms, hforms, hright, hleft⟩ := hsound.geometric_forms hkind
  have howner := mentioned_owner hm
  have howned : ∀ g ∈ forms, ∃ id, Terms.OwnedBy id g.terms := by
    intro g hg
    obtain ⟨c, hc, hcg⟩ := hright g hg
    obtain ⟨j, _, hj⟩ := howner _ (Model.mem_mentioned.mpr (.inl ⟨c, hc, rfl⟩))
    refine ⟨j, Terms.ownedBy_iff.mpr fun v hv => hj v ?_⟩
    exact Relation.occurrences_of_normalize (hsound.normal c hc) (by rwa [hcg])
  have hobjective : ∀ o ∈ m.objective, ∃ id, Terms.OwnedBy id o.terms ∧
      ∀ v ∈ Terms.occurrences o.terms, v.index < (m.vars.map (·.toDeclaration)).length := by
    intro o ho
    obtain ⟨j, _, hj⟩ := howner _ (Model.mem_mentioned.mpr (.inr ⟨o, ho, rfl⟩))
    rw [List.length_map]
    exact ⟨j, Terms.ownedBy_iff.mpr hj, (hsound.objective o ho).2.2⟩
  refine ⟨_, fun solver => (Model.solveWith_geometric hkind hforms solver rfl).1, ?_⟩
  rw [Lowered.isFinite_ofProblem howned hobjective, Model.LogFinite]
  refine and_congr_left fun _ => ?_
  constructor
  · intro h c hc
    obtain ⟨g, hg, hcg⟩ := hleft c hc
    rw [hcg]
    exact h g hg
  · intro h g hg
    obtain ⟨c, hc, hcg⟩ := hright g hg
    have hc := h c hc
    rwa [hcg] at hc

/-- What reaches the solver of a geometric model is one program. It is finite exactly if the
logarithms of the stored coefficients and the exponents are. The coefficients of an objective were
found to be finite. Those of constraints are quotients of two numbers that were; neither the
quotients nor the exponents are looked at. -/
theorem program_finite_iff [ExactScalar R] {requests : List (Request R)} {id : ModelId}
    {m : Model R} (hm : (run requests).get? id = some m) (hkind : m.kind = .geometric) :
    ∃ p : Program R, (∀ solver, (m.solveWith solver).calls = [⟨p, solver 0 p⟩]) ∧
      (p.IsFinite ↔ m.LogFinite) ∧
      (∀ c ∈ m.constraints, ∀ t ∈ c.form.terms, ∃ a b, Scalar.isFinite a = true ∧ 0 < a ∧
        Scalar.isFinite b = true ∧ b < 0 ∧ t.coefficient = a / (b * -1)) ∧
      ∀ o ∈ m.objective, ∀ t ∈ o.terms, Scalar.isFinite t.coefficient = true ∧ 0 < t.coefficient := by
  obtain ⟨p, hcalls, hfinite⟩ := isFinite_program_iff hm hkind
  have hsound := (placed_run requests).sound hm
  refine ⟨p, hcalls, hfinite, ?_, fun o ho => (hsound.objective o ho).2.1⟩
  obtain ⟨_, _, _, hleft⟩ := hsound.geometric_forms hkind
  intro c hc
  obtain ⟨g, _, hcg⟩ := hleft c hc
  rw [hcg]
  exact Relation.exists_quotient_of_normalize (hsound.normal c hc) hcg

/-- A geometric model with one variable and one constraint. -/
def constrainedRun (r : Relation Float) : List (Request Float) :=
  [.create .geometric, .on 0 (.addVariable unbounded), .on 0 (.addConstraint r none)]

/-- The bound `b` on `c` times powers of the variable. -/
def powersAtMost (c : Float) (es : List Float) (b : Float) : Relation Float :=
  ⟨.monomial (.ofList c (es.map fun e => (⟨0, 0⟩, e))), .atMost, .constant b⟩

/-- The bound `1e300 * x ≤ 1e-300` is between finite numbers, but it is stored with an infinite
coefficient, and the program has the logarithm of that. -/
theorem program_finite_iff_overflow : ∃ m, ∃ p : Program Float,
    (run (constrainedRun (powersAtMost 1e300 [1] 1e-300))).get? 0 = some m ∧
      (∀ solver, (m.solveWith solver).calls = [⟨p, solver 0 p⟩]) ∧
      (p.IsFinite ↔ (Float.log (1 / 0)).isFinite = true) := by
  have hcoefficients : ((run (constrainedRun (powersAtMost 1e300 [1] 1e-300))).get? 0).map (fun m =>
      (m.kind, m.objective.isNone, m.constraints.map fun c => c.form.terms.map (·.coefficient))) =
      some (.geometric, true, [[1 / 0]]) := by decide +kernel
  have hexponents : ((run (constrainedRun (powersAtMost 1e300 [1] 1e-300))).get? 0).map (fun m =>
      m.constraints.map fun c => c.form.terms.map (·.exponents.entries)) =
      some [[[(⟨0, 0⟩, 1)]]] := by decide +kernel
  obtain ⟨m, hm, hstored⟩ := Option.map_eq_some_iff.mp hcoefficients
  obtain ⟨hkind, hobjective, c, hc, t, ht, hcoefficient⟩ : m.kind = .geometric ∧
      m.objective = none ∧ ∃ c, m.constraints = [c] ∧ ∃ t, c.form.terms = [t] ∧
        t.coefficient = 1 / 0 := by simpa using hstored
  obtain ⟨p, hcalls, hfinite, -, -⟩ := program_finite_iff hm hkind
  refine ⟨m, p, hm, hcalls, hfinite.trans ?_⟩
  rw [hm, Option.map_some, Option.some.injEq] at hexponents
  have hentries : t.exponents.entries = [(⟨0, 0⟩, 1)] := by simpa [hc, ht] using hexponents
  have hterm : t.LogFinite ↔ (Float.log (1 / 0)).isFinite = true := by
    rw [Term.LogFinite, hcoefficient, hentries, List.forall_mem_singleton]
    exact and_iff_left ExactScalar.isFinite_one
  rw [Model.LogFinite, hc, hobjective, List.forall_mem_singleton, ht, List.forall_mem_singleton,
    hterm]
  exact and_iff_left fun o ho => by cases ho

/-- In the bound `x ^ 1e308 * x ^ 1e308 ≤ 2` all numbers are finite, but not the sum of the
exponents. -/
theorem program_not_finite_steep : ∃ m, ∃ p : Program Float,
    (run (constrainedRun (powersAtMost 1 [1e308, 1e308] 2))).get? 0 = some m ∧ m.kind = .geometric ∧
      (∀ solver, (m.solveWith solver).calls = [⟨p, solver 0 p⟩]) ∧ ¬ p.IsFinite := by
  have hstored : ((run (constrainedRun (powersAtMost 1 [1e308, 1e308] 2))).get? 0).map (fun m =>
      (m.kind, m.constraints.map fun c => c.form.terms.map fun t => t.exponents.entries)) =
      some (.geometric, [[[(⟨0, 0⟩, 1 / 0)]]]) := by decide +kernel
  obtain ⟨m, hm, hstored⟩ := Option.map_eq_some_iff.mp hstored
  obtain ⟨hkind, hterms⟩ := Prod.mk.inj hstored
  obtain ⟨p, hcalls, hfinite⟩ := isFinite_program_iff hm hkind
  refine ⟨m, p, hm, hkind, hcalls, fun hp => ?_⟩
  obtain ⟨c, _, hc, hcterms, _⟩ := List.map_eq_cons_iff.mp hterms
  obtain ⟨t, _, ht, hentries, _⟩ := List.map_eq_cons_iff.mp hcterms
  have hexponent := ((hfinite.mp hp).1 c (by simp [hc]) t (by simp [ht])).2 (⟨0, 0⟩, 1 / 0)
    (by simp [hentries])
  have hinfinite : (1 / 0 : Float).isFinite = false := by decide +kernel
  exact absurd hexponent (by simp [Scalar.isFinite, hinfinite])

end Workspace

end LogConvex
