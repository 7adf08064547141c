import Mathlib.Data.List.Forall2
import LogConvex.Model

/- What a run does to the variables, whatever the numbers and the solver. A round records
   one point with every variable or none (`pass_spec`), so what a record keeps, a run keeps
   (`iterate_vars`). In particular a run neither loses nor changes a declaration
   (`Model.run_vars`). -/
namespace LogConvex

/-! ## Checking a list -/

section MapM

variable {ε α β : Type} {f : α → Except ε β}

/-- A list passes a check exactly if each element does. -/
theorem mapM_eq_ok_iff {as : List α} {bs : List β} :
    as.mapM f = .ok bs ↔ List.Forall₂ (fun a b => f a = .ok b) as bs := by
  induction as generalizing bs with
  | nil => cases bs <;> simp [pure, Except.pure]
  | cons a as ih =>
    rw [List.mapM_cons]
    cases ha : f a with
    | error e => cases bs <;> simp [bind, Except.bind, ha]
    | ok b =>
      cases has : as.mapM f with
      | error e => cases bs <;> simp [bind, Except.bind, ha, has, ← ih]
      | ok bs' => cases bs <;> simp [bind, Except.bind, pure, Except.pure, ha, has, ← ih]

theorem exists_mapM_ok {as : List α} (h : ∀ a ∈ as, ∃ b, f a = .ok b) :
    ∃ bs, as.mapM f = .ok bs := by
  induction as with
  | nil => exact ⟨[], rfl⟩
  | cons a as ih =>
    rw [List.forall_mem_cons] at h
    obtain ⟨b, hb⟩ := h.1
    obtain ⟨bs, hbs⟩ := ih h.2
    exact ⟨b :: bs, mapM_eq_ok_iff.mpr (.cons hb (mapM_eq_ok_iff.mp hbs))⟩

/-- What comes of a list that passes: something of each element, and nothing else. -/
theorem mem_of_mapM_ok {as : List α} {bs : List β} (h : as.mapM f = .ok bs) :
    (∀ a ∈ as, ∃ b ∈ bs, f a = .ok b) ∧ ∀ b ∈ bs, ∃ a ∈ as, f a = .ok b := by
  have hpairs := mapM_eq_ok_iff.mp h
  clear h
  induction hpairs with
  | nil => simp
  | @cons a b as bs hab _ ih =>
    constructor
    · rw [List.forall_mem_cons]
      refine ⟨⟨b, List.mem_cons_self, hab⟩, fun a' ha' => ?_⟩
      obtain ⟨b', hb', hf⟩ := ih.1 a' ha'
      exact ⟨b', List.mem_cons_of_mem b hb', hf⟩
    · rw [List.forall_mem_cons]
      refine ⟨⟨a, List.mem_cons_self, hab⟩, fun b' hb' => ?_⟩
      obtain ⟨a', ha', hf⟩ := ih.2 b' hb'
      exact ⟨a', List.mem_cons_of_mem a ha', hf⟩

end MapM

/-! ## Recorded points -/

namespace DeclaredVariable

variable {R : Type}

@[simp] theorem toDeclaration_record (v : DeclaredVariable R) (a : R) :
    (v.record a).toDeclaration = v.toDeclaration := rfl

variable [Scalar R]

@[simp] theorem current_record (v : DeclaredVariable R) (a : R) : (v.record a).current = a := by
  simp [current, current?, record]

@[simp] theorem current_ensurePoint (v : DeclaredVariable R) :
    v.ensurePoint.current = v.current := by
  unfold ensurePoint
  split
  · next h =>
    have hpoints : v.points = [] := List.isEmpty_iff.mp h
    simp [current, current?, hpoints, record]
  · rfl

@[simp] theorem toDeclaration_ensurePoint (v : DeclaredVariable R) :
    v.ensurePoint.toDeclaration = v.toDeclaration := by
  unfold ensurePoint
  split <;> rfl

end DeclaredVariable

variable {R : Type} [Scalar R]

omit [Scalar R] in
@[simp] theorem length_recordAll (vars : List (DeclaredVariable R)) (values : List R) :
    (recordAll vars values).length = min vars.length values.length :=
  List.length_zipWith

omit [Scalar R] in
/-- A record of enough values keeps the declarations. -/
theorem declarations_recordAll {vars : List (DeclaredVariable R)} {values : List R}
    (h : values.length = vars.length) :
    (recordAll vars values).map (·.toDeclaration) = vars.map (·.toDeclaration) := by
  apply List.ext_getElem
  · simp [h]
  · intro i hi hi'
    simp [recordAll]

/-- The values of the last record are the current ones. -/
theorem current_recordAll {vars : List (DeclaredVariable R)} {values : List R}
    (h : values.length = vars.length) :
    (recordAll vars values).map (·.current) = values := by
  apply List.ext_getElem
  · simp [h]
  · intro i hi hi'
    simp [recordAll]

@[simp] theorem length_values_ofAnswer (l : Lowered R) (count : Nat) (negate : List Bool)
    (a : Answer R) : (Solution.ofAnswer l count negate a).values.length = count := by
  simp [Solution.ofAnswer]

namespace SignomialProblem

variable (P : SignomialProblem R)

/-! ## Rounds -/

/-- The program of a round. -/
def lowered (vars : List (DeclaredVariable R)) (forms : List (GeometricForm R)) : Lowered R :=
  .ofProblem (vars.map (·.toDeclaration)) forms P.objective

/-- What a round saw and did, for each of its ends. -/
theorem pass_spec (k : Nat) (vars : List (DeclaredVariable R)) :
    match P.pass k vars with
    | .refused e => P.constraints.mapM (Constraint.approximate (vars.map (·.current))) = .error e
    | .failed p e => ∃ forms,
        P.constraints.mapM (Constraint.approximate (vars.map (·.current))) = .ok forms ∧
        p = (P.lowered vars forms).program ∧ P.solver k p = .error e
    | .rejected p a s => ∃ forms,
        P.constraints.mapM (Constraint.approximate (vars.map (·.current))) = .ok forms ∧
        p = (P.lowered vars forms).program ∧ P.solver k p = .ok a ∧
        s = .ofAnswer (P.lowered vars forms) vars.length (P.constraints.map (·.negateDual)) a ∧
        a.status.isAcceptable = false
    | .accepted p a s settled => ∃ forms,
        P.constraints.mapM (Constraint.approximate (vars.map (·.current))) = .ok forms ∧
        p = (P.lowered vars forms).program ∧ P.solver k p = .ok a ∧
        s = .ofAnswer (P.lowered vars forms) vars.length (P.constraints.map (·.negateDual)) a ∧
        a.status.isAcceptable = true ∧ settled = P.settles (vars.map (·.current)) s.values := by
  cases hforms : P.constraints.mapM (Constraint.approximate (vars.map (·.current))) with
  | error e =>
    have hpass : P.pass k vars = .refused e := by simp only [pass, hforms]
    rw [hpass]
  | ok forms =>
    cases ha : P.solver k (P.lowered vars forms).program with
    | error e =>
      -- the model does not name the program of a round
      unfold lowered at ha
      have hpass : P.pass k vars = .failed (P.lowered vars forms).program e := by
        simp only [pass, hforms, lowered, ha]
      rw [hpass]
      exact ⟨forms, rfl, rfl, ha⟩
    | ok a =>
      unfold lowered at ha
      by_cases hs : a.status.isAcceptable = true
      · have hpass : P.pass k vars = .accepted (P.lowered vars forms).program a
            (.ofAnswer (P.lowered vars forms) vars.length (P.constraints.map (·.negateDual)) a)
            (P.settles (vars.map (·.current)) (Solution.ofAnswer (P.lowered vars forms) vars.length
              (P.constraints.map (·.negateDual)) a).values) := by
          simp only [pass, hforms, lowered, ha, hs, if_true]
        rw [hpass]
        exact ⟨forms, rfl, rfl, ha, rfl, hs, rfl⟩
      · have hpass : P.pass k vars = .rejected (P.lowered vars forms).program a
            (.ofAnswer (P.lowered vars forms) vars.length (P.constraints.map (·.negateDual))
              a) := by
          simp only [pass, hforms, lowered, ha, if_neg hs]
        rw [hpass]
        exact ⟨forms, rfl, rfl, ha, rfl, by simpa using hs⟩

/-! ## Whole runs -/

/-- What every record of an accepted round keeps, a run keeps. -/
theorem iterate_vars {I : List (DeclaredVariable R) → Prop}
    (hstep : ∀ k vars p a s settled, I vars → P.pass k vars = .accepted p a s settled →
      I (recordAll vars s.values))
    (more k : Nat) (time : R) {vars : List (DeclaredVariable R)} (h : I vars) :
    I (P.iterate more k time vars).vars := by
  fun_induction P.iterate more k time vars with
  | case1 | case2 | case3 => exact h
  | case4 more k time vars p a s _ _ hpass => exact hstep k vars p a s true h hpass
  | case5 k time vars p a s settled hpass => exact hstep k vars p a s settled h hpass
  | case6 k time vars p a s settled hpass _ _ _ more rest ih =>
    exact ih (hstep k vars p a s settled h hpass)

/-- A run of one round asks once, if the constraints can be approximated. -/
theorem iterate_zero_calls {k : Nat} {time : R} {vars : List (DeclaredVariable R)}
    {forms : List (GeometricForm R)}
    (h : P.constraints.mapM (Constraint.approximate (vars.map (·.current))) = .ok forms) :
    (P.iterate 0 k time vars).calls =
      [⟨(P.lowered vars forms).program, P.solver k (P.lowered vars forms).program⟩] := by
  have hspec := P.pass_spec k vars
  unfold iterate
  cases hpass : P.pass k vars with
  | refused e =>
    rw [hpass, h] at hspec
    cases hspec
  | failed p e =>
    rw [hpass] at hspec
    obtain ⟨forms', hforms', rfl, ha⟩ := hspec
    obtain rfl : forms = forms' := Except.ok.inj (h.symm.trans hforms')
    rw [ha]
  | rejected p a s =>
    rw [hpass] at hspec
    obtain ⟨forms', hforms', rfl, ha, _⟩ := hspec
    obtain rfl : forms = forms' := Except.ok.inj (h.symm.trans hforms')
    rw [ha]
  | accepted p a s settled =>
    rw [hpass] at hspec
    obtain ⟨forms', hforms', rfl, ha, _⟩ := hspec
    obtain rfl : forms = forms' := Except.ok.inj (h.symm.trans hforms')
    rw [ha]
    cases settled <;> rfl

/-- A round that is accepted without settling asks first, then the rest of the run does. -/
theorem iterate_succ_calls (more k : Nat) (time : R) {vars : List (DeclaredVariable R)}
    {forms : List (GeometricForm R)} {a : Answer R} {x : Point R}
    (hforms : P.constraints.mapM (Constraint.approximate (vars.map (·.current))) = .ok forms)
    (ha : P.solver k (P.lowered vars forms).program = .ok a)
    (hstatus : a.status.isAcceptable = true)
    (hx : (Solution.ofAnswer (P.lowered vars forms) vars.length
      (P.constraints.map (·.negateDual)) a).values = x)
    (hunsettled : P.settles (vars.map (·.current)) x = false) :
    (P.iterate (more + 1) k time vars).calls = ⟨(P.lowered vars forms).program, .ok a⟩ ::
      (P.iterate more (k + 1) (time + a.time) (recordAll vars x)).calls := by
  have hpass : P.pass k vars = .accepted (P.lowered vars forms).program a
      (.ofAnswer (P.lowered vars forms) vars.length (P.constraints.map (·.negateDual)) a)
      false := by
    unfold lowered at ha hx ⊢
    simp only [pass, hforms, ha, hstatus, if_true, hx, hunsettled]
  rw [iterate, hpass, ← hx]
  rfl

/-- A round records a value with every variable. -/
theorem length_values_of_accepted {k : Nat} {vars : List (DeclaredVariable R)} {p : Program R}
    {a : Answer R} {s : Solution R} {settled : Bool}
    (h : P.pass k vars = .accepted p a s settled) : s.values.length = vars.length := by
  have hspec := P.pass_spec k vars
  rw [h] at hspec
  obtain ⟨_, _, _, _, rfl, _⟩ := hspec
  exact length_values_ofAnswer _ _ _ _

theorem run_vars (vars : List (DeclaredVariable R)) :
    (P.run vars).vars.map (·.toDeclaration) = vars.map (·.toDeclaration) := by
  apply P.iterate_vars (I := fun vs => vs.map (·.toDeclaration) = vars.map (·.toDeclaration))
  · intro k vs p a s settled h hpass
    rw [declarations_recordAll (P.length_values_of_accepted hpass), h]
  · simp [Function.comp_def]

end SignomialProblem

@[simp] theorem Model.runGeometric_vars (m : Model R) (solver : Solver R) :
    (m.runGeometric solver).vars = m.vars := by
  unfold runGeometric
  split <;> rfl

/-- A solve keeps every declaration. -/
theorem Model.run_vars (m : Model R) (solver : Solver R) :
    (m.run solver).vars.map (·.toDeclaration) = m.vars.map (·.toDeclaration) := by
  unfold run
  split
  · rw [runGeometric_vars]
  · exact (m.signomialProblem solver).run_vars m.vars

end LogConvex
