import LogConvex.Proofs.Handles

/- What a model owns of what it stores. Variables are checked against the model when a record
   is made, so every record that is made on a model is owned by it (`Model.attempt_owned`).
   The check is not part of the record. A copy takes the records of the other model as they
   are, with the other's handles in them, and does not own these: none of the handles in what
   it takes over passes its check, and it cannot evaluate the sides of a relation that it stores
   (`Workspace.owns_own_records`). Records of other models still share one thing with its own:
   all their variables were declared on one model (`Workspace.mentioned_owner`). -/
namespace LogConvex

variable {R : Type}

namespace Model

/-- The variables of each record: of the constraints, and of the objective. -/
def mentioned (m : Model R) : List (List Variable) :=
  m.constraints.map (·.relation.support) ++
    m.objective.toList.map fun o => Terms.occurrences o.terms

theorem mem_mentioned {m : Model R} {vs : List Variable} :
    vs ∈ m.mentioned ↔ (∃ c ∈ m.constraints, c.relation.support = vs) ∨
      ∃ o ∈ m.objective, Terms.occurrences o.terms = vs := by
  simp [mentioned]

variable [Scalar R]

/-- What an operation stores was checked against the model. -/
theorem attempt_owned {m m' : Model R} {op : Operation R} (h : m.attempt op = ⟨m', .ok ()⟩) :
    (m'.constraints = m.constraints ∨ ∃ c : Constraint R, m'.constraints = m.constraints ++ [c] ∧
      ∀ v ∈ c.relation.support, m.owns v = true) ∧
    (m'.objective = m.objective ∨
      ∀ o ∈ m'.objective, ∀ v ∈ Terms.occurrences o.terms, m.owns v = true) := by
  have hrecords := attempt_records h
  cases op with
  | addVariable d =>
    obtain ⟨_, rfl⟩ := hrecords
    exact ⟨.inl rfl, .inl rfl⟩
  | addConstraint r name =>
    obtain ⟨hadd, _⟩ := hrecords
    obtain ⟨howns, c, _, rfl, _⟩ := addConstraint_eq_ok_iff.mp hadd
    exact ⟨.inr ⟨⟨c, r, name⟩, rfl, howns⟩, .inl rfl⟩
  | setObjective d e =>
    obtain ⟨howns, o, ho, rfl⟩ := setObjective_eq_ok_iff.mp h
    refine ⟨.inl rfl, .inr ?_⟩
    rintro _ ⟨⟩ v hv
    obtain ⟨t, ht, hkey⟩ := Terms.mem_occurrences.mp hv
    exact howns v (((Objective.terms_ofExpr ho).2 t ht).2 v hkey)
  | setSettings s | setTolerances t =>
    obtain rfl := hrecords
    exact ⟨.inl rfl, .inl rfl⟩
  | solve solver =>
    obtain ⟨_, _, _, _, rfl⟩ := hrecords
    exact ⟨.inl rfl, .inl rfl⟩

theorem mentioned_of_attempt {m m' : Model R} {op : Operation R} (h : m.attempt op = ⟨m', .ok ()⟩)
    {vs : List Variable} (hvs : vs ∈ m'.mentioned) :
    vs ∈ m.mentioned ∨ ∀ v ∈ vs, m.owns v = true := by
  obtain ⟨hconstraints, hobjective⟩ := attempt_owned h
  rcases mem_mentioned.mp hvs with ⟨c, hc, rfl⟩ | ⟨o, ho, rfl⟩
  · rcases hconstraints with heq | ⟨c', heq, howns⟩
    · exact .inl (mem_mentioned.mpr (.inl ⟨c, heq ▸ hc, rfl⟩))
    · rw [heq, List.mem_append, List.mem_singleton] at hc
      rcases hc with hc | rfl
      · exact .inl (mem_mentioned.mpr (.inl ⟨c, hc, rfl⟩))
      · exact .inr howns
  · rcases hobjective with heq | howns
    · exact .inl (mem_mentioned.mpr (.inr ⟨o, heq ▸ ho, rfl⟩))
    · exact .inr (howns o ho)

end Model

/-! ## How models come about -/

namespace Workspace

variable [Scalar R]

/-- Everything in a run is made by operations and copies. -/
theorem run_induction {P : Model R → Prop} (hempty : ∀ id kind, P (.empty id kind))
    (hattempt : ∀ m m' op, P m → m.attempt op = ⟨m', .ok ()⟩ → P m')
    (hcopy : ∀ (m : Model R) id, m.id < id → P m → P { m with id := id })
    (requests : List (Request R)) {id : ModelId} {m : Model R}
    (hm : (run requests).get? id = some m) : P m := by
  induction requests using List.reverseRecOn generalizing id m with
  | nil => cases hm
  | append_singleton qs q ih =>
    rw [run_append, List.foldl_cons, List.foldl_nil] at hm
    rcases (placed_run qs).perform_cases hm with hm | hstarts | ⟨m₀, op, -, hm₀, hop⟩
    · exact ih hm
    · cases hstarts with
      | create kind => exact hempty id kind
      | @copy j m₀ hm₀ hj =>
        have hid : m₀.id = j := (placed_run qs j m₀ hm₀).1
        exact hcopy m₀ id (hid.trans_lt hj) (ih hm₀)
    · exact hattempt m₀ m op (ih hm₀) hop

/-- All variables of a record were declared on one model, which is not a later one. -/
theorem mentioned_owner {requests : List (Request R)} {id : ModelId} {m : Model R}
    (hm : (run requests).get? id = some m) :
    ∀ vs ∈ m.mentioned, ∃ j ≤ m.id, ∀ v ∈ vs, v.owner = j := by
  refine run_induction (P := fun m => ∀ vs ∈ m.mentioned, ∃ j ≤ m.id, ∀ v ∈ vs, v.owner = j)
    ?_ ?_ ?_ requests hm
  · intro id kind vs hvs
    cases hvs
  · intro m m' op ih hop vs hvs
    rw [(Model.attempt_records hop).keeps.id]
    rcases Model.mentioned_of_attempt hop hvs with hvs | howns
    · exact ih vs hvs
    · exact ⟨m.id, le_rfl, fun v hv => Model.owner_of_owns (howns v hv)⟩
  · intro m id hid ih vs hvs
    obtain ⟨j, hj, howner⟩ := ih vs hvs
    exact ⟨j, hj.trans hid.le, howner⟩

/-- Every model was made by one of the requests. -/
theorem exists_start {requests : List (Request R)} {id : ModelId} {m : Model R}
    (hm : (run requests).get? id = some m) :
    ∃ before q after m₀, requests = before ++ q :: after ∧ (run before).Starts id q m₀ ∧
      ((run before).perform q).get? id = some m₀ := by
  induction requests using List.reverseRecOn generalizing m with
  | nil => cases hm
  | append_singleton qs q ih =>
    cases hold : (run qs).get? id with
    | some m' =>
      obtain ⟨before, q', after, m₀, rfl, hstarts, hm₀⟩ := ih hold
      exact ⟨before, q', after ++ [q], m₀, by simp, hstarts, hm₀⟩
    | none =>
      rw [run_append, List.foldl_cons, List.foldl_nil] at hm
      rcases (placed_run qs).perform_cases hm with hm' | hstarts | ⟨m', op, -, hm', -⟩
      · rw [hold] at hm'
        cases hm'
      · exact ⟨qs, q, [], m, rfl, hstarts, hm⟩
      · rw [hold] at hm'
        cases hm'

/-- What the model starts with is foreign to it. -/
theorem Starts.owner_lt {before : List (Request R)} {id : ModelId} {q : Request R} {m₀ : Model R}
    (h : (run before).Starts id q m₀) : ∀ vs ∈ m₀.mentioned, ∀ v ∈ vs, v.owner < id := by
  cases h with
  | create kind =>
    intro vs hvs
    cases hvs
  | @copy j k hk hj =>
    intro vs hvs v hv
    obtain ⟨i, hi, howner⟩ := mentioned_owner hk vs hvs
    calc v.owner = i := howner v hv
      _ ≤ k.id := hi
      _ = j := (placed_run before j k hk).1
      _ < id := hj

end Workspace

/-! ## Records of a model and records that it took over -/

namespace Model

/-- The second model has what the first has, and records of its own, which it owns. -/
structure Grown (m₀ m : Model R) : Prop where
  constraints : ∃ own, m.constraints = m₀.constraints ++ own ∧
    ∀ c ∈ own, ∀ v ∈ c.relation.support, m.owns v = true
  objective : m.objective = m₀.objective ∨
    ∀ o ∈ m.objective, ∀ v ∈ Terms.occurrences o.terms, m.owns v = true

theorem Grown.refl (m : Model R) : m.Grown m where
  constraints := ⟨[], by simp, by simp⟩
  objective := .inl rfl

theorem Grown.attempt [Scalar R] {m₀ m m' : Model R} {op : Operation R} (h : m₀.Grown m)
    (hop : m.attempt op = ⟨m', .ok ()⟩) : m₀.Grown m' := by
  have hkeeps := (attempt_records hop).keeps
  obtain ⟨hconstraints, hobjective⟩ := attempt_owned hop
  obtain ⟨own, hown, howns⟩ := h.constraints
  constructor
  · rcases hconstraints with heq | ⟨c, heq, hc⟩
    · exact ⟨own, heq.trans hown, fun c hc v hv => hkeeps.owns (howns c hc v hv)⟩
    · refine ⟨own ++ [c], by rw [heq, hown, List.append_assoc], ?_⟩
      rw [List.forall_mem_append, List.forall_mem_singleton]
      exact ⟨fun c hc v hv => hkeeps.owns (howns c hc v hv), fun v hv => hkeeps.owns (hc v hv)⟩
  · rcases hobjective with heq | howns
    · rw [heq]
      exact h.objective.imp_right fun howns o ho v hv => hkeeps.owns (howns o ho v hv)
    · exact .inr fun o ho v hv => hkeeps.owns (howns o ho v hv)

variable [Scalar R]

/-- The model owns all variables of a constraint, so it can evaluate both sides. -/
structure OwnsConstraint (m : Model R) (c : Constraint R) : Prop where
  relation : ∀ v ∈ c.relation.support, m.owns v = true
  form : ∀ v ∈ Terms.occurrences c.form.terms, m.owns v = true
  lhs : m.evaluate c.relation.lhs = m.summary.map fun s => c.relation.lhs.evaluate s.values
  rhs : m.evaluate c.relation.rhs = m.summary.map fun s => c.relation.rhs.evaluate s.values

/-- The variables of a constraint have places in the model, but were declared on an earlier one.
A side without variables can be evaluated; any other is refused. -/
structure BorrowsConstraint (m : Model R) (c : Constraint R) : Prop where
  relation : ∀ v ∈ c.relation.support, v.owner < m.id ∧ v.index < m.vars.length
  form : ∀ v ∈ Terms.occurrences c.form.terms, v.owner < m.id ∧ v.index < m.vars.length
  lhs : c.relation.lhs.occurrences ≠ [] →
    m.Refused c.relation.lhs.support (m.evaluate c.relation.lhs)
  rhs : c.relation.rhs.occurrences ≠ [] →
    m.Refused c.relation.rhs.support (m.evaluate c.relation.rhs)

theorem evaluate_of_owns {m : Model R} {e : Expr R} (h : ∀ v ∈ e.occurrences, m.owns v = true) :
    m.evaluate e = m.summary.map fun s => e.evaluate s.values := by
  rw [evaluate, checkOwned_eq_ok_iff.mpr fun v hv => h v (Expr.mem_support.mp hv)]
  cases m.summary <;> rfl

omit [Scalar R] in
theorem not_owns_of_lt {m : Model R} {v : Variable} (h : v.owner < m.id) : m.owns v = false := by
  simp [owns, Nat.ne_of_lt h]

theorem refused_of_foreign {m : Model R} {e : Expr R} (h : ∀ v ∈ e.occurrences, v.owner < m.id)
    (hne : e.occurrences ≠ []) : m.Refused e.support (m.evaluate e) := by
  obtain ⟨v, hv⟩ := List.exists_mem_of_ne_nil _ hne
  have hforeign : m.owns v = false := not_owns_of_lt (h v hv)
  exact (refuses_of_not_owns hforeign).evaluate e (Expr.mem_support.mpr hv)

theorem Sound.ownsConstraint {m : Model R} (hm : m.Sound) {c : Constraint R}
    (hc : c ∈ m.constraints) (h : ∀ v ∈ c.relation.support, m.owns v = true) :
    m.OwnsConstraint c where
  relation := h
  form := fun v hv => h v (Relation.occurrences_of_normalize (hm.normal c hc) hv)
  lhs := evaluate_of_owns fun v hv => h v (Relation.mem_support.mpr (.inl hv))
  rhs := evaluate_of_owns fun v hv => h v (Relation.mem_support.mpr (.inr hv))

theorem Sound.borrowsConstraint {m : Model R} (hm : m.Sound) {c : Constraint R}
    (hc : c ∈ m.constraints) (h : ∀ v ∈ c.relation.support, v.owner < m.id) :
    m.BorrowsConstraint c where
  relation := fun v hv => ⟨h v hv, hm.relations c hc v hv⟩
  form := fun v hv => ⟨h v (Relation.occurrences_of_normalize (hm.normal c hc) hv),
    hm.forms c hc v hv⟩
  lhs := refused_of_foreign fun v hv => h v (Relation.mem_support.mpr (.inl hv))
  rhs := refused_of_foreign fun v hv => h v (Relation.mem_support.mpr (.inr hv))

end Model

namespace Workspace

variable [Scalar R]

/-- Take any model of any run. It started with nothing or as a copy of an earlier model, and has
the constraints that it started with, then its own. It owns its own constraints, and its objective
if it was set on this model. It borrows what it started with: the variables are those of the
earlier model, so the model refuses to evaluate what it stores. -/
theorem owns_own_records {requests : List (Request R)} {id : ModelId} {m : Model R}
    (hm : (run requests).get? id = some m) :
    ∃ before q after m₀ own, requests = before ++ q :: after ∧
      (run before).Starts id q m₀ ∧ m.constraints = m₀.constraints ++ own ∧
      (∀ c ∈ own, m.OwnsConstraint c) ∧
      (∀ c ∈ m₀.constraints, m.BorrowsConstraint c) ∧
      ((∀ o ∈ m.objective, ∀ v ∈ Terms.occurrences o.terms, m.owns v = true) ∨
        m.objective = m₀.objective ∧ ∀ o ∈ m.objective, ∀ v ∈ Terms.occurrences o.terms,
          v.owner < m.id ∧ v.index < m.vars.length) := by
  obtain ⟨before, q, after, m₀, rfl, hstart, hm₀⟩ := exists_start hm
  have hid : m.id = id := (placed_run _ id m hm).1
  have hsound := (placed_run _).sound hm
  obtain ⟨m', hm', hgrown⟩ := ((placed_run before).perform q).foldl_invariant
    (P := m₀.Grown) (fun _ _ _ h hop => h.attempt hop) hm₀ (.refl m₀) after
  obtain rfl : m = m' := by
    rw [run_append, List.foldl_cons] at hm
    exact Option.some.inj (hm.symm.trans hm')
  have hforeign := hstart.owner_lt
  rw [← hid] at hforeign
  obtain ⟨own, hown, howns⟩ := hgrown.constraints
  refine ⟨before, q, after, m₀, own, rfl, hstart, hown, ?_, ?_, ?_⟩
  · intro c hc
    exact hsound.ownsConstraint (hown ▸ List.mem_append_right _ hc) (howns c hc)
  · intro c hc
    exact hsound.borrowsConstraint (hown ▸ List.mem_append_left _ hc)
      (hforeign _ (Model.mem_mentioned.mpr (.inl ⟨c, hc, rfl⟩)))
  · rcases hgrown.objective with heq | howns
    · refine .inr ⟨heq, fun o ho v hv => ⟨?_, (hsound.objective o ho).2.2 v hv⟩⟩
      exact hforeign _ (Model.mem_mentioned.mpr (.inr ⟨o, heq ▸ ho, rfl⟩)) v hv
    · exact .inl howns

/-- The bound `v ≤ 2` on a variable. -/
def atMostTwo (v : Variable) : Relation Float := ⟨.ofVariable v, .atMost, .constant 2⟩

/-- A model with a bounded variable, and its copy, where another variable is bounded. -/
def boundedCopy : List (Request Float) :=
  [.create .geometric, .on 0 (.addVariable unbounded),
    .on 0 (.addConstraint (atMostTwo ⟨0, 0⟩) none), .copy 0, .on 1 (.addVariable unbounded),
    .on 1 (.addConstraint (atMostTwo ⟨1, 1⟩) none)]

/-- The copy has both constraints, and owns the second. -/
theorem owns_own_records_boundedCopy : ∃ m c₀ c₁, (run boundedCopy).get? 1 = some m ∧
    m.constraints = [c₀, c₁] ∧ m.BorrowsConstraint c₀ ∧ m.OwnsConstraint c₁ := by
  have hsupports : ((run boundedCopy).get? 1).map (fun m => m.constraints.map (·.relation.support)) =
      some [[⟨0, 0⟩], [⟨1, 1⟩]] := by decide +kernel
  obtain ⟨m, hm, hsupports⟩ := Option.map_eq_some_iff.mp hsupports
  obtain ⟨c₀, _, hc, h₀, hrest⟩ := List.map_eq_cons_iff.mp hsupports
  obtain ⟨c₁, _, rfl, h₁, hnil⟩ := List.map_eq_cons_iff.mp hrest
  obtain rfl := List.map_eq_nil_iff.mp hnil
  have hid : m.id = 1 := (placed_run boundedCopy 1 m hm).1
  obtain ⟨_, _, _, m₀, own, _, _, hown, howns, hborrows, _⟩ := owns_own_records hm
  have heither : ∀ c ∈ m.constraints, m.OwnsConstraint c ∨ m.BorrowsConstraint c := by
    intro c hmem
    rw [hown, List.mem_append] at hmem
    exact hmem.symm.imp (howns c) (hborrows c)
  refine ⟨m, c₀, c₁, hm, hc, ?_, ?_⟩
  · refine (heither c₀ (by simp [hc])).resolve_left fun h => ?_
    have hv := h.relation ⟨0, 0⟩ (by simp [h₀])
    simp [Model.owns, hid] at hv
  · refine (heither c₁ (by simp [hc])).resolve_right fun h => ?_
    have hv := (h.relation ⟨1, 1⟩ (by simp [h₁])).1
    simp [hid] at hv

/-- The copy stores a constraint on a variable that it does not own, and cannot evaluate the
constraint's left side. -/
theorem disowns_records_boundedCopy : ∃ m, (run boundedCopy).get? 1 = some m ∧
    ∃ c ∈ m.constraints, ∃ v ∈ c.relation.support, m.owns v = false ∧
      m.evaluate c.relation.lhs = .error (.foreignVariable "v0") := by
  have hsupports : ((run boundedCopy).get? 1).map (fun m => m.constraints.map
      fun c => (c.relation.support, c.relation.lhs.support)) =
        some [([⟨0, 0⟩], [⟨0, 0⟩]), ([⟨1, 1⟩], [⟨1, 1⟩])] := by decide +kernel
  obtain ⟨m, hm, hsupports⟩ := Option.map_eq_some_iff.mp hsupports
  obtain ⟨c, cs, hc, hsides, _⟩ := List.map_eq_cons_iff.mp hsupports
  obtain ⟨hsupport, hlhs⟩ := Prod.mk.inj hsides
  have hid : m.id = 1 := (placed_run boundedCopy 1 m hm).1
  have hforeign : m.owns ⟨0, 0⟩ = false := by simp [Model.owns, hid]
  refine ⟨m, hm, c, by simp [hc], ⟨0, 0⟩, by simp [hsupport], hforeign, ?_⟩
  obtain ⟨u, hu, _, hresult⟩ := (Model.refuses_of_not_owns hforeign).evaluate c.relation.lhs
    (by simp [hlhs])
  rw [hlhs, List.mem_singleton] at hu
  rw [hresult, hu]
  rfl

end Workspace

end LogConvex
