import LogConvex.Proofs.Operations

/- Handles stay with the model that issued them. An identity is the place of a model in the
   order of creation and a position is taken once, so two calls never hand out the same handle
   (`Workspace.Issues.injective`). A handle is owned by its issuer from then on and by no other
   model, copies included (`Workspace.Issues.owns_iff`). And a model refuses what it does not
   own wherever it is handed in: ownership is checked before anything else, over all variables
   of an expression or a relation (`Model.refuses_of_not_owns`). -/
namespace LogConvex

variable {R : Type}

namespace Model

/-! ## Refusing variables -/

/-- The result is the error that names a variable of the list which the model does not own. -/
def Refused {α : Type} (m : Model R) (vs : List Variable) (result : Except (Error R) α) : Prop :=
  ∃ u ∈ vs, m.owns u = false ∧ result = .error (.foreignVariable u.name)

theorem owns_iff_declared {m : Model R} {v : Variable} :
    m.owns v = true ↔ ∃ d, m.declared v = .ok d := by
  simp only [declared_eq_ok_iff, exists_and_right, owns, Bool.and_eq_true, beq_iff_eq,
    decide_eq_true_eq]
  constructor
  · rintro ⟨howner, hlt⟩
    exact ⟨⟨_, List.getElem?_eq_getElem hlt⟩, howner⟩
  · rintro ⟨⟨d, hd⟩, howner⟩
    exact ⟨howner, (List.getElem?_eq_some_iff.mp hd).1⟩

/-- What is owned stays owned. -/
theorem Keeps.owns {m m' : Model R} (h : m.Keeps m') {v : Variable} (hv : m.owns v = true) :
    m'.owns v = true := by
  obtain ⟨d, hd⟩ := owns_iff_declared.mp hv
  obtain ⟨d', hd', _⟩ := h.declared v d hd
  exact owns_iff_declared.mpr ⟨d', hd'⟩

theorem checkOwned_cases (m : Model R) (vs : List Variable) :
    m.checkOwned vs = .ok () ∨ m.Refused vs (m.checkOwned vs) := by
  unfold checkOwned
  cases hfind : vs.find? fun v => !m.owns v with
  | none => exact .inl rfl
  | some u =>
    have hu : m.owns u = false := by simpa using List.find?_some hfind
    exact .inr ⟨u, List.mem_of_find?_eq_some hfind, hu, rfl⟩

namespace Refused

variable {m : Model R} {vs ws : List Variable} {α β : Type} {x : Except (Error R) α}

theorem mono (h : m.Refused vs x) (hsub : ∀ u ∈ vs, u ∈ ws) : m.Refused ws x := by
  obtain ⟨u, hu, howns, hx⟩ := h
  exact ⟨u, hsub u hu, howns, hx⟩

/-- Nothing that would come after the check is done. -/
theorem bind (h : m.Refused vs x) (f : α → Except (Error R) β) : m.Refused vs (x >>= f) := by
  obtain ⟨u, hu, howns, rfl⟩ := h
  exact ⟨u, hu, howns, rfl⟩

theorem map (h : m.Refused vs x) (f : α → β) : m.Refused vs (x.map f) := by
  obtain ⟨u, hu, howns, rfl⟩ := h
  exact ⟨u, hu, howns, rfl⟩

theorem checkOwned {v : Variable} (hv : v ∈ vs) (howns : m.owns v = false) :
    m.Refused vs (m.checkOwned vs) := by
  rcases m.checkOwned_cases vs with hok | hrefused
  · rw [checkOwned_eq_ok_iff.mp hok v hv] at howns
    cases howns
  · exact hrefused

theorem declared {v : Variable} (howns : m.owns v = false) : m.Refused [v] (m.declared v) := by
  refine ⟨v, List.mem_singleton_self v, howns, ?_⟩
  unfold Model.declared
  split
  · next d hd =>
    -- the position exists, so it is the owner that differs
    have hlt : v.index < m.vars.length := (List.getElem?_eq_some_iff.mp hd).1
    have howner : ¬ (v.owner == m.id) = true := by simpa [owns, hlt] using howns
    rw [if_neg howner]
  · rfl

end Refused

variable [Scalar R]

/-- The model refuses the handle wherever it is handed in: alone, or as one of the variables of
an expression or of a relation. -/
structure Refuses (m : Model R) (v : Variable) : Prop where
  declared : m.Refused [v] (m.declared v)
  points : m.Refused [v] (m.points v)
  value : m.Refused [v] (m.value v)
  evaluate : ∀ e : Expr R, v ∈ e.support → m.Refused e.support (m.evaluate e)
  addConstraint : ∀ (r : Relation R) (name : Option String), v ∈ r.support →
    m.Refused r.support (m.addConstraint r name).outcome
  setObjective : ∀ (d : Direction) (e : Expr R), v ∈ e.support →
    m.Refused e.support (m.setObjective d e).outcome

theorem refuses_of_not_owns {m : Model R} {v : Variable} (howns : m.owns v = false) :
    m.Refuses v where
  declared := .declared howns
  points := (Refused.declared howns).map _
  value := (Refused.checkOwned (List.mem_singleton_self v) howns).bind _
  evaluate := fun _ hv => (Refused.checkOwned hv howns).bind _
  setObjective := by
    intro d e hv
    rw [setObjective_eq, Attempt.outcome_ofChecks]
    exact ((Refused.checkOwned hv howns).bind _).map _
  addConstraint := by
    intro r name hv
    rw [addConstraint_eq, Attempt.outcome_ofChecks]
    refine Refused.map ?_ _
    have hsides : v ∈ r.lhs.support ∨ v ∈ r.rhs.support :=
      (Relation.mem_support.mp hv).imp Expr.mem_support.mpr Expr.mem_support.mpr
    have hlhs : ∀ u ∈ r.lhs.support, u ∈ r.support := fun u hu =>
      Relation.mem_support.mpr (.inl (Expr.mem_support.mp hu))
    have hrhs : ∀ u ∈ r.rhs.support, u ∈ r.support := fun u hu =>
      Relation.mem_support.mpr (.inr (Expr.mem_support.mp hu))
    -- the left side is checked first, whichever side the variable is on
    rcases m.checkOwned_cases r.lhs.support with hok | hrefused
    · have hright : v ∈ r.rhs.support := by
        refine hsides.resolve_left fun hleft => ?_
        rw [checkOwned_eq_ok_iff.mp hok v hleft] at howns
        cases howns
      rw [hok]
      exact ((Refused.checkOwned hright howns).mono hrhs).bind _
    · exact (hrefused.mono hlhs).bind _

end Model

/-- The operation is given the variable. -/
def Operation.Mentions (op : Operation R) (v : Variable) : Prop :=
  match op with
  | .addConstraint r _ => v ∈ r.support
  | .setObjective _ e => v ∈ e.support
  | _ => False

theorem Model.Refuses.attempt [Scalar R] {m : Model R} {v : Variable} (h : m.Refuses v)
    {op : Operation R} (hop : op.Mentions v) :
    ∃ u, m.owns u = false ∧ (m.attempt op).outcome = .error (.foreignVariable u.name) := by
  cases op with
  | addConstraint r name =>
    obtain ⟨u, _, howns, hr⟩ := (h.addConstraint r name hop).map fun _ => ()
    exact ⟨u, howns, hr⟩
  | setObjective d e =>
    obtain ⟨u, _, howns, he⟩ := h.setObjective d e hop
    exact ⟨u, howns, he⟩
  | addVariable | setSettings | setTolerances | solve => cases hop

/-! ## Issued handles -/

namespace Workspace

variable [Scalar R]

/-- Request number `k` of a run declares a variable of the model `id`, and returns `v`. -/
def Issues (requests : List (Request R)) (k : Nat) (id : ModelId) (v : Variable) : Prop :=
  ∃ d m m', requests[k]? = some (.on id (.addVariable d)) ∧
    (run (requests.take k)).get? id = some m ∧ m.addVariable d = ⟨m', .ok v⟩

theorem run_append (before after : List (Request R)) :
    run (before ++ after) = after.foldl perform (run before) :=
  List.foldl_append

omit [Scalar R] in
/-- The requests before one of the first `n`, that one, and those after it. -/
theorem take_eq_append {requests : List (Request R)} {i n : Nat} {q : Request R}
    (hq : requests[i]? = some q) (hin : i < n) :
    requests.take n = requests.take i ++ q :: (requests.take n).drop (i + 1) := by
  obtain ⟨hi, rfl⟩ := List.getElem?_eq_some_iff.mp hq
  have hlt : i < (requests.take n).length := by
    rw [List.length_take]
    omega
  calc requests.take n = (requests.take n).take i ++ (requests.take n).drop i :=
        (List.take_append_drop i _).symm
    _ = requests.take i ++ requests[i] :: (requests.take n).drop (i + 1) := by
      rw [List.take_take, Nat.min_eq_left hin.le, List.drop_eq_getElem_cons hlt,
        List.getElem_take]

theorem placed_run (requests : List (Request R)) : (run requests).Placed :=
  placed_empty.foldl requests

namespace Issues

variable {requests : List (Request R)} {i j : Nat} {id id' : ModelId} {v : Variable}

theorem owner (h : Issues requests i id v) : v.owner = id := by
  obtain ⟨d, m, m', _, hm, hadd⟩ := h
  obtain ⟨_, _, rfl⟩ := Model.addVariable_eq_ok_iff.mp hadd
  exact (placed_run _ id m hm).1

/-- From the call on, the model owns the variable. -/
theorem owns (h : Issues requests i id v) {n : Nat} (hin : i < n) {m : Model R}
    (hm : (run (requests.take n)).get? id = some m) : m.owns v = true := by
  obtain ⟨d, m₀, m₁, hq, hm₀, hadd⟩ := h
  have hattempt : m₀.attempt (.addVariable d) = ⟨m₁, .ok ()⟩ :=
    Attempt.discard_eq_ok_iff.mpr ⟨v, hadd⟩
  have hissued : m₁.owns v = true := by
    obtain ⟨_, rfl, rfl⟩ := Model.addVariable_eq_ok_iff.mp hadd
    simp [Model.owns]
  have hplaced := placed_run (requests.take i)
  obtain ⟨m', hm', hkeeps⟩ := (hplaced.perform _).foldl_keeps
    ((hplaced.get?_perform_on hm₀ hattempt id).trans (if_pos rfl)) ((requests.take n).drop (i + 1))
  obtain rfl : m = m' := by
    rw [take_eq_append hq hin, run_append, List.foldl_cons] at hm
    exact Option.some.inj (hm.symm.trans hm')
  exact hkeeps.owns hissued

/-- No call returns a handle that an earlier one returned. -/
theorem not_later (h : Issues requests i id v) (hij : i < j) : ¬ Issues requests j id' v := by
  intro h'
  obtain rfl : id = id' := h.owner.symm.trans h'.owner
  obtain ⟨d, m, m', _, hm, hadd⟩ := h'
  -- the new position is the number of variables, and the earlier one is below that
  have hlt := Model.lt_of_owns (h.owns hij hm)
  obtain ⟨_, _, rfl⟩ := Model.addVariable_eq_ok_iff.mp hadd
  exact Nat.lt_irrefl _ hlt

theorem injective (h : Issues requests i id v) (h' : Issues requests j id' v) : i = j := by
  rcases Nat.lt_trichotomy i j with hij | hij | hij
  · exact absurd h' (h.not_later hij)
  · exact hij
  · exact absurd h (h'.not_later hij)

/-- Of all models, its issuer alone owns the handle. -/
theorem owns_iff (h : Issues requests i id v) {m : Model R}
    (hm : (run requests).get? id' = some m) : m.owns v = true ↔ id' = id := by
  have hid : m.id = id' := (placed_run requests id' m hm).1
  constructor
  · intro howns
    calc id' = m.id := hid.symm
      _ = v.owner := (Model.owner_of_owns howns).symm
      _ = id := h.owner
  · rintro rfl
    have hi : i < requests.length := by
      obtain ⟨_, _, _, hq, _⟩ := h
      exact (List.getElem?_eq_some_iff.mp hq).1
    exact h.owns hi (by rwa [List.take_length])

end Issues

/-- Handles never cross models. In any run, two calls that declare variables return different
handles. A handle belongs to the model that issued it and to no other: any other model, a copy
or an original of the issuer included, refuses it wherever it is handed in, and such a request
leaves all models as they are. -/
theorem handles_never_cross (requests : List (Request R)) :
    (∀ i j id id' v, Issues requests i id v → Issues requests j id' v → i = j) ∧
    ∀ i id v, Issues requests i id v → ∀ id' m, (run requests).get? id' = some m →
      (m.owns v = true ↔ id' = id) ∧
      (id' ≠ id → m.Refuses v ∧ ∀ op : Operation R, op.Mentions v →
        run (requests ++ [.on id' op]) = run requests) := by
  refine ⟨fun i j id id' v h h' => h.injective h', ?_⟩
  intro i id v h id' m hm
  refine ⟨h.owns_iff hm, fun hne => ?_⟩
  have hrefuses : m.Refuses v := by
    apply Model.refuses_of_not_owns
    rw [Bool.eq_false_iff]
    exact fun howns => hne ((h.owns_iff hm).mp howns)
  refine ⟨hrefuses, fun op hop => ?_⟩
  obtain ⟨u, _, herror⟩ := hrefuses.attempt hop
  rw [run_append]
  exact (placed_run requests).perform_on_of_error hm (Model.attempt_of_error herror)

/-- A variable without any numbers. -/
def unbounded : Declaration Float := ⟨"x", none, none, none, none⟩

/-- A model with one variable, and a copy of it with one more. -/
def extendedCopy : List (Request Float) :=
  [.create .geometric, .on 0 (.addVariable unbounded), .copy 0, .on 1 (.addVariable unbounded)]

/-- The copy has a variable in the place of the original's, but refuses its handle. -/
theorem handles_never_cross_extendedCopy :
    Issues extendedCopy 1 0 ⟨0, 0⟩ ∧ Issues extendedCopy 3 1 ⟨1, 1⟩ ∧
      ∃ m, (run extendedCopy).get? 1 = some m ∧ m.vars.length = 2 ∧
        m.value ⟨0, 0⟩ = .error (.foreignVariable "v0") ∧
        run (extendedCopy ++ [.on 1 (.setObjective .minimize (.ofVariable ⟨0, 0⟩))]) =
          run extendedCopy := by
  have hfirst : Issues extendedCopy 1 0 ⟨0, 0⟩ := ⟨unbounded, _, _, rfl, rfl, rfl⟩
  have hsecond : Issues extendedCopy 3 1 ⟨1, 1⟩ := ⟨unbounded, _, _, rfl, rfl, rfl⟩
  obtain ⟨m, hm, hlength⟩ : ∃ m, (run extendedCopy).get? 1 = some m ∧ m.vars.length = 2 :=
    ⟨_, rfl, rfl⟩
  obtain ⟨-, hcross⟩ := handles_never_cross extendedCopy
  obtain ⟨-, hforeign⟩ := hcross 1 0 ⟨0, 0⟩ hfirst 1 m hm
  obtain ⟨hrefuses, hunchanged⟩ := hforeign (by decide)
  refine ⟨hfirst, hsecond, m, hm, hlength, ?_, hunchanged _ ?_⟩
  · obtain ⟨u, hu, -, hvalue⟩ := hrefuses.value
    rw [hvalue, List.mem_singleton.mp hu]
    rfl
  · show ⟨0, 0⟩ ∈ (Expr.ofVariable ⟨0, 0⟩ : Expr Float).support
    decide +kernel

end Workspace

end LogConvex
