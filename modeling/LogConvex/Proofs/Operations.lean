import LogConvex.Proofs.History
import LogConvex.Proofs.Laws
import LogConvex.Workspace

/- What holds of a model whatever was done before, and stays whatever is done later. A run is
   any list of requests to a workspace: models are created and copied, and operations are
   tried on them, which may fail. Three things are shown of every model in it:

   1. it is sound: the checks of declarations still hold of everything that it stores
      (`Agrees.sound`);
   2. an operation that fails leaves the model as it is (`attempt_of_error`), and one that
      succeeds does what it says (`attempt_records`);
   3. what a handle names stays what it is (`Keeps`); a solve only adds points.

   The first follows from the history of the model alone: by the second, it has no trace of
   operations that failed (`Placed.perform`). Nothing depends on the solvers or on the arithmetic. -/
namespace LogConvex

variable {R : Type}

/-- What can be tried on a model. -/
inductive Operation (R : Type) where
  | addVariable (d : Declaration R)
  | addConstraint (r : Relation R) (name : Option String)
  | setObjective (d : Direction) (e : Expr R)
  | setSettings (s : Settings R)
  | setTolerances (t : Tolerances R)
  | solve (solver : Solver R)

/-- What can be asked of a workspace. -/
inductive Request (R : Type) where
  | create (kind : ModelKind)
  | copy (id : ModelId)
  | on (id : ModelId) (op : Operation R)

/-! ## Points of variables -/

namespace DeclaredVariable

/-- The second variable is declared as the first, and has all its points. -/
def Extends (d d' : DeclaredVariable R) : Prop :=
  d'.toDeclaration = d.toDeclaration ∧ d.points <+: d'.points

theorem Extends.refl (d : DeclaredVariable R) : d.Extends d := ⟨rfl, List.prefix_refl _⟩

theorem Extends.trans {d d' d'' : DeclaredVariable R} (h : d.Extends d') (h' : d'.Extends d'') :
    d.Extends d'' :=
  ⟨h'.1.trans h.1, h.2.trans h'.2⟩

theorem extends_record (d : DeclaredVariable R) (x : R) : d.Extends (d.record x) :=
  ⟨rfl, List.prefix_append _ _⟩

theorem extends_ensurePoint [Scalar R] (d : DeclaredVariable R) : d.Extends d.ensurePoint := by
  unfold ensurePoint
  split
  · exact extends_record d _
  · exact .refl d

end DeclaredVariable

/-- The variables of the first list are where they were, with more points. -/
def Extended (vs vs' : List (DeclaredVariable R)) : Prop :=
  ∀ (i : Nat) (d : DeclaredVariable R), vs[i]? = some d → ∃ d', vs'[i]? = some d' ∧ d.Extends d'

namespace Extended

variable {vs vs' : List (DeclaredVariable R)}

theorem refl (vs : List (DeclaredVariable R)) : Extended vs vs :=
  fun _ d hd => ⟨d, hd, .refl d⟩

theorem append (vs more : List (DeclaredVariable R)) : Extended vs (vs ++ more) := by
  intro i d hd
  have hi : i < vs.length := (List.getElem?_eq_some_iff.mp hd).1
  exact ⟨d, by rwa [List.getElem?_append_left hi], .refl d⟩

theorem ensurePoint [Scalar R] (vs : List (DeclaredVariable R)) :
    Extended vs (vs.map (·.ensurePoint)) := by
  intro i d hd
  exact ⟨d.ensurePoint, by rw [List.getElem?_map, hd, Option.map_some], d.extends_ensurePoint⟩

theorem recordAll (h : Extended vs vs') {values : List R} (hlength : values.length = vs'.length) :
    Extended vs (recordAll vs' values) := by
  intro i d hd
  obtain ⟨d', hd', hext⟩ := h i d hd
  have hi : i < values.length := by
    rw [hlength]
    exact (List.getElem?_eq_some_iff.mp hd').1
  refine ⟨d'.record values[i], ?_, hext.trans (d'.extends_record _)⟩
  rw [LogConvex.recordAll, List.getElem?_zipWith, hd', List.getElem?_eq_getElem hi]

end Extended

variable [Scalar R]

theorem SignomialProblem.run_extended (P : SignomialProblem R) (vs : List (DeclaredVariable R)) :
    Extended vs (P.run vs).vars := by
  apply P.iterate_vars
  · intro k vs' p a s settled h hpass
    exact h.recordAll (P.length_values_of_accepted hpass)
  · exact .ensurePoint vs

/-! ## Attempts -/

namespace Attempt

variable {α β : Type}

/-- The attempt without its result. -/
def discard (a : Attempt R α) : Attempt R Unit := ⟨a.model, a.outcome.map fun _ => ()⟩

omit [Scalar R] in
theorem discard_eq_ok_iff {a : Attempt R α} {m : Model R} :
    a.discard = ⟨m, .ok ()⟩ ↔ ∃ x, a = ⟨m, .ok x⟩ := by
  obtain ⟨model, outcome⟩ := a
  cases outcome <;> simp [discard, Except.map]

omit [Scalar R] in
theorem discard_ofChecks {m : Model R} {checks : Except (Error R) β} {change : β → Model R}
    {result : β → α} : (ofChecks m checks change result).discard =
      ofChecks m checks change fun _ => () := by
  cases checks <;> rfl

end Attempt

namespace Model

theorem run_extended (m : Model R) (solver : Solver R) : Extended m.vars (m.run solver).vars := by
  unfold run
  split
  · rw [runGeometric_vars]
    exact .refl _
  · exact (m.signomialProblem solver).run_extended m.vars

/-! ## Sound models -/

/-- Everything that the model stores has passed its check. -/
structure Sound (m : Model R) : Prop where
  /-- Constraints are stored with the canonical form of their relation. -/
  normal : ∀ c ∈ m.constraints,
    c.relation.normalize (m.kind == .signomial) = .ok c.toCanonical
  geometric : m.kind = .geometric → ∀ c ∈ m.constraints, c.form.isSignomial = false
  /-- Only variables that were declared occur. -/
  relations : ∀ c ∈ m.constraints, ∀ v ∈ c.relation.support, v.index < m.vars.length
  forms : ∀ c ∈ m.constraints, ∀ v ∈ Terms.occurrences c.form.terms, v.index < m.vars.length
  objective : ∀ o ∈ m.objective, o.terms ≠ [] ∧
    (∀ t ∈ o.terms, Scalar.isFinite t.coefficient = true ∧ 0 < t.coefficient) ∧
    ∀ v ∈ Terms.occurrences o.terms, v.index < m.vars.length
  /-- The numbers in declarations are positive. -/
  given : ∀ d ∈ m.vars, ∀ x, d.lower = some x ∨ d.upper = some x ∨ d.fixed = some x ∨
    d.start = some x → Scalar.isFinite x = true ∧ 0 < x
  fixed : ∀ d ∈ m.vars, d.fixed.isSome = true → d.lower = none ∧ d.upper = none
  /-- Bounds do not cross. -/
  ordered : ∀ d ∈ m.vars, ∀ u ∈ d.effectiveUpper,
    ¬ u < d.effectiveLower ∧ (LawfulScalar R → d.effectiveLower ≤ u)

end Model

theorem Declaration.effectiveLower_le [LawfulScalar R] {d : Declaration R}
    (hd : d.fault? = none) {u : R} (hu : d.upper = some u) : d.effectiveLower ≤ u := by
  refine LawfulScalar.le_of_not_lt ?_ (admissible hd (.inr (.inl hu))).1
    (not_lt_effectiveLower hd hu)
  unfold effectiveLower
  cases hl : d.lower with
  | none => exact LawfulScalar.isFinite_defaultLower
  | some l => exact (admissible hd (.inl hl)).1

namespace Model

theorem Agrees.sound {m : Model R} {w : Written R} (h : m.Agrees w) : m.Sound where
  normal := h.normal
  geometric := by
    intro hkind c hc
    have hnormal := h.normal c hc
    rw [hkind] at hnormal
    obtain ⟨g, hg⟩ := Relation.geometric_of_normalize hnormal
    rw [hg]
    rfl
  relations := by
    intro c hc v hv
    rw [h.length]
    exact h.declared c.relation (h.mem_relations hc) v hv
  forms := by
    intro c hc v hv
    rw [h.length]
    exact h.declared c.relation (h.mem_relations hc) v
      (Relation.occurrences_of_normalize (h.normal c hc) hv)
  objective := by
    intro o ho
    obtain ⟨g, hg, hexpr⟩ := h.exists_goal ho
    obtain ⟨hne, hterms⟩ := Objective.terms_ofExpr hexpr
    refine ⟨hne, fun t ht => ⟨Objective.isFinite_of_ofExpr hexpr t ht, (hterms t ht).1⟩, ?_⟩
    intro v hv
    obtain ⟨t, ht, hkey⟩ := Terms.mem_occurrences.mp hv
    rw [h.length]
    exact h.declaredGoal g hg v ((hterms t ht).2 v hkey)
  given := fun d hd x hx => Declaration.admissible (h.fault? d hd) hx
  fixed := fun d hd hfixed => Declaration.bounds_of_fixed (h.fault? d hd) hfixed
  ordered := by
    intro d hd u hu
    have hfault := h.fault? d hd
    exact ⟨Declaration.not_lt_effectiveLower hfault hu,
      fun _ => Declaration.effectiveLower_le hfault hu⟩

/-! ## What operations do -/

/-- What an operation leaves behind. A solve is done also when it ends with an error. -/
def attempt (m : Model R) : Operation R → Attempt R Unit
  | .addVariable d => (m.addVariable d).discard
  | .addConstraint r name => (m.addConstraint r name).discard
  | .setObjective d e => m.setObjective d e
  | .setSettings s => ⟨{ m with settings := s }, .ok ()⟩
  | .setTolerances t => ⟨{ m with tolerances := t }, .ok ()⟩
  | .solve solver => ⟨(m.solveWith solver).model, .ok ()⟩

/-- An operation that fails leaves the model as it is. -/
theorem attempt_of_error {m : Model R} {op : Operation R} {e : Error R}
    (h : (m.attempt op).outcome = .error e) : m.attempt op = ⟨m, .error e⟩ := by
  cases op with
  | addVariable d =>
    rw [attempt, addVariable_eq, Attempt.discard_ofChecks] at h ⊢
    exact Attempt.ofChecks_of_error h
  | addConstraint r name =>
    rw [attempt, addConstraint_eq, Attempt.discard_ofChecks] at h ⊢
    exact Attempt.ofChecks_of_error h
  | setObjective d e =>
    rw [attempt, setObjective_eq] at h ⊢
    exact Attempt.ofChecks_of_error h
  | setSettings | setTolerances | solve => cases h

theorem attempt_cases (m : Model R) (op : Operation R) :
    (∃ e, m.attempt op = ⟨m, .error e⟩) ∨ ∃ m', m.attempt op = ⟨m', .ok ()⟩ := by
  cases h : (m.attempt op).outcome with
  | error e => exact .inl ⟨e, attempt_of_error h⟩
  | ok _ => exact .inr ⟨(m.attempt op).model, by rw [← h]⟩

/-- An operation that succeeds makes one record, or replaces one thing, and hands out the next
handle. A solve adds points and keeps a solution. -/
def Records (m : Model R) (op : Operation R) (m' : Model R) : Prop :=
  match op with
  | .addVariable d => m.addVariable d = ⟨m', .ok ⟨m.id, m.vars.length⟩⟩ ∧
      m' = { m with vars := m.vars ++ [⟨d, []⟩] }
  | .addConstraint r name => m.addConstraint r name = ⟨m', .ok m.constraints.length⟩ ∧
      ∃ c : Constraint R, c.relation = r ∧ c.name = name ∧
        m' = { m with constraints := m.constraints ++ [c] }
  | .setObjective d e => m.setObjective d e = ⟨m', .ok ()⟩ ∧
      ∃ o : Objective R, o.direction = d ∧ m' = { m with objective := some o }
  | .setSettings s => m' = { m with settings := s }
  | .setTolerances t => m' = { m with tolerances := t }
  | .solve _ => ∃ vars solution, Extended m.vars vars ∧ vars.length = m.vars.length ∧
      m' = { m with vars := vars, solution := solution }

theorem attempt_records {m m' : Model R} {op : Operation R} (h : m.attempt op = ⟨m', .ok ()⟩) :
    m.Records op m' := by
  cases op with
  | addVariable d =>
    obtain ⟨v, hadd⟩ := Attempt.discard_eq_ok_iff.mp h
    obtain ⟨_, hm, rfl⟩ := addVariable_eq_ok_iff.mp hadd
    exact ⟨hadd, hm⟩
  | addConstraint r name =>
    obtain ⟨i, hadd⟩ := Attempt.discard_eq_ok_iff.mp h
    obtain ⟨_, c, _, hm, rfl⟩ := addConstraint_eq_ok_iff.mp hadd
    exact ⟨hadd, ⟨c, r, name⟩, rfl, rfl, hm⟩
  | setObjective d e =>
    obtain ⟨_, o, ho, hm⟩ := setObjective_eq_ok_iff.mp h
    exact ⟨h, o, Objective.direction_ofExpr ho, hm⟩
  | setSettings s | setTolerances t => exact (congrArg Attempt.model h).symm
  | solve solver =>
    have hlength := congrArg List.length (m.run_vars solver)
    rw [List.length_map, List.length_map] at hlength
    exact ⟨_, _, m.run_extended solver, hlength, (congrArg Attempt.model h).symm⟩

theorem attempt_addVariable (m : Model R) {d : Declaration R} (hd : d.fault? = none) :
    m.attempt (.addVariable d) = ⟨{ m with vars := m.vars ++ [⟨d, []⟩] }, .ok ()⟩ :=
  Attempt.discard_eq_ok_iff.mpr ⟨_, addVariable_eq_ok_iff.mpr ⟨hd, rfl, rfl⟩⟩

theorem attempt_addConstraint {m : Model R} {r : Relation R} {name : Option String}
    {c : Canonical R} (howns : ∀ v ∈ r.support, m.owns v = true)
    (hc : r.normalize (m.kind == .signomial) = .ok c) : m.attempt (.addConstraint r name) =
      ⟨{ m with constraints := m.constraints ++ [⟨c, r, name⟩] }, .ok ()⟩ :=
  Attempt.discard_eq_ok_iff.mpr ⟨_, addConstraint_eq_ok_iff.mpr ⟨howns, c, hc, rfl, rfl⟩⟩

/-- The first model's handles name the same things in the second. -/
structure Keeps (m m' : Model R) : Prop where
  id : m'.id = m.id
  kind : m'.kind = m.kind
  /-- A variable may have more points. -/
  declared : ∀ v d, m.declared v = .ok d → ∃ d', m'.declared v = .ok d' ∧ d.Extends d'
  constraints : ∀ (i : Nat) (c : Constraint R), m.constraints[i]? = some c →
    m'.constraints[i]? = some c

omit [Scalar R] in
theorem declared_eq_ok_iff {m : Model R} {v : Variable} {d : DeclaredVariable R} :
    m.declared v = .ok d ↔ m.vars[v.index]? = some d ∧ v.owner = m.id := by
  unfold declared
  cases m.vars[v.index]? with
  | none => simp
  | some d' =>
    by_cases h : v.owner = m.id <;> simp [h]

namespace Keeps

omit [Scalar R] in
theorem refl (m : Model R) : m.Keeps m where
  id := rfl
  kind := rfl
  declared := fun _ d hd => ⟨d, hd, .refl d⟩
  constraints := fun _ _ hc => hc

omit [Scalar R] in
theorem trans {m m' m'' : Model R} (h : m.Keeps m') (h' : m'.Keeps m'') : m.Keeps m'' where
  id := h'.id.trans h.id
  kind := h'.kind.trans h.kind
  declared := by
    intro v d hd
    obtain ⟨d', hd', hext⟩ := h.declared v d hd
    obtain ⟨d'', hd'', hext'⟩ := h'.declared v d' hd'
    exact ⟨d'', hd'', hext.trans hext'⟩
  constraints := fun i c hc => h'.constraints i c (h.constraints i c hc)

omit [Scalar R] in
theorem of_extended {m m' : Model R} (hid : m'.id = m.id) (hkind : m'.kind = m.kind)
    (hvars : Extended m.vars m'.vars) (hconstraints : m.constraints <+: m'.constraints) :
    m.Keeps m' where
  id := hid
  kind := hkind
  declared := by
    intro v d hd
    obtain ⟨hget, howner⟩ := declared_eq_ok_iff.mp hd
    obtain ⟨d', hd', hext⟩ := hvars _ d hget
    exact ⟨d', declared_eq_ok_iff.mpr ⟨hd', howner.trans hid.symm⟩, hext⟩
  constraints := by
    intro i c hc
    obtain ⟨more, hmore⟩ := hconstraints
    rw [← hmore, List.getElem?_append_left (List.getElem?_eq_some_iff.mp hc).1, hc]

end Keeps

theorem Records.keeps {m m' : Model R} {op : Operation R} (h : m.Records op m') : m.Keeps m' := by
  cases op with
  | addVariable d =>
    obtain ⟨_, rfl⟩ := h
    exact .of_extended rfl rfl (.append _ _) (List.prefix_refl _)
  | addConstraint r name =>
    obtain ⟨_, c, _, _, rfl⟩ := h
    exact .of_extended rfl rfl (.refl _) (List.prefix_append _ _)
  | setObjective d e =>
    obtain ⟨_, o, _, rfl⟩ := h
    exact .of_extended rfl rfl (.refl _) (List.prefix_refl _)
  | setSettings s | setTolerances t =>
    obtain rfl := h
    exact .of_extended rfl rfl (.refl _) (List.prefix_refl _)
  | solve solver =>
    obtain ⟨vars, _, hvars, _, rfl⟩ := h
    exact .of_extended rfl rfl hvars (List.prefix_refl _)

end Model

/-! ## Runs -/

namespace Workspace

/-- Does what is asked, as far as it can be done. -/
def perform (w : Workspace R) : Request R → Workspace R
  | .create kind => (w.create kind).1
  | .copy id =>
    match w.get? id with
    | some m => (w.adopt m).1
    | none => w
  | .on id op =>
    match w.get? id with
    | some m => w.put (m.attempt op).model
    | none => w

/-- What requests leave behind, from the beginning. -/
def run (requests : List (Request R)) : Workspace R := requests.foldl perform empty

/-- Every model is at the place that its identity names, and has a history. -/
def Placed (w : Workspace R) : Prop :=
  ∀ id m, w.get? id = some m → m.id = id ∧ ∃ p, Model.Reach (fun _ => True) m p

end Workspace

theorem Model.Reach.attempt {m m' : Model R} {p : Written R}
    (hm : Model.Reach (fun _ => True) m p) {op : Operation R}
    (h : m.attempt op = ⟨m', .ok ()⟩) : ∃ p', Model.Reach (fun _ => True) m' p' := by
  cases op with
  | addVariable d => exact ⟨_, hm.step (.addVariable (attempt_records h).1)⟩
  | addConstraint r name => exact ⟨_, hm.step (.addConstraint (attempt_records h).1)⟩
  | setObjective d e => exact ⟨_, hm.step (.setObjective h)⟩
  | setSettings s =>
    obtain rfl := attempt_records h
    exact ⟨_, hm.step (.setSettings s)⟩
  | setTolerances t =>
    obtain rfl := attempt_records h
    exact ⟨_, hm.step (.setTolerances t)⟩
  | solve solver =>
    obtain rfl := congrArg Attempt.model h
    exact ⟨_, hm.step (.solve trivial)⟩

namespace Workspace

omit [Scalar R] in
theorem get?_adopt {w : Workspace R} {m m' : Model R} {id : ModelId} :
    (w.adopt m).1.get? id = some m' ↔
      w.get? id = some m' ∨ id = w.models.length ∧ m' = { m with id := id } := by
  show (w.models ++ [{ m with id := w.models.length }])[id]? = some m' ↔ w.models[id]? = some m' ∨ _
  rcases Nat.lt_trichotomy id w.models.length with h | h | h
  · rw [List.getElem?_append_left h]
    simp [Nat.ne_of_lt h]
  · rw [List.getElem?_append_right (Nat.le_of_eq h.symm), List.getElem?_eq_none (Nat.le_of_eq h.symm)]
    simp [h, eq_comm]
  · rw [List.getElem?_eq_none (by simpa using h), List.getElem?_eq_none (Nat.le_of_lt h)]
    simp [Nat.ne_of_gt h]

omit [Scalar R] in
theorem get?_put {w : Workspace R} {m m' : Model R} (hm : w.get? m'.id = some m) (id : ModelId) :
    (w.put m').get? id = if id = m'.id then some m' else w.get? id := by
  have hlt : m'.id < w.models.length := (List.getElem?_eq_some_iff.mp hm).1
  show (w.models.set m'.id m')[id]? = if id = m'.id then some m' else w.models[id]?
  rw [List.getElem?_set]
  by_cases h : id = m'.id
  · rw [if_pos h, if_pos h.symm, if_pos hlt]
  · rw [if_neg h, if_neg (Ne.symm h)]

omit [Scalar R] in
theorem put_self {w : Workspace R} {m : Model R} (hm : w.get? m.id = some m) : w.put m = w := by
  obtain ⟨hlt, hget⟩ := List.getElem?_eq_some_iff.mp hm
  rw [put]
  nth_rewrite 2 [← hget]
  rw [List.set_getElem_self]

theorem perform_on {w : Workspace R} {id : ModelId} {m : Model R} (hm : w.get? id = some m)
    (op : Operation R) : w.perform (.on id op) = w.put (m.attempt op).model := by
  simp only [perform, hm]

theorem perform_on_of_none {w : Workspace R} {id : ModelId} (hm : w.get? id = none)
    (op : Operation R) : w.perform (.on id op) = w := by
  simp only [perform, hm]

theorem placed_empty : (empty : Workspace R).Placed := by
  intro id m hm
  cases hm

/-- After an operation that succeeds, its model is in the place of the old one. -/
theorem Placed.get?_perform_on {w : Workspace R} (hw : w.Placed) {id : ModelId} {m m' : Model R}
    (hm : w.get? id = some m) {op : Operation R} (h : m.attempt op = ⟨m', .ok ()⟩) (j : ModelId) :
    (w.perform (.on id op)).get? j = if j = id then some m' else w.get? j := by
  obtain rfl : m'.id = id := (Model.attempt_records h).keeps.id.trans (hw id m hm).1
  rw [perform_on hm, h, get?_put hm]

/-- An operation that fails leaves all models as they are. -/
theorem Placed.perform_on_of_error {w : Workspace R} (hw : w.Placed) {id : ModelId} {m : Model R}
    (hm : w.get? id = some m) {op : Operation R} {e : Error R}
    (h : m.attempt op = ⟨m, .error e⟩) : w.perform (.on id op) = w := by
  obtain rfl : m.id = id := (hw id m hm).1
  rw [perform_on hm, h, put_self hm]

/-- What a request makes a model of: of nothing, or of an earlier model. -/
inductive Starts (w : Workspace R) (id : ModelId) : Request R → Model R → Prop where
  | create (kind : ModelKind) : Starts w id (.create kind) (.empty id kind)
  | copy {j : ModelId} {m : Model R} (hm : w.get? j = some m) (hj : j < id) :
      Starts w id (.copy j) { m with id := id }

/-- A model was there before the request, or the request made it, or it comes from an operation
that succeeded. -/
theorem Placed.perform_cases {w : Workspace R} (hw : w.Placed) {q : Request R} {id : ModelId}
    {m : Model R} (h : (w.perform q).get? id = some m) :
    w.get? id = some m ∨ w.Starts id q m ∨
      ∃ m₀ op, q = .on id op ∧ w.get? id = some m₀ ∧ m₀.attempt op = ⟨m, .ok ()⟩ := by
  cases q with
  | create kind =>
    rcases get?_adopt.mp h with h | ⟨rfl, rfl⟩
    · exact .inl h
    · exact .inr (.inl (.create kind))
  | copy j =>
    rw [Workspace.perform] at h
    cases hj : w.get? j with
    | none => exact .inl (by rwa [hj] at h)
    | some m₀ =>
      rw [hj] at h
      rcases get?_adopt.mp h with h | ⟨rfl, rfl⟩
      · exact .inl h
      · exact .inr (.inl (.copy hj (List.getElem?_eq_some_iff.mp hj).1))
  | on j op =>
    cases hj : w.get? j with
    | none => exact .inl (by rwa [perform_on_of_none hj] at h)
    | some m₀ =>
      rcases m₀.attempt_cases op with ⟨e, hop⟩ | ⟨m₁, hop⟩
      · exact .inl (by rwa [hw.perform_on_of_error hj hop] at h)
      · rw [hw.get?_perform_on hj hop] at h
        split at h
        · next hid =>
          obtain rfl := Option.some.inj h
          obtain rfl := hid
          exact .inr (.inr ⟨m₀, op, rfl, hj, hop⟩)
        · exact .inl h

/-- Everything that is asked for leaves models at their places, with a history. -/
theorem Placed.perform {w : Workspace R} (hw : w.Placed) (q : Request R) :
    (w.perform q).Placed := by
  intro id m hm
  rcases hw.perform_cases hm with hm | hstarts | ⟨m₀, op, rfl, hm₀, hop⟩
  · exact hw id m hm
  · cases hstarts with
    | create kind => exact ⟨rfl, _, .empty id kind⟩
    | copy hj =>
      obtain ⟨-, p, hp⟩ := hw _ _ hj
      exact ⟨rfl, p, hp.step (.copy id)⟩
  · obtain ⟨hid, p, hp⟩ := hw id m₀ hm₀
    exact ⟨(Model.attempt_records hop).keeps.id.trans hid, hp.attempt hop⟩

theorem Placed.sound {w : Workspace R} (hw : w.Placed) {id : ModelId} {m : Model R}
    (hm : w.get? id = some m) : m.Sound := by
  obtain ⟨-, p, hp⟩ := hw id m hm
  exact hp.agrees.sound

/-- What operations keep of a model holds on of it, whatever is asked for, of it or of others. -/
theorem Placed.perform_invariant {w : Workspace R} (hw : w.Placed) {P : Model R → Prop}
    (hP : ∀ m m' op, P m → m.attempt op = ⟨m', .ok ()⟩ → P m') {id : ModelId} {m : Model R}
    (hm : w.get? id = some m) (h : P m) (q : Request R) :
    ∃ m', (w.perform q).get? id = some m' ∧ P m' := by
  cases q with
  | create kind => exact ⟨m, get?_adopt.mpr (.inl hm), h⟩
  | copy j =>
    rw [Workspace.perform]
    cases w.get? j with
    | none => exact ⟨m, hm, h⟩
    | some k => exact ⟨m, get?_adopt.mpr (.inl hm), h⟩
  | on j op =>
    cases hk : w.get? j with
    | none => exact ⟨m, by rw [perform_on_of_none hk, hm], h⟩
    | some k =>
      rcases k.attempt_cases op with ⟨e, hop⟩ | ⟨k', hop⟩
      · exact ⟨m, by rw [hw.perform_on_of_error hk hop, hm], h⟩
      · rw [hw.get?_perform_on hk hop]
        by_cases hj : id = j
        · obtain rfl : k = m := by
            rw [hj] at hm
            exact Option.some.inj (hk.symm.trans hm)
          exact ⟨k', if_pos hj, hP k k' op h hop⟩
        · exact ⟨m, by rw [if_neg hj, hm], h⟩

theorem Placed.foldl {w : Workspace R} (hw : w.Placed) (qs : List (Request R)) :
    (qs.foldl Workspace.perform w).Placed := by
  induction qs generalizing w with
  | nil => exact hw
  | cons q qs ih => exact ih (hw.perform q)

theorem Placed.foldl_invariant {w : Workspace R} (hw : w.Placed) {P : Model R → Prop}
    (hP : ∀ m m' op, P m → m.attempt op = ⟨m', .ok ()⟩ → P m') {id : ModelId} {m : Model R}
    (hm : w.get? id = some m) (h : P m) (qs : List (Request R)) :
    ∃ m', (qs.foldl Workspace.perform w).get? id = some m' ∧ P m' := by
  induction qs generalizing w m with
  | nil => exact ⟨m, hm, h⟩
  | cons q qs ih =>
    obtain ⟨m', hm', h'⟩ := hw.perform_invariant hP hm h q
    exact ih (hw.perform q) hm' h'

/-- Every model is kept by what is asked for, of it or of others. -/
theorem Placed.foldl_keeps {w : Workspace R} (hw : w.Placed) {id : ModelId} {m : Model R}
    (hm : w.get? id = some m) (qs : List (Request R)) :
    ∃ m', (qs.foldl Workspace.perform w).get? id = some m' ∧ m.Keeps m' :=
  hw.foldl_invariant (fun _ _ _ h hop => h.trans (Model.attempt_records hop).keeps) hm (.refl m) qs

/-- Take any run, in which operations may fail and solvers may do anything, and any model in it.
The model is sound. An operation that is tried on it next leaves the whole workspace as it is,
if it fails, and otherwise replaces this model by one with the new record. Whatever is asked
later, of this model or of others, the model is there, and its handles name what they did. -/
theorem run_sound (before : List (Request R)) {id : ModelId} {m : Model R}
    (hm : (run before).get? id = some m) :
    m.id = id ∧ m.Sound ∧
      (∀ op, match (m.attempt op).outcome with
        | .error _ => (m.attempt op).model = m ∧ run (before ++ [.on id op]) = run before
        | .ok () => m.Records op (m.attempt op).model ∧
            run (before ++ [.on id op]) = (run before).put (m.attempt op).model) ∧
      ∀ after, ∃ m', (run (before ++ after)).get? id = some m' ∧ m.Keeps m' := by
  have hplaced : (run before).Placed := placed_empty.foldl before
  refine ⟨(hplaced id m hm).1, hplaced.sound hm, fun op => ?_, fun after => ?_⟩
  · have hnext : run (before ++ [.on id op]) = (run before).perform (.on id op) := by
      rw [run, List.foldl_append]
      rfl
    rw [hnext]
    rcases m.attempt_cases op with ⟨e, hop⟩ | ⟨m', hop⟩
    · rw [hplaced.perform_on_of_error hm hop, hop]
      exact ⟨rfl, rfl⟩
    · rw [perform_on hm, hop]
      exact ⟨Model.attempt_records hop, rfl⟩
  · rw [run, List.foldl_append]
    exact hplaced.foldl_keeps hm after

/-- A variable between two doubles. -/
def between (lower upper : Float) : Declaration Float := ⟨"x", some lower, some upper, none, none⟩

/-- A model with such a variable, and its copy. -/
def copiedRun : List (Request Float) :=
  [.create .signomial, .on 0 (.addVariable (between 1 2)), .copy 0]

/-- A declaration with crossed bounds changes nothing, and the variable stays what it is. -/
theorem run_sound_copiedRun :
    ∃ m, (run copiedRun).get? 1 = some m ∧ m.Sound ∧
      (m.attempt (.addVariable (between 2 1))).model = m ∧
      run (copiedRun ++ [.on 1 (.addVariable (between 2 1))]) = run copiedRun ∧
      ∀ after, ∃ m' d, (run (copiedRun ++ after)).get? 1 = some m' ∧
        m'.declared ⟨1, 0⟩ = .ok d ∧ d.toDeclaration = between 1 2 := by
  have haccepted : (between 1 2).fault? = none :=
    Option.isNone_iff_eq_none.mp (by decide +kernel)
  obtain ⟨fault, hfault⟩ : ∃ fault, (between 2 1).fault? = some fault :=
    Option.isSome_iff_exists.mp (by decide +kernel)
  have hattempt : (Model.empty 0 .signomial : Model Float).attempt (.addVariable (between 1 2)) =
      ⟨{ (Model.empty 0 .signomial : Model Float) with vars := [⟨between 1 2, []⟩] }, .ok ()⟩ :=
    Model.attempt_addVariable _ haccepted
  have hrun : run copiedRun = ((put ⟨[Model.empty 0 .signomial]⟩
      { (Model.empty 0 .signomial : Model Float) with vars := [⟨between 1 2, []⟩] }).perform
        (.copy 0)) := by
    rw [run, copiedRun, List.foldl_cons, List.foldl_cons, List.foldl_cons, List.foldl_nil]
    exact congrArg (perform · (.copy 0)) ((perform_on rfl _).trans
      (congrArg (fun a => put _ a.model) hattempt))
  have hm : (run copiedRun).get? 1 = some
      { (Model.empty 1 .signomial : Model Float) with vars := [⟨between 1 2, []⟩] } := by
    rw [hrun]
    rfl
  obtain ⟨_, hsound, hnext, hlater⟩ := run_sound copiedRun hm
  have hfails : ({ (Model.empty 1 .signomial : Model Float) with
      vars := [⟨between 1 2, []⟩] }.attempt (.addVariable (between 2 1))).outcome =
        .error (.invalidBounds "x" fault) := by
    rw [Model.attempt, Model.addVariable_eq, Declaration.accept, hfault]
    rfl
  have hunchanged := hnext (.addVariable (between 2 1))
  rw [hfails] at hunchanged
  refine ⟨_, hm, hsound, hunchanged.1, hunchanged.2, fun after => ?_⟩
  obtain ⟨m', hm', hkeeps⟩ := hlater after
  obtain ⟨d, hd, hext⟩ := hkeeps.declared ⟨1, 0⟩ ⟨between 1 2, []⟩ rfl
  exact ⟨m', d, hm', hd, hext.1⟩

end Workspace

end LogConvex
