import LogConvex.Proofs.Columns
import LogConvex.Proofs.Lowering

/- Where the columns and the cones of a lowered program are. A program is put together from
   parts, one for each constraint and one for the objective, and each part takes the next free
   columns for itself. What keeps parts apart is that a part mentions columns of variables and
   its own columns only (`Part.Placed`), so the cones that mention a new column are found by
   looking at one part (`Part.mentioning_flatMap`). There it is an auxiliary column, unless it
   is the column that is minimized. -/
namespace LogConvex

variable {R : Type} [Scalar R]

/-! ## Parts -/

/-- What a constraint or the objective adds to a program. -/
structure Part (R : Type) where
  columns : List Nat
  cones : List (Cone R)

namespace Part

/-- The part of a constraint. -/
def ofForm (first : Nat) (g : GeometricForm R) : Part R :=
  ⟨List.range' first (Block.ofForm first g).columns, (Block.ofForm first g).cones⟩

/-- The parts of constraints, with columns from `first` on. -/
def ofForms (first : Nat) : List (GeometricForm R) → List (Part R)
  | [] => []
  | g :: gs => ofForm first g :: ofForms (first + (Block.ofForm first g).columns) gs

/-- The part of the objective. -/
def ofObjective (first : Nat) (o : Option (Objective R)) : Part R :=
  let part := ObjectivePart.ofObjective first o
  ⟨List.range' first part.bounds.length, part.cones⟩

/-- Besides its own columns, a part mentions those of the variables only. -/
def Placed (n : Nat) (P : Part R) : Prop :=
  ∀ k ∈ P.cones, ∀ c ∈ k.columns, c < n ∨ c ∈ P.columns

omit [Scalar R] in
/-- A new column of a part is mentioned by none of the others. -/
theorem mentioning_flatMap {n u : Nat} {parts : List (Part R)}
    (hplaced : ∀ P ∈ parts, P.Placed n)
    (hdisjoint : parts.Pairwise fun P Q => P.columns.Disjoint Q.columns) {P : Part R}
    (hP : P ∈ parts) (hu : u ∈ P.columns) (hn : n ≤ u) :
    Cone.mentioning u (parts.flatMap (·.cones)) = Cone.mentioning u P.cones := by
  obtain ⟨pre, post, rfl⟩ := List.append_of_mem hP
  rw [List.pairwise_append, List.pairwise_cons] at hdisjoint
  obtain ⟨-, ⟨hpost, -⟩, hpre⟩ := hdisjoint
  have hnone : ∀ qs : List (Part R), (∀ Q ∈ qs, Q.Placed n ∧ u ∉ Q.columns) →
      Cone.mentioning u (qs.flatMap (·.cones)) = [] := by
    intro qs hqs
    rw [Cone.mentioning, List.filter_eq_nil_iff]
    intro k hk hmem
    obtain ⟨Q, hQ, hk⟩ := List.mem_flatMap.mp hk
    obtain ⟨hplaced, hQu⟩ := hqs Q hQ
    have hcases := hplaced k hk u (of_decide_eq_true hmem)
    exact hQu (hcases.resolve_left (by omega))
  have hbefore := hnone pre fun Q hQ =>
    ⟨hplaced Q (by simp [hQ]), fun hQu => hpre Q hQ P List.mem_cons_self hQu hu⟩
  have hafter := hnone post fun Q hQ =>
    ⟨hplaced Q (by simp [hQ]), fun hQu => hpost Q hQ hu hQu⟩
  rw [Cone.mentioning] at hbefore hafter ⊢
  rw [List.flatMap_append, List.flatMap_cons, List.filter_append, List.filter_append, hbefore,
    hafter, List.nil_append, List.append_nil]
  rfl

end Part

/-! ## Constraints -/

/-- The terms are in the first `n` variables. -/
def Terms.Below (n : Nat) (ts : Terms R) : Prop := ∀ v ∈ occurrences ts, v.index < n

/-- The cone reports the dual value of a constraint: the zero cone of an equation, a
nonnegative form for a bound. -/
def GeometricForm.ReportedBy (c : Cone R) : GeometricForm R → Prop
  | equality m => c = .zero m.logAffine
  | inequality _ => ∃ a, c = .nonneg a

namespace Part

/-- Any part of a list of constraints belongs to one of them, and its columns start at `first`
or later. -/
theorem mem_ofForms {first : Nat} {gs : List (GeometricForm R)} {P : Part R}
    (hP : P ∈ ofForms first gs) : ∃ f, first ≤ f ∧ ∃ g ∈ gs, P = ofForm f g := by
  induction gs generalizing first with
  | nil => cases hP
  | cons g gs ih =>
    rcases List.mem_cons.mp hP with rfl | hP
    · exact ⟨first, Nat.le_refl _, g, List.mem_cons_self, rfl⟩
    · obtain ⟨f, hf, g', hg', rfl⟩ := ih hP
      exact ⟨f, by omega, g', List.mem_cons_of_mem g hg', rfl⟩

theorem length_ofForms (first : Nat) (gs : List (GeometricForm R)) :
    (ofForms first gs).length = gs.length := by
  induction gs generalizing first with
  | nil => rfl
  | cons g gs ih => rw [ofForms, List.length_cons, ih, List.length_cons]

theorem cones_ofForms (first : Nat) (gs : List (GeometricForm R)) :
    (ofForms first gs).flatMap (·.cones) = (Block.ofForms first gs).flatMap (·.cones) := by
  induction gs generalizing first with
  | nil => rfl
  | cons g gs ih =>
    rw [ofForms, Block.ofForms, List.flatMap_cons, List.flatMap_cons, ih]
    rfl

/-- The columns of the constraints follow each other without gaps. -/
theorem columns_ofForms (first : Nat) (gs : List (GeometricForm R)) :
    (ofForms first gs).flatMap (·.columns) =
      List.range' first (Block.addedColumns (Block.ofForms first gs)) := by
  induction gs generalizing first with
  | nil => rfl
  | cons g gs ih =>
    rw [ofForms, Block.ofForms, List.flatMap_cons, ih, Block.addedColumns, ofForm,
      List.range'_append_1]

section Form

variable {n first : Nat} {g : GeometricForm R} (hg : Terms.Below n g.terms)
include hg

theorem placed_ofForm : (ofForm first g).Placed n := by
  intro k hk c hc
  cases g with
  | equality m =>
    obtain rfl := List.mem_singleton.mp hk
    obtain ⟨v, hv, rfl⟩ := Term.mem_columns_logAffine hc
    left
    exact hg v (List.mem_flatMap.mpr ⟨m, List.mem_cons_self, hv⟩)
  | inequality p =>
    rcases Block.mem_columns_atMostOne hk hc with ⟨v, hv, rfl⟩ | hshift | hown
    · exact .inl (hg v hv)
    · cases hshift
    · exact .inr hown

theorem auxiliary_ofForm (hn : n ≤ first) {u : Nat} (hu : u ∈ (ofForm first g).columns) :
    Cone.Auxiliary u (ofForm first g).cones := by
  have hle : first ≤ u := (List.mem_range'_1.mp hu).1
  cases g with
  | equality m => cases hu
  | inequality p =>
    refine Block.auxiliary_atMostOne (fun v hv => ?_) List.not_mem_nil hu
    have hlt : v.index < n := hg v hv
    omega

end Form

/-- The last cone of a constraint reports its dual value; all others are exponential cones. -/
theorem exists_last_ofForm (first : Nat) (g : GeometricForm R) :
    ∃ init c, (ofForm first g).cones = init ++ [c] ∧ g.ReportedBy c ∧
      ∀ d ∈ init, ∃ x y z, d = .exponential x y z := by
  cases g with
  | equality m => exact ⟨[], _, rfl, rfl, by simp⟩
  | inequality p =>
    rcases Block.atMostOne_cases first .zero p with ⟨t, rfl, hblock⟩ | hblock
    · exact ⟨[], _, rfl, ⟨_, rfl⟩, by simp⟩
    · refine ⟨_, _, congrArg Block.cones hblock, ⟨_, rfl⟩, fun d hd => ?_⟩
      obtain ⟨k, _, rfl⟩ := List.mem_mapIdx.mp hd
      exact ⟨_, _, _, rfl⟩

end Part

/-! ## Objectives -/

/-- An objective adds nothing and is a form of the variables, or it is a sum that is bounded by
the exponential of a new column. -/
theorem ObjectivePart.ofObjective_cases (first : Nat) (o : Option (Objective R)) :
    ((ofObjective first o).bounds = [] ∧ (ofObjective first o).cones = [] ∧
        ∀ c ∈ (ofObjective first o).form.columns,
          ∃ f ∈ o, ∃ v ∈ Terms.occurrences f.terms, v.index = c) ∨
      ∃ p b, o = some (.minimize p) ∧
        b = Block.atMostOne (first + 1) (Affine.column first).neg p ∧
        ofObjective first o =
          ⟨.free :: List.replicate b.columns .nonneg, .column first, b.cones, false⟩ := by
  have hterm : ∀ t : Term R, ∀ c ∈ t.logAffine.columns,
      ∃ v ∈ Terms.occurrences [t], v.index = c := by
    intro t c hc
    obtain ⟨v, hv, hindex⟩ := Term.mem_columns_logAffine hc
    exact ⟨v, List.mem_flatMap.mpr ⟨t, List.mem_cons_self, hv⟩, hindex⟩
  unfold ofObjective
  split
  · exact .inl ⟨rfl, rfl, fun c hc => absurd hc List.not_mem_nil⟩
  · next m =>
    refine .inl ⟨rfl, rfl, fun c hc => ⟨_, rfl, hterm m c ?_⟩⟩
    rwa [Affine.columns_neg] at hc
  · next t => exact .inl ⟨rfl, rfl, fun c hc => ⟨_, rfl, hterm t c hc⟩⟩
  · next p _ => exact .inr ⟨p, _, rfl, rfl, rfl⟩

namespace Part

variable {n first : Nat} {o : Option (Objective R)} (ho : ∀ f ∈ o, Terms.Below n f.terms)
include ho

theorem placed_ofObjective : (ofObjective first o).Placed n := by
  intro k hk c hc
  rcases ObjectivePart.ofObjective_cases first o with ⟨_, hcones, _⟩ | ⟨p, b, rfl, rfl, hpart⟩
  · rw [ofObjective, hcones] at hk
    cases hk
  · rw [ofObjective, hpart] at hk ⊢
    simp only [List.length_cons, List.length_replicate, List.mem_range'_1]
    rcases Block.mem_columns_atMostOne hk hc with ⟨v, hv, rfl⟩ | hshift | hown
    · exact .inl (ho _ rfl v hv)
    · rw [Affine.columns_neg, Affine.columns_column, List.mem_singleton] at hshift
      right
      omega
    · rw [List.mem_range'_1] at hown
      right
      omega

/-- The form to minimize mentions columns of the variables, or is the first new column. -/
theorem columns_form {c : Nat} (hc : c ∈ (ObjectivePart.ofObjective first o).form.columns) :
    c < n ∨ c ∈ (ofObjective first o).columns := by
  rcases ObjectivePart.ofObjective_cases first o with ⟨_, _, hform⟩ | ⟨p, b, rfl, rfl, hpart⟩
  · obtain ⟨f, hf, v, hv, rfl⟩ := hform c hc
    exact .inl (ho f hf v hv)
  · rw [hpart] at hc
    obtain rfl := List.mem_singleton.mp hc
    rw [ofObjective, hpart]
    right
    simp

/-- A new column of the objective is an auxiliary column, or it is what is minimized. -/
theorem auxiliary_ofObjective (hn : n ≤ first) {u : Nat} (hu : u ∈ (ofObjective first o).columns) :
    let part := ObjectivePart.ofObjective first o
    (part.bounds[u - first]? = some .nonneg ∧ u ∉ part.form.columns ∧
        Cone.Auxiliary u part.cones) ∨
      (part.bounds[u - first]? = some .free ∧ part.form = .column u) := by
  rcases ObjectivePart.ofObjective_cases first o with ⟨hbounds, _⟩ | ⟨p, b, rfl, rfl, hpart⟩
  · rw [ofObjective, hbounds] at hu
    cases hu
  · have hrange := List.mem_range'_1.mp hu
    rw [hpart, List.length_cons, List.length_replicate] at hrange
    simp only [hpart]
    by_cases heq : u = first
    · right
      simp [heq]
    · left
      obtain ⟨i, hi⟩ : ∃ i, u = first + (i + 1) := ⟨u - (first + 1), by omega⟩
      refine ⟨?_, ?_, Block.auxiliary_atMostOne (fun v hv => ?_) ?_ ?_⟩
      · rw [hi, Nat.add_sub_cancel_left, List.getElem?_cons_succ, List.getElem?_replicate,
          if_pos (by omega)]
      · simpa using heq
      · have hlt : v.index < n := ho _ rfl v hv
        omega
      · simpa using heq
      · rw [List.mem_range'_1]
        omega

end Part

/-! ## Cones that report dual values -/

namespace Block

omit [Scalar R] in
theorem le_of_mem_lastCones {before k : Nat} {bs : List (Block R)} (h : ∀ b ∈ bs, b.cones ≠ [])
    (hk : k ∈ lastCones before bs) : before ≤ k := by
  induction bs generalizing before with
  | nil => cases hk
  | cons b bs ih =>
    have hb : 0 < b.cones.length := List.length_pos_iff.mpr (h b List.mem_cons_self)
    rcases List.mem_cons.mp hk with rfl | hk
    · omega
    · have := ih (fun b hb => h b (List.mem_cons_of_mem _ hb)) hk
      omega

omit [Scalar R] in
theorem pairwise_lastCones (before : Nat) {bs : List (Block R)} (h : ∀ b ∈ bs, b.cones ≠ []) :
    (lastCones before bs).Pairwise (· < ·) := by
  induction bs generalizing before with
  | nil => exact .nil
  | cons b bs ih =>
    have hb : 0 < b.cones.length := List.length_pos_iff.mpr (h b List.mem_cons_self)
    have hbs : ∀ b ∈ bs, b.cones ≠ [] := fun b hb => h b (List.mem_cons_of_mem _ hb)
    refine List.pairwise_cons.mpr ⟨fun k hk => ?_, ih _ hbs⟩
    have := le_of_mem_lastCones hbs hk
    omega

theorem cones_ne_nil {first : Nat} {gs : List (GeometricForm R)} :
    ∀ b ∈ ofForms first gs, b.cones ≠ [] := by
  induction gs generalizing first with
  | nil => simp [ofForms]
  | cons g gs ih =>
    refine List.forall_mem_cons.mpr ⟨?_, ih⟩
    obtain ⟨init, c, hcones, _⟩ := Part.exists_last_ofForm first g
    show (Part.ofForm first g).cones ≠ []
    simp [hcones]

end Block

/-- The cone at place `k` is the last one of the part of constraint `i`, and the one that
reports its dual value. -/
def Part.Reports (parts : List (Part R)) (i : Nat) (g : GeometricForm R) (k : Nat) : Prop :=
  ∃ P init c, parts[i]? = some P ∧ P.cones = init ++ [c] ∧
    k = ((parts.take i).flatMap (·.cones)).length + init.length ∧ g.ReportedBy c ∧
    ∀ d ∈ init, ∃ x y z, d = .exponential x y z

theorem Part.reports_lastCones {before first i k : Nat} {gs : List (GeometricForm R)}
    {g : GeometricForm R} (hg : gs[i]? = some g)
    (hk : (Block.lastCones before (Block.ofForms first gs))[i]? = some (before + k)) :
    Part.Reports (ofForms first gs) i g k := by
  induction gs generalizing before first i k with
  | nil => cases hg
  | cons h gs ih =>
    obtain ⟨init, c, hcones, hreported, hinit⟩ := exists_last_ofForm first h
    have hlength : (Block.ofForm first h).cones.length = init.length + 1 := by
      show (ofForm first h).cones.length = _
      simp [hcones]
    cases i with
    | zero =>
      obtain rfl : h = g := by simpa using hg
      have hk : before + (Block.ofForm first h).cones.length - 1 = before + k := by
        simpa [Block.ofForms, Block.lastCones] using hk
      refine ⟨_, init, c, rfl, hcones, ?_, hreported, hinit⟩
      simp only [List.take_zero, List.flatMap_nil, List.length_nil]
      omega
    | succ i =>
      have hk : (Block.lastCones (before + (Block.ofForm first h).cones.length)
          (Block.ofForms (first + (Block.ofForm first h).columns) gs))[i]? = some (before + k) := by
        simpa [Block.ofForms, Block.lastCones] using hk
      have hle := Block.le_of_mem_lastCones Block.cones_ne_nil (List.mem_of_getElem? hk)
      obtain ⟨j, rfl⟩ : ∃ j, k = (Block.ofForm first h).cones.length + j :=
        ⟨k - (Block.ofForm first h).cones.length, by omega⟩
      rw [← Nat.add_assoc] at hk
      obtain ⟨P, init', c', hP, hcones', hj, hreported', hinit'⟩ := ih (by simpa using hg) hk
      refine ⟨P, init', c', hP, hcones', ?_, hreported', hinit'⟩
      rw [ofForms, List.take_succ_cons, List.flatMap_cons, List.length_append, hj, Nat.add_assoc]
      rfl

namespace Part.Reports

variable {parts : List (Part R)} {i k : Nat} {g : GeometricForm R} (h : Part.Reports parts i g k)
include h

theorem append (more : List (Part R)) : Part.Reports (parts ++ more) i g k := by
  obtain ⟨P, init, c, hP, hcones, hk, hreported, hinit⟩ := h
  have hi : i < parts.length := (List.getElem?_eq_some_iff.mp hP).1
  refine ⟨P, init, c, ?_, hcones, ?_, hreported, hinit⟩
  · rwa [List.getElem?_append_left hi]
  · rwa [List.take_append_of_le_length (Nat.le_of_lt hi)]

/-- What is at the place is the cone that reports the dual value. -/
theorem cone : ∃ c, (parts.flatMap (·.cones))[k]? = some c ∧ g.ReportedBy c := by
  obtain ⟨P, init, c, hP, hcones, rfl, hreported, _⟩ := h
  obtain ⟨hi, rfl⟩ := List.getElem?_eq_some_iff.mp hP
  have hsplit : parts = parts.take i ++ parts[i] :: parts.drop (i + 1) := by
    rw [← List.drop_eq_getElem_cons, List.take_append_drop]
  have hall : parts.flatMap (·.cones) = (parts.take i).flatMap (·.cones) ++
      (init ++ c :: (parts.drop (i + 1)).flatMap (·.cones)) := by
    conv_lhs => rw [hsplit]
    rw [List.flatMap_append, List.flatMap_cons, hcones, List.append_assoc]
    rfl
  refine ⟨c, ?_, hreported⟩
  rw [hall, List.getElem?_append_right (by omega), Nat.add_sub_cancel_left,
    List.getElem?_append_right (by omega), Nat.sub_self, List.getElem?_cons_zero]

end Part.Reports

/-! ## The whole program -/

namespace Lowered

/-- The first column of the objective, behind those of `n` variables and of constraints. -/
def objectiveColumn (n : Nat) (gs : List (GeometricForm R)) : Nat :=
  n + Block.addedColumns (Block.ofForms n gs)

/-- The parts of a program for `n` variables: one for each constraint, and the one of the
objective at the end. -/
def parts (n : Nat) (gs : List (GeometricForm R)) (o : Option (Objective R)) : List (Part R) :=
  Part.ofForms n gs ++ [Part.ofObjective (objectiveColumn n gs) o]

/-- How a program for variables and constraints is laid out, if it consists of parts. -/
structure Layout (l : Lowered R) (vars : List (Declaration R)) (gs : List (GeometricForm R))
    (parts : List (Part R)) : Prop where
  /-- Each variable has its column, with its bounds. -/
  bounds : ∀ (i : Nat) (d : Declaration R), vars[i]? = some d → l.program.bounds[i]? = some d.logBounds
  /-- Only columns of the program are mentioned, so the standard form keeps everything. -/
  closed : l.program.Closed ∧ StandardForm.KeepsAll l.program
  /-- There is a part for each constraint and one for the objective. -/
  length_parts : parts.length = gs.length + 1
  cones : l.program.constraints = parts.flatMap (·.cones)
  /-- The columns behind those of the variables are those of the parts, in order. -/
  columns : parts.flatMap (·.columns) =
    List.range' vars.length (l.program.bounds.length - vars.length)
  disjoint : parts.Pairwise fun P Q => P.columns.Disjoint Q.columns
  /-- The constraints that mention a column of a part are in this part. -/
  own : ∀ P ∈ parts, ∀ u ∈ P.columns,
    Cone.mentioning u l.program.constraints = Cone.mentioning u P.cones
  /-- A column of a part is auxiliary there and is not minimized, or it is the column that the
  program minimizes, and the part is that of the objective. -/
  auxiliary : ∀ P ∈ parts, ∀ u ∈ P.columns,
    (l.program.bounds[u]? = some .nonneg ∧ u ∉ l.program.objective.columns ∧
        Cone.Auxiliary u P.cones) ∨
      (l.program.bounds[u]? = some .free ∧ l.program.objective = .column u ∧
        parts.getLast? = some P)
  /-- There is a cone for the dual value of each constraint, and they come in order. -/
  dualCones : l.dualCones.length = gs.length ∧ l.dualCones.Pairwise (· < ·)
  /-- The cone for the dual value of a constraint is the last of its part. -/
  reports : ∀ (i : Nat) (g : GeometricForm R) (k : Nat), gs[i]? = some g → l.dualCones[i]? = some k →
    Part.Reports parts i g k ∧ ∃ c, l.program.constraints[k]? = some c ∧ g.ReportedBy c

section Parts

variable (vars : List (Declaration R)) (gs : List (GeometricForm R)) (o : Option (Objective R))

theorem bounds_ofProblem : (ofProblem vars gs o).program.bounds = vars.map (·.logBounds) ++
    List.replicate (Block.addedColumns (Block.ofForms vars.length gs)) .nonneg ++
    (ObjectivePart.ofObjective (objectiveColumn vars.length gs) o).bounds := rfl

theorem length_bounds_ofProblem : (ofProblem vars gs o).program.bounds.length =
    objectiveColumn vars.length gs +
      (ObjectivePart.ofObjective (objectiveColumn vars.length gs) o).bounds.length := by
  rw [bounds_ofProblem]
  simp [objectiveColumn, Nat.add_assoc]

theorem constraints_ofProblem : (ofProblem vars gs o).program.constraints =
    (parts vars.length gs o).flatMap (·.cones) := by
  rw [parts, List.flatMap_append, Part.cones_ofForms, List.flatMap_singleton]
  rfl

theorem columns_parts : (parts vars.length gs o).flatMap (·.columns) =
    List.range' vars.length ((ofProblem vars gs o).program.bounds.length - vars.length) := by
  rw [parts, List.flatMap_append, Part.columns_ofForms, List.flatMap_singleton, Part.ofObjective,
    objectiveColumn, List.range'_append_1, length_bounds_ofProblem, objectiveColumn]
  congr 1
  omega

theorem disjoint_parts :
    (parts vars.length gs o).Pairwise fun P Q => P.columns.Disjoint Q.columns := by
  have hnodup : ((parts vars.length gs o).flatMap (·.columns)).Nodup := by
    rw [columns_parts]
    exact List.nodup_range'
  exact (List.nodup_flatMap.mp hnodup).2

variable {vars gs o}

/-- Columns of parts are behind those of the variables, and the program has them. -/
theorem mem_range_of_mem_parts {P : Part R} (hP : P ∈ parts vars.length gs o) {u : Nat}
    (hu : u ∈ P.columns) :
    vars.length ≤ u ∧ u < (ofProblem vars gs o).program.bounds.length := by
  have hmem : u ∈ (parts vars.length gs o).flatMap (·.columns) :=
    List.mem_flatMap.mpr ⟨P, hP, hu⟩
  rw [columns_parts, List.mem_range'_1] at hmem
  omega

theorem reports_ofProblem {i k : Nat} {g : GeometricForm R} (hg : gs[i]? = some g)
    (hk : (ofProblem vars gs o).dualCones[i]? = some k) :
    Part.Reports (parts vars.length gs o) i g k := by
  rw [← Nat.zero_add k] at hk
  exact (Part.reports_lastCones hg hk).append _

variable (hgs : ∀ g ∈ gs, Terms.Below vars.length g.terms)
  (ho : ∀ f ∈ o, Terms.Below vars.length f.terms)
include hgs ho

theorem placed_parts : ∀ P ∈ parts vars.length gs o, P.Placed vars.length := by
  intro P hP
  rcases List.mem_append.mp hP with hP | hP
  · obtain ⟨f, _, g, hg, rfl⟩ := Part.mem_ofForms hP
    exact Part.placed_ofForm (hgs g hg)
  · obtain rfl := List.mem_singleton.mp hP
    exact Part.placed_ofObjective ho

theorem closed_ofProblem : (ofProblem vars gs o).program.Closed := by
  have hle := length_bounds_ofProblem vars gs o
  rw [objectiveColumn] at hle
  constructor
  · intro c hc
    rcases Part.columns_form ho hc with hc | hc
    · omega
    · exact (mem_range_of_mem_parts (List.mem_append_right _ List.mem_cons_self) hc).2
  · intro k hk c hc
    rw [constraints_ofProblem] at hk
    obtain ⟨P, hP, hk⟩ := List.mem_flatMap.mp hk
    rcases placed_parts hgs ho P hP k hk c hc with hc | hc
    · omega
    · exact (mem_range_of_mem_parts hP hc).2

/-- A column of a constraint is not negative, and an auxiliary column of its part. -/
theorem auxiliary_constraint {P : Part R} (hP : P ∈ Part.ofForms vars.length gs) {u : Nat}
    (hu : u ∈ P.columns) : (ofProblem vars gs o).program.bounds[u]? = some .nonneg ∧
      u ∉ (ofProblem vars gs o).program.objective.columns ∧ Cone.Auxiliary u P.cones := by
  have hmem : u ∈ (Part.ofForms vars.length gs).flatMap (·.columns) :=
    List.mem_flatMap.mpr ⟨P, hP, hu⟩
  rw [Part.columns_ofForms, List.mem_range'_1] at hmem
  obtain ⟨f, hf, g, hg, rfl⟩ := Part.mem_ofForms hP
  refine ⟨?_, fun hobjective => ?_, Part.auxiliary_ofForm (hgs g hg) hf hu⟩
  · rw [bounds_ofProblem, List.getElem?_append_left (by simp; omega),
      List.getElem?_append_right (by simp; omega), List.getElem?_replicate,
      if_pos (by simp; omega)]
  · -- the objective mentions columns before and behind those of the constraints
    rcases Part.columns_form ho hobjective with hlt | hlast
    · omega
    · have := (List.mem_range'_1.mp hlast).1
      omega

omit hgs in
/-- A column of the objective is an auxiliary column of its part, or it is minimized. -/
theorem auxiliary_objective {u : Nat}
    (hu : u ∈ (Part.ofObjective (objectiveColumn vars.length gs) o).columns) :
    ((ofProblem vars gs o).program.bounds[u]? = some .nonneg ∧
        u ∉ (ofProblem vars gs o).program.objective.columns ∧
        Cone.Auxiliary u (Part.ofObjective (objectiveColumn vars.length gs) o).cones) ∨
      ((ofProblem vars gs o).program.bounds[u]? = some .free ∧
        (ofProblem vars gs o).program.objective = .column u) := by
  have hge := (List.mem_range'_1.mp hu).1
  have hfirst : (vars.map Declaration.logBounds ++ List.replicate (Block.addedColumns
      (Block.ofForms vars.length gs)) (.nonneg : ColumnBounds R)).length =
        objectiveColumn vars.length gs := by
    simp [objectiveColumn]
  rw [bounds_ofProblem, List.getElem?_append_right (hfirst.le.trans hge), hfirst]
  exact Part.auxiliary_ofObjective ho (Nat.le_add_right _ _) hu

end Parts

/-- How the program of a problem is laid out. Every variable list and every list of constraints
in these variables has a program that consists of parts which do not share new columns. -/
theorem layout_ofProblem (vars : List (Declaration R)) (gs : List (GeometricForm R))
    (o : Option (Objective R)) (hgs : ∀ g ∈ gs, Terms.Below vars.length g.terms)
    (ho : ∀ f ∈ o, Terms.Below vars.length f.terms) :
    (ofProblem vars gs o).Layout vars gs (parts vars.length gs o) := by
  have hclosed := closed_ofProblem hgs ho
  constructor
  · intro i d hd
    have hi : i < vars.length := (List.getElem?_eq_some_iff.mp hd).1
    rw [bounds_ofProblem, List.append_assoc, List.getElem?_append_left (by simpa using hi),
      List.getElem?_map, hd, Option.map_some]
  · exact ⟨hclosed, StandardForm.keepsAll_of_closed hclosed⟩
  · rw [parts, List.length_append, Part.length_ofForms, List.length_singleton]
  · exact constraints_ofProblem vars gs o
  · exact columns_parts vars gs o
  · exact disjoint_parts vars gs o
  · intro P hP u hu
    rw [constraints_ofProblem]
    exact Part.mentioning_flatMap (placed_parts hgs ho) (disjoint_parts vars gs o) hP hu
      (mem_range_of_mem_parts hP hu).1
  · intro P hP u hu
    rcases List.mem_append.mp hP with hP | hP
    · exact .inl (auxiliary_constraint hgs ho hP hu)
    · obtain rfl := List.mem_singleton.mp hP
      refine (auxiliary_objective ho hu).imp_right ?_
      rintro ⟨hfree, hobjective⟩
      exact ⟨hfree, hobjective, List.getLast?_concat⟩
  · exact ⟨by simp [ofProblem], Block.pairwise_lastCones 0 Block.cones_ne_nil⟩
  · intro i g k hg hk
    have h := reports_ofProblem hg hk
    rw [constraints_ofProblem]
    exact ⟨h, h.cone⟩

/-- The sum of a number and its inverse, in doubles. -/
def inverseSum : Terms Float := [⟨1, .single ⟨0, 0⟩ 1⟩, ⟨1, .single ⟨0, 0⟩ (-1)⟩]

/-- The sum is minimized and bounded. Columns 1 and 2 are for the bound; column 3 is minimized,
and 4 and 5 are for the objective. -/
theorem layout_ofProblem_inverseSum :
    let l := ofProblem [⟨"x", none, none, none, none⟩] [.inequality inverseSum]
      (some (.minimize inverseSum))
    StandardForm.KeepsAll l.program ∧ l.program.objective = .column 3 ∧ l.dualCones = [2] ∧
      ∃ x y a, Cone.mentioning 2 l.program.constraints =
          [.exponential x y (.column 2), .nonneg a] ∧
        a.coefficients.get? 2 = some (-1) := by
  intro l
  have hbelow : Terms.Below 1 inverseSum := by
    simp [Terms.Below, Terms.occurrences, inverseSum, Sparse.keys, Sparse.single]
  have h := layout_ofProblem [(⟨"x", none, none, none, none⟩ : Declaration Float)]
    [.inequality inverseSum] (some (.minimize inverseSum)) (by simpa [GeometricForm.terms])
    (by simpa [Objective.terms])
  have hobjective : l.program.objective = .column 3 := rfl
  have hP : Part.ofForm 1 (.inequality inverseSum) ∈
      parts 1 [.inequality inverseSum] (some (.minimize inverseSum)) := List.mem_cons_self
  have hu : 2 ∈ (Part.ofForm 1 (.inequality inverseSum)).columns := by
    show 2 ∈ List.range' 1 2
    decide
  rcases h.auxiliary _ hP 2 hu with ⟨_, _, x, y, a, w, hcones, _, _, hget, hw⟩ | ⟨_, hminimized, _⟩
  · refine ⟨h.closed.2, hobjective, rfl, x, y, a, ?_, ?_⟩
    · rw [h.own _ hP 2 hu, hcones]
    · rw [hget, hw inferInstance]
      decide +kernel
  · have hcolumn : (Affine.column 2 : Affine Float).columns =
        (Affine.column 3 : Affine Float).columns := by
      rw [← hminimized]
      rfl
    cases hcolumn

end Lowered

end LogConvex
