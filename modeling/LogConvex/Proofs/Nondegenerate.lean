import LogConvex.Proofs.Finite
import LogConvex.Proofs.Proportional

/- Canonical forms are never degenerate. That a relation has variables is tested before terms
   cancel, so the test does not rule out that all of them do. What rules it out is that like
   terms were merged: the terms of a split have different exponents, on both sides together
   (`Terms.distinct_split`), nothing stores a zero exponent, and so a term divided by one with
   other exponents keeps a variable (`Term.isConstant_div`), and quotients by one term are as
   different as the terms were (`Term.exponents_div_inj`).

   The forms of a program show it: those of different terms of a constraint have different
   coefficients, and none of them is constant (`Part.nondegenerate_ofForm`). -/
namespace LogConvex

/-! ## Quotients of terms -/

namespace Term

variable {t d : Term ℝ}

theorem isConstant_iff {R : Type} {t : Term R} :
    t.isConstant = true ↔ t.exponents = .empty := by
  rw [isConstant, Sparse.isEmpty, List.isEmpty_iff]
  exact ⟨fun h => Sparse.ext_entries h, fun h => by rw [h]; rfl⟩

/-- All variables of a quotient cancel only if the exponents are the same. -/
theorem isConstant_div (ht : t.Reduced) (hd : d.Reduced) :
    (t.div d).isConstant = true ↔ t.exponents = d.exponents := by
  have hempty : ∀ v : Variable, (Sparse.empty : Sparse Variable ℝ).weight v = 0 := fun _ => rfl
  rw [isConstant_iff, Sparse.Reduced.eq_iff (ht.div d) Sparse.reduced_empty,
    Sparse.Reduced.eq_iff ht hd]
  simp only [weight_div, hempty, sub_eq_zero]

end Term

/-! ## The parts of a split -/

namespace Terms

variable {ts p q : Terms ℝ}

theorem reduced_split (hts : ∀ t ∈ ts, t.Reduced) (h : split ts = .ok (p, q)) :
    (∀ t ∈ p, t.Reduced) ∧ ∀ t ∈ q, t.Reduced := by
  obtain ⟨rfl, rfl⟩ := split_cases h
  have hcombine := reduced_combine hts
  exact ⟨fun t ht => hcombine t (List.mem_filter.mp ht).1,
    reduced_neg fun t ht => hcombine t (List.mem_filter.mp ht).1⟩

theorem Distinct.divTerm (h : Distinct ts) (hts : ∀ t ∈ ts, t.Reduced) (d : Term ℝ) :
    Distinct (divTerm ts d) := by
  refine List.pairwise_map.mpr (h.imp_of_mem fun ht hu hne he => hne ?_)
  exact (Term.exponents_div_inj (hts _ ht) (hts _ hu) d).mp he

end Terms

/-! ## Forms -/

/-- No term that is compared with one is a number, and no two of them are alike. -/
def GeometricForm.Nondegenerate : GeometricForm ℝ → Prop
  | equality m => m.isConstant = false
  | inequality p => p ≠ [] ∧ (∀ t ∈ p, t.isConstant = false) ∧ Terms.Distinct p

/-- A bound by several terms has different terms, also on different sides. -/
def Form.Nondegenerate : Form ℝ → Prop
  | geometric g => g.Nondegenerate
  | signomial p q => p ≠ [] ∧ 2 ≤ q.length ∧ Terms.Distinct (p ++ q)

namespace Relation

variable {r : Relation ℝ} {allow : Bool}

/-- The form of different terms without zero exponents is not degenerate. -/
theorem nondegenerate_formOf {p q : Terms ℝ} {f : Form ℝ} (h : r.formOf allow p q = .ok f)
    (hdistinct : Terms.Distinct (p ++ q)) (hp : ∀ t ∈ p, t.Reduced) (hq : ∀ t ∈ q, t.Reduced) :
    f.Nondegenerate ∧ ∀ g, f = .geometric g → ∀ t ∈ g.terms, t.Reduced := by
  obtain ⟨hdistinctp, -, hcross⟩ := List.pairwise_append.mp hdistinct
  have hquotient : ∀ t ∈ p, ∀ d ∈ q, (t.div d).isConstant = false := by
    intro t ht d hd
    rw [← Bool.not_eq_true, Term.isConstant_div (hp t ht) (hq d hd)]
    exact hcross t ht d hd
  rcases formOf_cases h with ⟨_, t, d, rfl, rfl, rfl⟩ | ⟨_, hne, ⟨d, rfl, rfl⟩ | ⟨hlen, _, rfl⟩⟩
  · refine ⟨hquotient t List.mem_cons_self d List.mem_cons_self, ?_⟩
    rintro _ ⟨⟩
    exact List.forall_mem_singleton.mpr ((hp t List.mem_cons_self).div d)
  · refine ⟨⟨?_, ?_, Terms.Distinct.divTerm hdistinctp hp d⟩, ?_⟩
    · exact fun hnil => hne (List.map_eq_nil_iff.mp hnil)
    · exact List.forall_mem_map.mpr fun t ht => hquotient t ht d List.mem_cons_self
    · rintro _ ⟨⟩
      exact List.forall_mem_map.mpr fun t ht => (hp t ht).div d
  · refine ⟨⟨hne, hlen, hdistinct⟩, ?_⟩
    rintro _ ⟨⟩

theorem nondegenerate_normalize (hl : r.lhs.Built) (hr : r.rhs.Built) {c : Canonical ℝ}
    (h : r.normalize allow = .ok c) :
    c.form.Nondegenerate ∧ ∀ g, c.form = .geometric g → ∀ t ∈ g.terms, t.Reduced := by
  obtain ⟨_, _, ts, p, q, _, _, hts, hsplit, hform, _⟩ := normalize_cases h
  obtain ⟨hp, hq⟩ := Terms.reduced_split (reduced_difference hl hr ts hts) hsplit
  exact nondegenerate_formOf hform (Terms.distinct_split hsplit) hp hq

end Relation

/-! ## Rows of a program -/

namespace Affine

theorem isConstant_eq_false_iff {a : Affine ℝ} :
    a.isConstant = false ↔ ∃ e ∈ a.coefficients.entries, e.2 ≠ 0 := by
  simp [isConstant]

theorem isConstant_neg (a : Affine ℝ) : a.neg.isConstant = a.isConstant := by
  rw [Bool.eq_iff_iff]
  simp [isConstant, neg, scale, Sparse.map]

theorem isConstant_column (c : Nat) : (column c : Affine ℝ).isConstant = false :=
  isConstant_eq_false_iff.mpr ⟨(c, 1), List.mem_singleton_self _, one_ne_zero⟩

end Affine

namespace Term

variable {t u : Term ℝ} {id : ModelId}

/-- The logarithm of a term with a variable is not constant. -/
theorem isConstant_logAffine (ht : t.Reduced) (howned : t.OwnedBy id)
    (hne : t.isConstant = false) : t.logAffine.isConstant = false := by
  obtain ⟨e, he⟩ : ∃ e, e ∈ t.exponents.entries := by
    apply List.exists_mem_of_ne_nil
    intro hnil
    simp [isConstant, Sparse.isEmpty, hnil] at hne
  rw [Affine.isConstant_eq_false_iff, entries_logAffine howned]
  exact ⟨_, List.mem_map_of_mem he, by simpa using ht e he⟩

/-- Terms of one model with different exponents have logarithms with different coefficients. -/
theorem exponents_eq_of_logAffine (ht : t.OwnedBy id) (hu : u.OwnedBy id)
    (h : t.logAffine.coefficients = u.logAffine.coefficients) : t.exponents = u.exponents := by
  -- the owner and the column of a variable tell which one it is
  have hback : ∀ w : Term ℝ, w.OwnedBy id → w.logAffine.coefficients.entries.map
      (fun e => ((⟨id, e.1⟩ : Variable), e.2)) = w.exponents.entries := by
    intro w hw
    rw [entries_logAffine hw, List.map_map]
    refine (List.map_congr_left fun e he => ?_).trans (List.map_id _)
    have howner : e.1.owner = id := hw e.1 (List.mem_map_of_mem he)
    simp [← howner]
  apply Sparse.ext_entries
  rw [← hback t ht, ← hback u hu, h]

end Term

namespace Cone

variable {R : Type} [Scalar R]

/-- No form of the constraint is constant, but for the one in the middle of an exponential cone,
which is the number one by which a bound of an exponential is written. -/
def Varies : Cone R → Prop
  | zero a => a.isConstant = false
  | nonneg a => a.isConstant = false
  | exponential x y z => x.isConstant = false ∧ y = .scalar 1 ∧ z.isConstant = false

omit [Scalar R] in
/-- The form that stands for a term, if the constraint is for one term. -/
def row : Cone R → Affine R
  | zero a => a
  | nonneg a => a
  | exponential x _ _ => x

end Cone

namespace Block

theorem isConstant_remainder {first count : Nat} (hcount : 0 < count) :
    (remainder first count : Affine ℝ).isConstant = false := by
  have hget := get?_remainder (R := ℝ) first count first
  rw [if_pos (by omega)] at hget
  exact Affine.isConstant_eq_false_iff.mpr ⟨_, Sparse.mem_of_get? hget, by norm_num⟩

/-- The rows of a bound by one have the coefficients of the logarithms of its terms. -/
theorem rows_exponentials {R : Type} [Scalar R] (first : Nat) (ts : Terms R) :
    (exponentials first .zero ts).map (fun k => k.row.coefficients) =
      List.map (fun t => t.logAffine.coefficients) ts := by
  induction ts generalizing first with
  | nil => rfl
  | cons t ts ih =>
    rw [exponentials_cons, List.map_cons, ih, List.map_cons]
    rfl

/-- The last row has the new columns, and those of the terms have columns of variables. -/
theorem nodup_rows {first : Nat} {ts : Terms ℝ}
    (hdistinct : ts.Pairwise fun t u => t.logAffine.coefficients ≠ u.logAffine.coefficients)
    (hbelow : ∀ t ∈ ts, ∀ c ∈ t.logAffine.columns, c < first) :
    ((exponentials first .zero ts ++ [Cone.nonneg (remainder first ts.length)]).map
      fun k : Cone ℝ => k.row.coefficients).Nodup := by
  rw [List.map_append, rows_exponentials, List.nodup_append]
  refine ⟨List.pairwise_map.mpr hdistinct, List.nodup_singleton _, fun a ha b hb heq => ?_⟩
  obtain ⟨t, ht, rfl⟩ := List.mem_map.mp ha
  obtain rfl := List.mem_singleton.mp hb
  have hpos : 0 < ts.length := List.length_pos_of_mem ht
  have hnew : first ∈ (remainder first ts.length : Affine ℝ).columns :=
    mem_columns_remainder.mpr ⟨le_rfl, by omega⟩
  have hcolumns : t.logAffine.columns = (remainder first ts.length : Affine ℝ).columns :=
    congrArg Sparse.keys heq
  exact Nat.lt_irrefl first (hbelow t ht first (hcolumns ▸ hnew))

end Block

namespace Part

/-- What a constraint adds to a program has no constant rows, and no two rows that agree up to a
constant. -/
structure Nondegenerate (P : Part ℝ) : Prop where
  varies : ∀ k ∈ P.cones, k.Varies
  distinct : (P.cones.map fun k => k.row.coefficients).Nodup

/-- A form that is not degenerate makes rows that are not. -/
theorem nondegenerate_ofForm {n first : Nat} {g : GeometricForm ℝ} {id : ModelId}
    (hg : g.Nondegenerate) (hreduced : ∀ t ∈ g.terms, t.Reduced)
    (howned : Terms.OwnedBy id g.terms) (hbelow : Terms.Below n g.terms) (hfirst : n ≤ first) :
    (ofForm first g).Nondegenerate := by
  have hvaries : ∀ t ∈ g.terms, t.isConstant = false → t.logAffine.isConstant = false :=
    fun t ht => Term.isConstant_logAffine (hreduced t ht) (howned t ht)
  cases g with
  | equality m =>
    exact ⟨List.forall_mem_singleton.mpr (hvaries m List.mem_cons_self hg), List.nodup_singleton _⟩
  | inequality p =>
    obtain ⟨hne, hterms, hdistinct⟩ := hg
    have hblock : ofForm first (.inequality p) =
        ⟨List.range' first (Block.atMostOne first .zero p).columns,
          (Block.atMostOne first .zero p).cones⟩ := rfl
    rcases Block.atMostOne_cases first .zero p with ⟨t, rfl, hcases⟩ | hcases
    · rw [hblock, hcases]
      refine ⟨?_, List.nodup_singleton _⟩
      rw [List.forall_mem_singleton, Cone.Varies, Affine.isConstant_neg]
      exact hvaries t List.mem_cons_self (hterms t List.mem_cons_self)
    · rw [hblock, hcases]
      constructor
      · rw [List.forall_mem_append, List.forall_mem_singleton]
        refine ⟨fun k hk => ?_, Block.isConstant_remainder (List.length_pos_iff.mpr hne)⟩
        obtain ⟨i, hi, rfl⟩ := List.mem_mapIdx.mp hk
        have ht := List.getElem_mem hi
        exact ⟨hvaries _ ht (hterms _ ht), rfl, Affine.isConstant_column _⟩
      · refine Block.nodup_rows (hdistinct.imp_of_mem fun ht hu hne h => ?_) fun t ht c hc => ?_
        · exact hne (Term.exponents_eq_of_logAffine (howned _ ht) (howned _ hu) h)
        · obtain ⟨v, hv, rfl⟩ := Term.mem_columns_logAffine hc
          exact (hbelow v (Terms.mem_occurrences.mpr ⟨t, ht, hv⟩)).trans_le hfirst

/-- The part of a constraint is at the place of its form. -/
theorem getElem?_ofForms {R : Type} [Scalar R] (first : Nat) {i : Nat}
    {gs : List (GeometricForm R)} {g : GeometricForm R} (hg : gs[i]? = some g) :
    ∃ f, first ≤ f ∧ (ofForms first gs)[i]? = some (ofForm f g) := by
  induction gs generalizing first i with
  | nil => cases hg
  | cons h gs ih =>
    cases i with
    | zero =>
      obtain rfl : h = g := by simpa using hg
      exact ⟨first, le_rfl, rfl⟩
    | succ i =>
      obtain ⟨f, hf, hP⟩ := ih (first + (Block.ofForm first h).columns) (i := i) (by simpa using hg)
      exact ⟨f, by omega, by simpa [ofForms] using hP⟩

end Part

/-! ## Accepted constraints -/

namespace Relation

/-- No canonical form is degenerate. So an accepted constraint in geometric form adds no constant
row and no repeated one to any program that it is part of, whatever the other constraints are. -/
theorem no_degenerate_form {r : Relation ℝ} (hl : r.lhs.Built) (hr : r.rhs.Built) :
    (∀ allow c, r.normalize allow = .ok c → c.form.Nondegenerate) ∧
      ∀ (m m' : Model ℝ) (name : Option String) (i : Nat), m.addConstraint r name = ⟨m', .ok i⟩ →
        ∃ c, m'.constraints[i]? = some c ∧ c.relation = r ∧ c.form.Nondegenerate ∧
          ∀ g, c.form = .geometric g →
            ∀ (vars : List (Declaration ℝ)) (gs : List (GeometricForm ℝ))
              (o : Option (Objective ℝ)) (j : Nat),
              m'.vars.length ≤ vars.length → gs[j]? = some g →
              (Lowered.ofProblem vars gs o).program.constraints =
                  (Lowered.parts vars.length gs o).flatMap (·.cones) ∧
                ∃ P : Part ℝ, (Lowered.parts vars.length gs o)[j]? = some P ∧
                  P.Nondegenerate := by
  refine ⟨fun allow c h => (nondegenerate_normalize hl hr h).1, ?_⟩
  intro m m' name i hadd
  obtain ⟨howns, c, hc, rfl, rfl⟩ := Model.addConstraint_eq_ok_iff.mp hadd
  obtain ⟨hform, hreduced⟩ := nondegenerate_normalize hl hr hc
  refine ⟨⟨c, r, name⟩, by simp, rfl, hform, ?_⟩
  intro g hg vars gs o j hvars hj
  refine ⟨Lowered.constraints_ofProblem vars gs o, ?_⟩
  obtain ⟨f, hf, hP⟩ := Part.getElem?_ofForms vars.length hj
  have hj : j < (Part.ofForms vars.length gs).length := (List.getElem?_eq_some_iff.mp hP).1
  refine ⟨_, by rw [Lowered.parts, List.getElem?_append_left hj, hP], ?_⟩
  -- all variables of the form belong to the model, which has declared them
  have hoccurs : ∀ v ∈ Terms.occurrences g.terms, m.owns v = true := by
    intro v hv
    exact howns v (occurrences_of_normalize hc (by rwa [hg]))
  have hgeometric : g.Nondegenerate := by
    rwa [show c.form = .geometric g from hg] at hform
  have howned : Terms.OwnedBy m.id g.terms :=
    Terms.ownedBy_iff.mpr fun v hv => Model.owner_of_owns (hoccurs v hv)
  have hbelow : Terms.Below vars.length g.terms :=
    fun v hv => (Model.lt_of_owns (hoccurs v hv)).trans_le hvars
  exact Part.nondegenerate_ofForm hgeometric (hreduced g hg) howned hbelow hf

/-- The product `x y`. -/
noncomputable def productTerm : Term ℝ :=
  ⟨1, ⟨[(⟨0, 0⟩, 1), (⟨0, 1⟩, 1)], by simp; decide⟩⟩

theorem built_productTerm : productTerm.Built := by
  have hlt : (⟨0, 0⟩ : Variable) < ⟨0, 1⟩ := by decide
  have hnot : ¬ (⟨0, 1⟩ : Variable) < ⟨0, 0⟩ := by decide
  have heq : Term.ofList 1 [(⟨0, 0⟩, 1), (⟨0, 1⟩, 1)] = productTerm := by
    refine Term.ext (Term.coefficient_ofList 1 _) (Sparse.ext_entries ?_)
    simp [productTerm, Term.ofList, Term.constant, Term.addExponent, Sparse.addReduced,
      Sparse.alter, Sparse.alterEntries, Sparse.consEntry, Sparse.empty, hlt, hnot]
  exact heq ▸ .ofList 1 [(⟨0, 0⟩, 1), (⟨0, 1⟩, 1)]

/-- The bound `x y + y + 1 ≤ y + y`. -/
noncomputable def mergingBound : Relation ℝ where
  lhs := .signomial [productTerm, ⟨1, .single ⟨0, 1⟩ 1⟩, .constant 1]
  sense := .atMost
  rhs := .signomial [⟨1, .single ⟨0, 1⟩ 1⟩, ⟨1, .single ⟨0, 1⟩ 1⟩]

theorem split_mergingBound :
    Terms.split [productTerm, ⟨1, .single ⟨0, 1⟩ 1⟩, .constant 1, ⟨-1, .single ⟨0, 1⟩ 1⟩,
        ⟨-1, .single ⟨0, 1⟩ 1⟩] =
      (.ok ([productTerm, .constant 1], [⟨1, .single ⟨0, 1⟩ 1⟩]) :
        Except (Error ℝ) (Terms ℝ × Terms ℝ)) := by
  have h1 : (productTerm.exponents == .single ⟨0, 1⟩ 1) = false := rfl
  have h2 : (productTerm.exponents == .empty) = false := rfl
  have h3 : ((.single ⟨0, 1⟩ 1 : Sparse Variable ℝ) == .empty) = false := rfl
  have hpos : (0 : ℝ) < productTerm.coefficient := one_pos
  simp [Terms.split_eq, Terms.combine, Terms.merge, Term.constant, h1, h2, h3, hpos,
    Terms.positivePart, Terms.negativePart, Term.neg, Term.scale]

/-- The terms in `y` merge, and the one that is left divides the others: `x + 1 / y ≤ 1`. -/
theorem normalize_mergingBound : mergingBound.normalize false = .ok ⟨.geometric
    (.inequality (Terms.divTerm [productTerm, .constant 1] ⟨1, .single ⟨0, 1⟩ 1⟩)), false⟩ := by
  have hl : mergingBound.lhs.terms? =
      some [productTerm, ⟨1, .single ⟨0, 1⟩ 1⟩, .constant 1] := rfl
  have hr : mergingBound.rhs.terms? =
      some [⟨1, .single ⟨0, 1⟩ 1⟩, ⟨1, .single ⟨0, 1⟩ 1⟩] := rfl
  have hts : mergingBound.difference.terms? = some [productTerm, ⟨1, .single ⟨0, 1⟩ 1⟩,
      .constant 1, ⟨-1, .single ⟨0, 1⟩ 1⟩, ⟨-1, .single ⟨0, 1⟩ 1⟩] := by
    rw [terms?_difference hl hr]
    simp [mergingBound, Terms.neg, Term.neg, Term.scale]
  rw [normalize_eq_map hl hr (by simp) rfl hts split_mergingBound]
  rfl

theorem built_mergingBound : mergingBound.lhs.Built ∧ mergingBound.rhs.Built := by
  have hy : (⟨1, .single ⟨0, 1⟩ 1⟩ : Term ℝ).Built := built_single one_ne_zero 1 _
  refine ⟨.signomial ?_, .signomial ?_⟩
  · simp only [List.forall_mem_cons]
    exact ⟨built_productTerm, hy, .ofList 1 [], by simp⟩
  · simp only [List.forall_mem_cons]
    exact ⟨hy, hy, by simp⟩

/-- A model with two variables. -/
noncomputable def twoVariables : Model ℝ :=
  { Model.empty 0 .geometric with vars := [⟨Lowered.plain, []⟩, ⟨Lowered.plain, []⟩] }

/-- A model accepts the bound in the form `x + 1 / y ≤ 1`, and the program with this constraint has
a row for each of the two terms and one for their sum. -/
theorem no_degenerate_form_mergingBound :
    let g : GeometricForm ℝ :=
      .inequality (Terms.divTerm [productTerm, .constant 1] ⟨1, .single ⟨0, 1⟩ 1⟩)
    g.Nondegenerate ∧ (∃ m', twoVariables.addConstraint mergingBound none = ⟨m', .ok 0⟩) ∧
      ∃ P : Part ℝ, (Lowered.parts 2 [g] none)[0]? = some P ∧ P.cones.length = 3 ∧
        P.Nondegenerate := by
  intro g
  obtain ⟨hforms, haccepted⟩ := no_degenerate_form built_mergingBound.1 built_mergingBound.2
  have hsupport : mergingBound.support = [⟨0, 0⟩, ⟨0, 1⟩] := rfl
  have howns : ∀ v ∈ mergingBound.support, twoVariables.owns v = true := by
    rw [hsupport]
    simp [Model.owns, twoVariables, Model.empty]
  have hadd : twoVariables.addConstraint mergingBound none = ⟨_, .ok 0⟩ :=
    Model.addConstraint_eq_ok_iff.mpr ⟨howns, _, normalize_mergingBound, rfl, rfl⟩
  refine ⟨hforms false _ normalize_mergingBound, ⟨_, hadd⟩, ?_⟩
  obtain ⟨c, hc, _, _, hprogram⟩ := haccepted _ _ _ _ hadd
  obtain rfl := Option.some.inj hc
  obtain ⟨_, P, hP, hnondegenerate⟩ :=
    hprogram g rfl [Lowered.plain, Lowered.plain] [g] none 0 le_rfl rfl
  refine ⟨P, hP, ?_, hnondegenerate⟩
  obtain rfl := Option.some.inj hP
  rfl

end Relation

end LogConvex
