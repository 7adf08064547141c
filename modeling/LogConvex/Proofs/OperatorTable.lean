import LogConvex.Proofs.Algebra
import LogConvex.Proofs.Narrowing

/- The operator table over the reals: which kind of expression the operators lead to, and when
   they leave the algebra of sums.

   A result is a tree only if an operand was one, for a quotient by anything but a single term
   that is not zero, and for a power that is no real number or of a sum that is not a single
   term (`isNonGp_add` .. `isNonGp_pow_iff`). Inside the algebra, positive coefficients stay
   positive under sums, products and powers, and division by a positive monomial changes no
   sign (`IsMonomial.mul` .. `kind_div`). -/
namespace LogConvex

/-! ## Signs of terms -/

namespace Term

theorem isPositive_of_pos {t : Term ℝ} (h : 0 < t.coefficient) : t.isPositive = true := by
  simp [isPositive, h]

theorem isPositive_of_ne_zero {t : Term ℝ} (h : t.coefficient ≠ 0) :
    t.isPositive = decide (0 < t.coefficient) := by
  simp [isPositive, h]

/-- The power of a positive term is positive. -/
theorem coefficient_pow_pos {t : Term ℝ} (h : 0 < t.coefficient) (p : ℝ) :
    0 < (t.pow p).coefficient := by
  rw [coefficient_pow]
  exact Real.rpow_pos_of_pos h p

/-- Division by a positive term keeps the sign of a term that is not zero. -/
theorem isPositive_div {t d : Term ℝ} (ht : t.coefficient ≠ 0) (hd : 0 < d.coefficient) :
    (t.div d).isPositive = t.isPositive := by
  have hquotient : (t.div d).coefficient ≠ 0 := by
    rw [coefficient_div]
    exact div_ne_zero ht hd.ne'
  rw [isPositive_of_ne_zero hquotient, isPositive_of_ne_zero ht, coefficient_div]
  simp [hd]

end Term

namespace Terms

variable {ts us : Terms ℝ}

theorem isPositive_of_pos (h : ∀ t ∈ ts, 0 < t.coefficient) : isPositive ts = true :=
  List.all_eq_true.mpr fun t ht => Term.isPositive_of_pos (h t ht)

theorem coefficient_mul_pos (hts : ∀ t ∈ ts, 0 < t.coefficient)
    (hus : ∀ u ∈ us, 0 < u.coefficient) : ∀ w ∈ mul ts us, 0 < w.coefficient := by
  intro w hw
  obtain ⟨t, ht, hw⟩ := List.mem_flatMap.mp hw
  obtain ⟨u, hu, rfl⟩ := List.mem_map.mp hw
  rw [Term.coefficient_mul]
  exact mul_pos (hts t ht) (hus u hu)

theorem coefficient_divTerm_pos {d : Term ℝ} (hts : ∀ t ∈ ts, 0 < t.coefficient)
    (hd : 0 < d.coefficient) : ∀ w ∈ divTerm ts d, 0 < w.coefficient := by
  intro w hw
  obtain ⟨t, ht, rfl⟩ := List.mem_map.mp hw
  rw [Term.coefficient_div]
  exact div_pos (hts t ht) hd

/-- Division by a positive term changes neither the signs nor the number of terms. -/
theorem ofTerms_divTerm {d : Term ℝ} (hts : ∀ t ∈ ts, t.coefficient ≠ 0)
    (hd : 0 < d.coefficient) : Kind.ofTerms (divTerm ts d) = Kind.ofTerms ts := by
  have hpositive : isPositive (divTerm ts d) = isPositive ts := by
    rw [isPositive, isPositive, divTerm, List.all_map, Bool.eq_iff_iff, List.all_eq_true,
      List.all_eq_true]
    refine forall₂_congr fun t ht => ?_
    rw [Function.comp_apply, Term.isPositive_div (hts t ht) hd]
  unfold Kind.ofTerms
  rw [hpositive]
  rcases ts with _ | ⟨t, _ | ⟨u, us⟩⟩ <;> rfl

end Terms

namespace Expr

variable {a b e : Expr ℝ}

/-! ## Monomials and posynomials

The number zero passes for a monomial and a posynomial; here it is left out. -/

/-- All coefficients of the sum are positive. -/
def Positive (e : Expr ℝ) : Prop := ∀ ts, e.terms? = some ts → ∀ t ∈ ts, 0 < t.coefficient

/-- A monomial with a positive coefficient, under any tag. -/
structure IsMonomial (e : Expr ℝ) : Prop where
  kind : e.kind.isMonomial = true
  positive : e.Positive

/-- A posynomial with positive coefficients, under any tag. -/
structure IsPosynomial (e : Expr ℝ) : Prop where
  kind : e.kind.isPosynomial = true
  positive : e.Positive

theorem isMonomial_iff : e.IsMonomial ↔ ∃ t, e.terms? = some [t] ∧ 0 < t.coefficient := by
  constructor
  · rintro ⟨hkind, hpositive⟩
    obtain ⟨t, ht, _⟩ := isMonomial_kind_iff.mp hkind
    exact ⟨t, ht, hpositive [t] ht t List.mem_cons_self⟩
  · rintro ⟨t, ht, hpos⟩
    refine ⟨isMonomial_kind_iff.mpr ⟨t, ht, Term.isPositive_of_pos hpos⟩, fun ts hts => ?_⟩
    obtain rfl := Option.some.inj (ht.symm.trans hts)
    simpa using hpos

theorem isPosynomial_iff :
    e.IsPosynomial ↔ ∃ ts, e.terms? = some ts ∧ ∀ t ∈ ts, 0 < t.coefficient := by
  constructor
  · rintro ⟨hkind, hpositive⟩
    obtain ⟨ts, hts, _⟩ := isPosynomial_kind_iff.mp hkind
    exact ⟨ts, hts, hpositive ts hts⟩
  · rintro ⟨ts, hts, hpos⟩
    refine ⟨isPosynomial_kind_iff.mpr ⟨ts, hts, Terms.isPositive_of_pos hpos⟩, fun us hus => ?_⟩
    obtain rfl := Option.some.inj (hts.symm.trans hus)
    exact hpos

theorem IsMonomial.mul (ha : a.IsMonomial) (hb : b.IsMonomial) : (a.mul b).IsMonomial := by
  obtain ⟨t, ht, htpos⟩ := isMonomial_iff.mp ha
  obtain ⟨u, hu, hupos⟩ := isMonomial_iff.mp hb
  refine isMonomial_iff.mpr ⟨t.mul u, terms?_mul ht hu, ?_⟩
  rw [Term.coefficient_mul]
  exact mul_pos htpos hupos

theorem IsMonomial.div (ha : a.IsMonomial) (hb : b.IsMonomial) : (a.div b).IsMonomial := by
  obtain ⟨t, ht, htpos⟩ := isMonomial_iff.mp ha
  obtain ⟨d, hd, hdpos⟩ := isMonomial_iff.mp hb
  refine isMonomial_iff.mpr ⟨t.div d, terms?_div ht hd (beq_false_of_ne hdpos.ne'), ?_⟩
  rw [Term.coefficient_div]
  exact div_pos htpos hdpos

theorem pow_of_pos {t : Term ℝ} (ht : a.terms? = some [t]) (hpos : 0 < t.coefficient) (p : ℝ) :
    a.pow p = ofTerms [t.pow p] := by
  simp [pow, ht, hpos.ne', hpos.le]

theorem terms?_pow_of_pos {t : Term ℝ} (ht : a.terms? = some [t]) (hpos : 0 < t.coefficient)
    (p : ℝ) : (a.pow p).terms? = some [t.pow p] := by
  rw [pow_of_pos ht hpos, terms?_ofTerms]

theorem IsMonomial.pow (ha : a.IsMonomial) (p : ℝ) : (a.pow p).IsMonomial := by
  obtain ⟨t, ht, hpos⟩ := isMonomial_iff.mp ha
  exact isMonomial_iff.mpr
    ⟨t.pow p, terms?_pow_of_pos ht hpos p, Term.coefficient_pow_pos hpos p⟩

theorem IsPosynomial.add (ha : a.IsPosynomial) (hb : b.IsPosynomial) :
    (a.add b).IsPosynomial := by
  obtain ⟨ts, hts, htpos⟩ := isPosynomial_iff.mp ha
  obtain ⟨us, hus, hupos⟩ := isPosynomial_iff.mp hb
  exact isPosynomial_iff.mpr
    ⟨ts ++ us, terms?_add hts hus, List.forall_mem_append.mpr ⟨htpos, hupos⟩⟩

theorem IsPosynomial.mul (ha : a.IsPosynomial) (hb : b.IsPosynomial) :
    (a.mul b).IsPosynomial := by
  obtain ⟨ts, hts, htpos⟩ := isPosynomial_iff.mp ha
  obtain ⟨us, hus, hupos⟩ := isPosynomial_iff.mp hb
  exact isPosynomial_iff.mpr ⟨_, terms?_mul hts hus, Terms.coefficient_mul_pos htpos hupos⟩

theorem IsPosynomial.div (ha : a.IsPosynomial) (hb : b.IsMonomial) :
    (a.div b).IsPosynomial := by
  obtain ⟨ts, hts, htpos⟩ := isPosynomial_iff.mp ha
  obtain ⟨d, hd, hdpos⟩ := isMonomial_iff.mp hb
  exact isPosynomial_iff.mpr ⟨_, terms?_div hts hd (beq_false_of_ne hdpos.ne'),
    Terms.coefficient_divTerm_pos htpos hdpos⟩

/-- Division by a monomial keeps the kind of a sum without zero terms. -/
theorem kind_div {ts : Terms ℝ} (ha : a.terms? = some ts) (hts : ∀ t ∈ ts, t.coefficient ≠ 0)
    (hb : b.IsMonomial) : (a.div b).kind = a.kind := by
  obtain ⟨d, hd, hpos⟩ := isMonomial_iff.mp hb
  simp only [kind, terms?_div ha hd (beq_false_of_ne hpos.ne'), ha]
  exact Terms.ofTerms_divTerm hts hpos

/-! ## Leaving the algebra -/

section Trees

variable {R : Type} [Scalar R] {e : Expr R}

omit [Scalar R] in
theorem isNonGp_of_terms? {ts : Terms R} (h : e.terms? = some ts) : e.isNonGp = false := by
  rw [isNonGp, h]
  rfl

omit [Scalar R] in
theorem isNonGp_of_terms?_eq_none (h : e.terms? = none) : e.isNonGp = true := by
  rw [isNonGp, h]
  rfl

section Binary

variable {a b c : Expr R}

omit [Scalar R] in
theorem isNonGp_of_sums {ts us ws : Terms R} (ha : a.terms? = some ts) (hb : b.terms? = some us)
    (hc : c.terms? = some ws) : c.isNonGp = (a.isNonGp || b.isNonGp) := by
  rw [isNonGp_of_terms? ha, isNonGp_of_terms? hb, isNonGp_of_terms? hc]
  rfl

omit [Scalar R] in
theorem isNonGp_of_tree (hnone : a.terms? = none ∨ b.terms? = none) (hc : c.terms? = none) :
    c.isNonGp = (a.isNonGp || b.isNonGp) := by
  rw [isNonGp_of_terms?_eq_none hc, eq_comm, Bool.or_eq_true]
  exact hnone.imp isNonGp_of_terms?_eq_none isNonGp_of_terms?_eq_none

end Binary

theorem isNonGp_add (a b : Expr R) : (a.add b).isNonGp = (a.isNonGp || b.isNonGp) := by
  rcases add_cases a b with ⟨ts, us, ha, hb, h⟩ | ⟨hnone, h⟩
  · exact isNonGp_of_sums ha hb (h ▸ terms?_ofTerms _)
  · exact isNonGp_of_tree hnone (h ▸ rfl)

theorem isNonGp_mul (a b : Expr R) : (a.mul b).isNonGp = (a.isNonGp || b.isNonGp) := by
  rcases mul_cases a b with ⟨ts, us, ha, hb, h⟩ | ⟨hnone, h⟩
  · exact isNonGp_of_sums ha hb (h ▸ terms?_ofTerms _)
  · exact isNonGp_of_tree hnone (h ▸ rfl)

theorem isNonGp_opposite (a : Expr R) : a.opposite.isNonGp = a.isNonGp := by
  rcases opposite_cases a with ⟨ts, ha, h⟩ | ⟨ha, h⟩
  · rw [h, isNonGp_of_terms? (terms?_ofTerms _), isNonGp_of_terms? ha]
  · rw [h, isNonGp_of_terms?_eq_none ha]
    rfl

theorem isNonGp_sub (a b : Expr R) : (a.sub b).isNonGp = (a.isNonGp || b.isNonGp) := by
  rw [sub, isNonGp_add, isNonGp_opposite]

theorem isNonGp_total (es : List (Expr R)) : (total es).isNonGp = es.any isNonGp := by
  have hfold : ∀ (es : List (Expr R)) (a : Expr R),
      (es.foldl add a).isNonGp = (a.isNonGp || es.any isNonGp) := by
    intro es
    induction es with
    | nil => simp
    | cons e es ih =>
      intro a
      rw [List.foldl_cons, ih, isNonGp_add, List.any_cons, Bool.or_assoc]
  rw [total, hfold, isNonGp_of_terms? (terms?_ofTerms []), Bool.false_or]

end Trees

/-- A quotient stays a sum exactly if a sum is divided by a single term that is not zero. -/
theorem isNonGp_div_iff (a b : Expr ℝ) : (a.div b).isNonGp = true ↔
    a.isNonGp = true ∨ ¬ ∃ d, b.terms? = some [d] ∧ d.coefficient ≠ 0 := by
  rcases div_cases a b with ⟨ts, d, ha, hd, hne, h⟩ | ⟨hzero, h⟩
  · have hdivisor : ∃ d, b.terms? = some [d] ∧ d.coefficient ≠ 0 := ⟨d, hd, by simpa using hne⟩
    rw [h, isNonGp_of_terms? (terms?_ofTerms _), isNonGp_of_terms? ha]
    simp [hdivisor]
  · rw [h]
    refine iff_of_true rfl (or_iff_not_imp_left.mpr ?_)
    rintro ha ⟨d, hd, hne⟩
    cases hts : a.terms? with
    | none => exact ha (isNonGp_of_terms?_eq_none hts)
    | some ts => exact hne (eq_of_beq (hzero ts d hts hd))

/-- A power of a single term leaves the algebra if it is no real number: a negative power of
zero, or a power of a negative coefficient that is not whole. -/
theorem isNonGp_pow_single_iff {t : Term ℝ} (ht : a.terms? = some [t]) (p : ℝ) :
    (a.pow p).isNonGp = true ↔
      t.coefficient = 0 ∧ p < 0 ∨ t.coefficient < 0 ∧ ¬ ∃ n : ℤ, p = n := by
  have hguard : (decide (0 ≤ t.coefficient) || Scalar.isWhole p) = true ↔
      0 ≤ t.coefficient ∨ ∃ n : ℤ, p = n := by
    rw [Bool.or_eq_true, decide_eq_true_iff, Scalar.isWhole_real]
  simp only [pow, ht, Bool.and_eq_true, beq_iff_eq, decide_eq_true_eq]
  by_cases hzero : t.coefficient = 0 ∧ p < 0
  · rw [if_pos hzero]
    exact iff_of_true rfl (.inl hzero)
  · rw [if_neg hzero]
    by_cases hterm : 0 ≤ t.coefficient ∨ ∃ n : ℤ, p = n
    · rw [if_pos (hguard.mpr hterm), isNonGp_of_terms? (terms?_ofTerms _)]
      refine iff_of_false Bool.false_ne_true ?_
      rintro (h | ⟨hneg, hfraction⟩)
      · exact hzero h
      · exact hterm.elim hneg.not_ge hfraction
    · rw [if_neg fun h => hterm (hguard.mp h)]
      obtain ⟨hneg, hfraction⟩ := not_or.mp hterm
      -- one is a whole number, so the power one was met before
      have hone : p ≠ 1 := fun h => hfraction ⟨1, by rw [h, Int.cast_one]⟩
      rw [if_neg hone]
      exact iff_of_true rfl (.inr ⟨not_le.mp hneg, hfraction⟩)

/-- A power leaves the algebra if the operand has left it, if it is another power than one of a
sum that is not a single term, or if it is no real number. -/
theorem isNonGp_pow_iff (a : Expr ℝ) (p : ℝ) : (a.pow p).isNonGp = true ↔
    a.isNonGp = true ∨ (∃ ts, a.terms? = some ts ∧ ts.length ≠ 1 ∧ p ≠ 1) ∨
      ∃ t, a.terms? = some [t] ∧ (t.coefficient = 0 ∧ p < 0 ∨
        t.coefficient < 0 ∧ ¬ ∃ n : ℤ, p = n) := by
  cases hterms : a.terms? with
  | none =>
    have hpow : a.pow p = power a p := by simp only [pow, hterms]
    rw [hpow]
    exact iff_of_true rfl (.inl (isNonGp_of_terms?_eq_none hterms))
  | some ts =>
    rw [isNonGp_of_terms? hterms]
    by_cases hlength : ts.length = 1
    · obtain ⟨t, rfl⟩ := List.length_eq_one_iff.mp hlength
      rw [isNonGp_pow_single_iff hterms]
      simp
    · have hsingle : ∀ t, ts ≠ [t] := fun t h => hlength (by rw [h, List.length_singleton])
      rw [pow_of_length_ne_one hterms hlength]
      by_cases hone : p = 1
      · rw [if_pos (beq_iff_eq.mpr hone), isNonGp_of_terms? hterms]
        simp [hone, hsingle]
      · rw [if_neg fun h => hone (beq_iff_eq.mp h)]
        exact iff_of_true rfl (.inr (.inl ⟨ts, rfl, hlength, hone⟩))

/-! ## The table -/

/-- The operator table. Monomials are closed under products, quotients and all powers,
posynomials under sums, products and quotients by monomials, and a quotient by a monomial has
the kind of the dividend. Outside the algebra are the results of operands outside, quotients by
anything but a single term that is not zero, powers other than one of sums that are not single
terms, and powers that are no real numbers. -/
theorem operator_table (a b : Expr ℝ) (es : List (Expr ℝ)) (p : ℝ) :
    (a.IsMonomial → b.IsMonomial → (a.mul b).IsMonomial ∧ (a.div b).IsMonomial) ∧
      (a.IsMonomial → (a.pow p).IsMonomial) ∧
      (a.IsPosynomial → b.IsPosynomial → (a.add b).IsPosynomial ∧ (a.mul b).IsPosynomial) ∧
      (a.IsPosynomial → b.IsMonomial → (a.div b).IsPosynomial) ∧
      (∀ ts, a.terms? = some ts → (∀ t ∈ ts, t.coefficient ≠ 0) → b.IsMonomial →
        (a.div b).kind = a.kind) ∧
      (a.add b).isNonGp = (a.isNonGp || b.isNonGp) ∧
      (a.sub b).isNonGp = (a.isNonGp || b.isNonGp) ∧
      (a.mul b).isNonGp = (a.isNonGp || b.isNonGp) ∧
      a.opposite.isNonGp = a.isNonGp ∧
      (total es).isNonGp = es.any isNonGp ∧
      ((a.div b).isNonGp = true ↔
        a.isNonGp = true ∨ ¬ ∃ d, b.terms? = some [d] ∧ d.coefficient ≠ 0) ∧
      ((a.pow p).isNonGp = true ↔
        a.isNonGp = true ∨ (∃ ts, a.terms? = some ts ∧ ts.length ≠ 1 ∧ p ≠ 1) ∨
          ∃ t, a.terms? = some [t] ∧ (t.coefficient = 0 ∧ p < 0 ∨
            t.coefficient < 0 ∧ ¬ ∃ n : ℤ, p = n)) :=
  ⟨fun ha hb => ⟨ha.mul hb, ha.div hb⟩, fun ha => ha.pow p,
    fun ha hb => ⟨ha.add hb, ha.mul hb⟩, fun ha hb => ha.div hb,
    fun _ hts hne hb => kind_div hts hne hb, isNonGp_add a b, isNonGp_sub a b, isNonGp_mul a b,
    isNonGp_opposite a, isNonGp_total es, isNonGp_div_iff a b, isNonGp_pow_iff a p⟩

/-- The monomial `x`. -/
noncomputable def singleVariable : Expr ℝ := .monomial ⟨1, .single ⟨0, 0⟩ 1⟩

/-- At `x` and `x - 1`: powers of the monomial are monomials, dividing the sum by it gives a
signomial again, and dividing by the sum leaves the algebra. -/
theorem operator_table_singleVariable :
    (singleVariable.pow (-1 / 2)).IsMonomial ∧
      (shiftedVariable.div singleVariable).kind = shiftedVariable.kind ∧
      (singleVariable.div shiftedVariable).isNonGp = true := by
  have hmonomial : singleVariable.IsMonomial := isMonomial_iff.mpr ⟨_, rfl, one_pos⟩
  obtain ⟨_, hpow, _⟩ := operator_table singleVariable shiftedVariable [] (-1 / 2)
  obtain ⟨_, _, _, _, hkind, _⟩ := operator_table shiftedVariable singleVariable [] 1
  obtain ⟨_, _, _, _, _, _, _, _, _, _, hdiv, _⟩ :=
    operator_table singleVariable shiftedVariable [] 1
  refine ⟨hpow hmonomial, hkind _ rfl ?_ hmonomial, hdiv.mpr (.inr ?_)⟩
  · simp [Term.constant]
  · rintro ⟨d, hd, _⟩
    cases hd

end Expr

end LogConvex
