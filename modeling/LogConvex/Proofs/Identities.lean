import LogConvex.Proofs.OperatorTable
import LogConvex.Proofs.Uniqueness

/- Laws of the algebra that hold for what is stored, and not only for the values: both sides
   have the same tag and the same terms in the same order. They hold for sums under their
   narrowest tag that store no zero exponent. Two such terms with the same weights are equal,
   so multiplication of terms is associative, commutative and can be undone, whatever exponents
   cancel on the way (`Term.mul_assoc` .. `Term.pow_mul_pow`); the order of the terms follows
   the order in which products are written out (`Terms.mul_assoc`, `Terms.mul_perm`). No
   operator makes an expression store a zero exponent, in a tree or outside (`ZeroFree`). -/
namespace LogConvex

/-! ## Terms -/

namespace Term

variable {t u d : Term ℝ}

instance : LawfulBEq (Term ℝ) where
  eq_of_beq h := by
    obtain ⟨hcoefficient, hexponents⟩ := Bool.and_eq_true_iff.mp h
    exact ext (eq_of_beq hcoefficient) (Sparse.eq_of_beq hexponents)
  rfl {t} := Bool.and_eq_true_iff.mpr ⟨beq_self_eq_true t.coefficient, beq_self_eq_true t.exponents⟩

protected theorem mul_assoc (ht : t.Reduced) (u w : Term ℝ) :
    (t.mul u).mul w = t.mul (u.mul w) := by
  refine ((ht.mul u).mul w).ext (ht.mul _) ?_ fun v => ?_
  · simp only [coefficient_mul, mul_assoc]
  · simp only [weight_mul, add_assoc]

protected theorem mul_comm (ht : t.Reduced) (hu : u.Reduced) : t.mul u = u.mul t := by
  refine (ht.mul u).ext (hu.mul t) ?_ fun v => ?_
  · rw [coefficient_mul, coefficient_mul, mul_comm]
  · rw [weight_mul, weight_mul, add_comm]

protected theorem mul_one (t : Term ℝ) : t.mul (constant 1) = t :=
  ext (by rw [coefficient_mul]; exact mul_one t.coefficient) rfl

/-- Multiplication by a term that is not zero can be undone, even if that term stores zeros. -/
theorem mul_div_cancel (ht : t.Reduced) (hd : d.coefficient ≠ 0) : (t.mul d).div d = t := by
  refine ((ht.mul d).div d).ext ht ?_ fun v => ?_
  · rw [coefficient_div, coefficient_mul, mul_div_cancel_right₀ _ hd]
  · rw [weight_div, weight_mul, add_sub_cancel_right]

theorem pow_pow (hpos : 0 < t.coefficient) (p q : ℝ) : (t.pow p).pow q = t.pow (p * q) := by
  rcases eq_or_ne q 0 with rfl | hq
  · rw [mul_zero, Term.pow_zero, Term.pow_zero]
  rcases eq_or_ne p 0 with rfl | hp
  · rw [zero_mul, Term.pow_zero, pow_of_ne_zero _ hq]
    exact ext (Real.one_rpow q) rfl
  · rw [pow_of_ne_zero t hp, pow_of_ne_zero _ hq, pow_of_ne_zero t (mul_ne_zero hp hq)]
    apply ext
    · exact (Real.rpow_mul hpos.le p q).symm
    · simp [Sparse.map, Function.comp_def, mul_assoc]

theorem pow_mul_pow (ht : t.Reduced) (hpos : 0 < t.coefficient) (p q : ℝ) :
    (t.pow p).mul (t.pow q) = t.pow (p + q) := by
  refine ((ht.pow p).mul _).ext (ht.pow _) ?_ fun v => ?_
  · simp only [coefficient_mul, coefficient_pow, Real.rpow_add hpos]
  · simp only [weight_mul, weight_pow, mul_add]

end Term

/-! ## Sums of terms -/

namespace Terms

variable {ts us : Terms ℝ}

theorem mul_cons (t : Term ℝ) (ts us : Terms ℝ) :
    mul (t :: ts) us = List.map (t.mul ·) us ++ mul ts us := rfl

theorem mul_append (ts us ws : Terms ℝ) : mul (ts ++ us) ws = mul ts ws ++ mul us ws :=
  List.flatMap_append

theorem mul_map_mul {t : Term ℝ} (ht : t.Reduced) (us ws : Terms ℝ) :
    mul (List.map (t.mul ·) us) ws = List.map (t.mul ·) (mul us ws) := by
  simp only [mul, List.flatMap_map, List.map_flatMap, List.map_map, Function.comp_def,
    Term.mul_assoc ht]

/-- In both orders of multiplication the terms of the first sum vary slowest. -/
protected theorem mul_assoc (hts : ∀ t ∈ ts, t.Reduced) (us ws : Terms ℝ) :
    mul (mul ts us) ws = mul ts (mul us ws) := by
  induction ts with
  | nil => rfl
  | cons t ts ih =>
    obtain ⟨ht, hts⟩ := List.forall_mem_cons.mp hts
    rw [mul_cons, mul_append, mul_map_mul ht, ih hts, mul_cons]

protected theorem mul_one (ts : Terms ℝ) : mul ts [.constant 1] = ts := by
  induction ts with
  | nil => rfl
  | cons t ts ih => rw [mul_cons, ih, List.map_singleton, Term.mul_one, List.singleton_append]

/-- Exchanging the factors moves terms, and changes none of them. -/
theorem mul_perm (hts : ∀ t ∈ ts, t.Reduced) (hus : ∀ u ∈ us, u.Reduced) :
    (mul ts us).Perm (mul us ts) := by
  induction ts with
  | nil => simp [mul]
  | cons t ts ih =>
    obtain ⟨ht, hts⟩ := List.forall_mem_cons.mp hts
    have hfirst : List.map (t.mul ·) us = List.map (·.mul t) us :=
      List.map_congr_left fun u hu => Term.mul_comm ht (hus u hu)
    rw [mul_cons, hfirst]
    exact ((ih hts).append_left _).trans
      (List.map_append_flatMap_perm us (·.mul t) fun u => List.map (u.mul ·) ts)

theorem divTerm_mul_cancel {d : Term ℝ} (hts : ∀ t ∈ ts, t.Reduced) (hd : d.coefficient ≠ 0) :
    divTerm (mul ts [d]) d = ts := by
  induction ts with
  | nil => rfl
  | cons t ts ih =>
    obtain ⟨ht, hts⟩ := List.forall_mem_cons.mp hts
    have hrest : divTerm (mul (t :: ts) [d]) d = (t.mul d).div d :: divTerm (mul ts [d]) d := rfl
    rw [hrest, Term.mul_div_cancel ht hd, ih hts]

end Terms

/-! ## Expressions -/

namespace Expr

variable {a b c m : Expr ℝ} {ts us ws : Terms ℝ}

theorem beq_eq_true_iff (a b : Expr ℝ) : a.beq b = true ↔ a = b := by
  induction a generalizing b with
  | monomial t | posynomial ts | signomial ts => cases b <;> simp [beq]
  | power a p ih => cases b <;> simp [beq, ih]
  | neg a ih => cases b <;> simp [beq, ih]
  | quotient a c iha ihc | sum a c iha ihc | product a c iha ihc =>
    cases b <;> simp [beq, iha, ihc]

instance : LawfulBEq (Expr ℝ) where
  eq_of_beq {a b} := (beq_eq_true_iff a b).mp
  rfl {a} := (beq_eq_true_iff a a).mpr rfl

/-- A sum under its narrowest tag that stores no zero exponent. -/
structure NormalSum (e : Expr ℝ) : Prop where
  isNonGp_eq : e.isNonGp = false
  tag_eq : e.tag = e.kind
  reduced : e.Reduced

/-- A sum is determined by its tag and its terms. -/
theorem eq_of_tag_eq (ha : a.isNonGp = false) (htag : a.tag = b.tag)
    (hterms : a.terms? = b.terms?) : a = b := by
  cases a <;> cases b <;> simp_all [tag, terms?, isNonGp]

/-- A normal sum is the one that its terms lead to. -/
theorem NormalSum.exists_terms (h : a.NormalSum) :
    ∃ ts, a.terms? = some ts ∧ a = ofTerms ts ∧ ∀ t ∈ ts, t.Reduced := by
  cases hts : a.terms? with
  | none => exact absurd h.isNonGp_eq (by simp [isNonGp, hts])
  | some ts =>
    have hterms : a.terms? = (ofTerms ts).terms? := hts.trans (terms?_ofTerms ts).symm
    have htag : a.tag = (ofTerms ts).tag := by
      rw [h.tag_eq, (narrow_ofTerms ts).tag_eq, kind, kind, hterms]
    exact ⟨ts, rfl, eq_of_tag_eq h.isNonGp_eq htag hterms, h.reduced ts hts⟩

theorem normalSum_singleVariable : singleVariable.NormalSum where
  isNonGp_eq := rfl
  tag_eq := (kind_eq_monomial_iff.mpr ⟨_, rfl, Term.isPositive_of_pos one_pos⟩).symm
  reduced := by
    rintro ts ⟨⟩
    exact List.forall_mem_singleton.mpr (Sparse.reduced_single one_ne_zero _)

theorem normalSum_shiftedVariable : shiftedVariable.NormalSum where
  isNonGp_eq := rfl
  tag_eq := by
    refine (kind_eq_signomial_iff.mpr ⟨_, rfl, ?_⟩).symm
    simp [Terms.isPositive, Term.isPositive, Term.constant]
  reduced := by
    rintro ts ⟨⟩
    exact List.forall_mem_cons.mpr ⟨Sparse.reduced_single one_ne_zero _,
      List.forall_mem_singleton.mpr Sparse.reduced_empty⟩

theorem add_assoc_of_terms? (ha : a.terms? = some ts) (hb : b.terms? = some us)
    (hc : c.terms? = some ws) : (a.add b).add c = a.add (b.add c) := by
  rw [add_of_terms? (terms?_add ha hb) hc, add_of_terms? ha (terms?_add hb hc), List.append_assoc]

theorem NormalSum.add_zero (ha : a.NormalSum) {zero : Expr ℝ} (hzero : zero.terms? = some []) :
    a.add zero = a := by
  obtain ⟨ts, hts, heq, _⟩ := ha.exists_terms
  rw [add_of_terms? hts hzero, List.append_nil, ← heq]

theorem NormalSum.mul_one (ha : a.NormalSum) {one : Expr ℝ}
    (hone : one.terms? = some [.constant 1]) : a.mul one = a := by
  obtain ⟨ts, hts, heq, _⟩ := ha.exists_terms
  rw [mul_of_terms? hts hone, Terms.mul_one, ← heq]

theorem NormalSum.opposite_opposite (ha : a.NormalSum) : a.opposite.opposite = a := by
  obtain ⟨ts, hts, heq, _⟩ := ha.exists_terms
  rw [opposite_of_terms? (terms?_opposite hts), Terms.neg_neg, ← heq]

theorem mul_assoc_of_terms? (ha : a.terms? = some ts) (hts : ∀ t ∈ ts, t.Reduced)
    (hb : b.terms? = some us) (hc : c.terms? = some ws) :
    (a.mul b).mul c = a.mul (b.mul c) := by
  rw [mul_of_terms? (terms?_mul ha hb) hc, mul_of_terms? ha (terms?_mul hb hc),
    Terms.mul_assoc hts]

theorem add_mul_of_terms? (ha : a.terms? = some ts) (hb : b.terms? = some us)
    (hc : c.terms? = some ws) : (a.add b).mul c = (a.mul c).add (b.mul c) := by
  rw [mul_of_terms? (terms?_add ha hb) hc, add_of_terms? (terms?_mul ha hc) (terms?_mul hb hc),
    Terms.mul_append]

/-- A single term that is not zero can be cancelled, whatever its tag. -/
theorem NormalSum.mul_div_cancel (ha : a.NormalSum) {d : Term ℝ} (hm : m.terms? = some [d])
    (hd : d.coefficient ≠ 0) : (a.mul m).div m = a := by
  obtain ⟨ts, hts, heq, hreduced⟩ := ha.exists_terms
  rw [div_of_terms? (terms?_mul hts hm) hm (beq_false_of_ne hd),
    Terms.divTerm_mul_cancel hreduced hd, ← heq]

theorem IsMonomial.pow_pow (hm : m.IsMonomial) (p q : ℝ) :
    (m.pow p).pow q = m.pow (p * q) := by
  obtain ⟨t, ht, hpos⟩ := isMonomial_iff.mp hm
  rw [pow_of_pos (terms?_pow_of_pos ht hpos p) (Term.coefficient_pow_pos hpos p),
    pow_of_pos ht hpos, Term.pow_pow hpos]

theorem IsMonomial.pow_mul_pow (hm : m.IsMonomial) (hreduced : m.Reduced) (p q : ℝ) :
    (m.pow p).mul (m.pow q) = m.pow (p + q) := by
  obtain ⟨t, ht, hpos⟩ := isMonomial_iff.mp hm
  have hproduct : Terms.mul [t.pow p] [t.pow q] = [(t.pow p).mul (t.pow q)] := rfl
  rw [mul_of_terms? (terms?_pow_of_pos ht hpos p) (terms?_pow_of_pos ht hpos q), hproduct,
    Term.pow_mul_pow (hreduced [t] ht t List.mem_cons_self) hpos, pow_of_pos ht hpos]

/-! ## Exponents that are zero -/

/-- Nothing in the expression stores a zero exponent, also inside a tree. -/
def ZeroFree : Expr ℝ → Prop
  | monomial t => t.Reduced
  | posynomial ts => ∀ t ∈ ts, t.Reduced
  | signomial ts => ∀ t ∈ ts, t.Reduced
  | power a _ => a.ZeroFree
  | quotient a b => a.ZeroFree ∧ b.ZeroFree
  | sum a b => a.ZeroFree ∧ b.ZeroFree
  | product a b => a.ZeroFree ∧ b.ZeroFree
  | neg a => a.ZeroFree

namespace ZeroFree

theorem of_reduced (h : a.Reduced) (hts : a.terms? = some ts) : a.ZeroFree := by
  have hreduced := h ts hts
  cases a with
  | monomial t =>
    cases hts
    exact hreduced t List.mem_cons_self
  | posynomial _ | signomial _ =>
    cases hts
    exact hreduced
  | power _ _ | quotient _ _ | sum _ _ | product _ _ | neg _ => cases hts

theorem reduced (h : a.ZeroFree) : a.Reduced := by
  intro ts hts
  cases a with
  | monomial t =>
    cases hts
    exact List.forall_mem_singleton.mpr h
  | posynomial _ | signomial _ =>
    cases hts
    exact h
  | power _ _ | quotient _ _ | sum _ _ | product _ _ | neg _ => cases hts

theorem add (ha : a.ZeroFree) (hb : b.ZeroFree) : (a.add b).ZeroFree := by
  rcases add_cases a b with ⟨ts, us, hts, hus, _⟩ | ⟨_, h⟩
  · exact of_reduced (ha.reduced.add hb.reduced) (terms?_add hts hus)
  · exact h ▸ ⟨ha, hb⟩

theorem opposite (ha : a.ZeroFree) : a.opposite.ZeroFree := by
  rcases opposite_cases a with ⟨ts, hts, _⟩ | ⟨_, h⟩
  · exact of_reduced ha.reduced.opposite (terms?_opposite hts)
  · exact h ▸ ha

theorem mul (ha : a.ZeroFree) (hb : b.ZeroFree) : (a.mul b).ZeroFree := by
  rcases mul_cases a b with ⟨ts, us, hts, hus, _⟩ | ⟨_, h⟩
  · exact of_reduced ha.reduced.mul (terms?_mul hts hus)
  · exact h ▸ ⟨ha, hb⟩

theorem div (ha : a.ZeroFree) (hb : b.ZeroFree) : (a.div b).ZeroFree := by
  rcases div_cases a b with ⟨ts, d, hts, hd, hne, _⟩ | ⟨_, h⟩
  · exact of_reduced ha.reduced.div (terms?_div hts hd hne)
  · exact h ▸ ⟨ha, hb⟩

theorem pow (ha : a.ZeroFree) (p : ℝ) : (a.pow p).ZeroFree := by
  rcases pow_cases a p with h | ⟨_, h⟩ | ⟨t, _, h⟩
  · exact h ▸ ha
  · rwa [h]
  · exact of_reduced (ha.reduced.pow p) (h ▸ terms?_ofTerms [t.pow p])

theorem total {es : List (Expr ℝ)} (h : ∀ e ∈ es, e.ZeroFree) : (total es).ZeroFree :=
  List.foldlRecOn (motive := ZeroFree) es Expr.add
    (of_reduced (.ofTerms (by simp)) (terms?_ofTerms [])) fun _ ha e he => ha.add (h e he)

end ZeroFree

/-! ## The laws -/

/-- The laws of the algebra, as equalities of what is stored. Sums in another order are other
expressions, so the commutative laws are about the terms up to their order. The single terms `m`
may carry any tag, and only where powers are multiplied it matters that they store no zero. -/
theorem algebra_laws (ha : a.NormalSum) (hb : b.NormalSum) (hc : c.NormalSum) (p q : ℝ) :
    (a.add b).add c == a.add (b.add c) ∧
      (∀ zero : Expr ℝ, zero.terms? = some [] → a.add zero == a) ∧
      (a.mul b).mul c == a.mul (b.mul c) ∧
      (∀ one : Expr ℝ, one.terms? = some [.constant 1] → a.mul one == a) ∧
      (a.add b).mul c == (a.mul c).add (b.mul c) ∧
      a.opposite.opposite == a ∧
      (∀ (m : Expr ℝ) (d : Term ℝ), m.terms? = some [d] → d.coefficient ≠ 0 →
        (a.mul m).div m == a) ∧
      (∀ m : Expr ℝ, m.IsMonomial → (m.pow p).pow q == m.pow (p * q)) ∧
      (∀ m : Expr ℝ, m.IsMonomial → m.Reduced → (m.pow p).mul (m.pow q) == m.pow (p + q)) ∧
      (∃ ts us, (a.add b).terms? = some ts ∧ (b.add a).terms? = some us ∧ ts.Perm us) ∧
      (∃ ts us, (a.mul b).terms? = some ts ∧ (b.mul a).terms? = some us ∧ ts.Perm us) ∧
      (∀ e f : Expr ℝ, e.ZeroFree → f.ZeroFree → (e.add f).ZeroFree ∧ (e.sub f).ZeroFree ∧
        (e.mul f).ZeroFree ∧ (e.div f).ZeroFree ∧ e.opposite.ZeroFree ∧ (e.pow p).ZeroFree) ∧
      ∀ es : List (Expr ℝ), (∀ e ∈ es, e.ZeroFree) → (total es).ZeroFree := by
  obtain ⟨ts, hts, _, hreduced⟩ := ha.exists_terms
  obtain ⟨us, hus, _, hreduced'⟩ := hb.exists_terms
  obtain ⟨ws, hws, _, _⟩ := hc.exists_terms
  simp only [beq_iff_eq]
  refine ⟨add_assoc_of_terms? hts hus hws, fun _ hzero => ha.add_zero hzero,
    mul_assoc_of_terms? hts hreduced hus hws, fun _ hone => ha.mul_one hone,
    add_mul_of_terms? hts hus hws, ha.opposite_opposite, fun _ _ hm hd => ha.mul_div_cancel hm hd,
    fun _ hm => hm.pow_pow p q, fun _ hm hm' => hm.pow_mul_pow hm' p q, ?_, ?_, ?_,
    fun _ hes => .total hes⟩
  · exact ⟨_, _, terms?_add hts hus, terms?_add hus hts, List.perm_append_comm⟩
  · exact ⟨_, _, terms?_mul hts hus, terms?_mul hus hts, Terms.mul_perm hreduced hreduced'⟩
  · intro e f he hf
    exact ⟨he.add hf, he.add hf.opposite, he.mul hf, he.div hf, he.opposite, he.pow p⟩

/-- With `x` and `x - 1`: the product with `x` can be undone, and two opposite powers of `x`
multiply to its power zero. -/
theorem algebra_laws_singleVariable :
    (shiftedVariable.mul singleVariable).div singleVariable == shiftedVariable ∧
      (singleVariable.pow 2).mul (singleVariable.pow (-2)) == singleVariable.pow (2 + -2) := by
  obtain ⟨_, _, _, _, _, _, hcancel, _, hpowers, _⟩ := algebra_laws normalSum_shiftedVariable
    normalSum_singleVariable normalSum_shiftedVariable 2 (-2)
  have hmonomial : singleVariable.IsMonomial := isMonomial_iff.mpr ⟨_, rfl, one_pos⟩
  exact ⟨hcancel singleVariable _ rfl one_ne_zero,
    hpowers singleVariable hmonomial normalSum_singleVariable.reduced⟩

end Expr

end LogConvex
