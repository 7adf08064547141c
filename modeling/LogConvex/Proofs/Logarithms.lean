import LogConvex.Proofs.Lowering

/- Affine forms as a calculus of logarithms. However a form was built, its value is what the
   building says about columns (`Affine.Recipe.evaluate_form`), although columns that are added up
   share one coefficient and coefficients that became zero are kept. A form is constant exactly if
   no column changes its value (`Affine.isConstant_iff`): raising one column by one shows its
   coefficient. Taking logarithms turns products of terms into sums of forms, quotients into
   differences and powers into multiples, for any values of the columns. -/
namespace LogConvex

namespace Affine

/-! ## Building forms -/

/-- A way to build a form. -/
inductive Recipe (R : Type) where
  | zero
  | column (c : Nat)
  | scalar (x : R)
  | addTerm (r : Recipe R) (c : Nat) (x : R)
  | add (r s : Recipe R)
  | neg (r : Recipe R)
  | scale (r : Recipe R) (x : R)

namespace Recipe

/-- The form that is built. -/
def form {R : Type} [Scalar R] : Recipe R → Affine R
  | zero => .zero
  | column c => .column c
  | scalar x => .scalar x
  | addTerm r c x => r.form.addTerm c x
  | add r s => r.form.add s.form
  | neg r => r.form.neg
  | scale r x => r.form.scale x

/-- The number that a recipe stands for, where the columns have the given values and further
columns are zero. -/
noncomputable def value (y : List ℝ) : Recipe ℝ → ℝ
  | zero => 0
  | column c => y[c]?.getD 0
  | scalar x => x
  | addTerm r c x => r.value y + x * y[c]?.getD 0
  | add r s => r.value y + s.value y
  | neg r => -r.value y
  | scale r x => r.value y * x

theorem evaluate_form (r : Recipe ℝ) (y : List ℝ) : r.form.evaluate y = r.value y := by
  induction r with
  | zero => exact evaluate_zero y
  | column c => exact evaluate_column c y
  | scalar x => exact evaluate_scalar x y
  | addTerm r c x ih => rw [form, evaluate_addTerm, ih, value, columnValue]
  | add r s ihr ihs => rw [form, evaluate_add, ihr, ihs, value]
  | neg r ih => rw [form, evaluate_neg, ih, value]
  | scale r x ih => rw [form, evaluate_scale, ih, value]

end Recipe

/-! ## Constant forms -/

/-- All columns are zero, but for one. -/
noncomputable def raised (c : Nat) : List ℝ := List.replicate c 0 ++ [1]

theorem columnValue_raised (c d : Nat) : columnValue (raised c) d = if d = c then 1 else 0 := by
  rw [columnValue, raised]
  rcases Nat.lt_trichotomy d c with h | rfl | h
  · simp [List.getElem?_append_left, h, h.ne]
  · simp
  · have hbeyond : (List.replicate c (0 : ℝ) ++ [1]).length ≤ d := by simpa using h
    rw [List.getElem?_eq_none hbeyond, if_neg h.ne', Option.getD_none]

/-- What a column adds to the value is its coefficient. -/
theorem evaluate_raised (a : Affine ℝ) (c : Nat) :
    a.evaluate (raised c) = a.coefficients.weight c + a.constant := by
  rw [evaluate_eq, a.coefficients.weight_eq_dot (f := columnValue (raised c))]
  · rw [columnValue_raised, if_pos rfl]
  · intro d hd
    rw [columnValue_raised, if_neg hd]

theorem isConstant_iff (a : Affine ℝ) :
    a.isConstant = true ↔ ∀ y z, a.evaluate y = a.evaluate z := by
  rw [isConstant, List.all_eq_true]
  constructor
  · intro h y z
    have hdot : ∀ f, a.coefficients.dot f = 0 := by
      intro f
      apply List.sum_eq_zero
      intro b hb
      obtain ⟨e, he, rfl⟩ := List.mem_map.mp hb
      rw [eq_of_beq (h e he), zero_mul]
    rw [evaluate_eq, evaluate_eq, hdot, hdot]
  · intro h e he
    have hraised : a.coefficients.weight e.1 + a.constant = a.constant := by
      rw [← evaluate_raised, h (raised e.1) [], evaluate_eq]
      simp [columnValue, Sparse.dot]
    have hweight : a.coefficients.weight e.1 = e.2 := by
      rw [Sparse.weight, Sparse.get?_of_mem he, Option.getD_some]
    rw [beq_iff_eq]
    linarith

end Affine

/-! ## Logarithms of products, quotients and powers -/

namespace Term

variable {t u : Term ℝ}

theorem evaluate_logAffine_mul (ht : 0 < t.coefficient) (hu : 0 < u.coefficient) (y : List ℝ) :
    (t.mul u).logAffine.evaluate y = (t.logAffine.add u.logAffine).evaluate y := by
  rw [Affine.evaluate_add, evaluate_logAffine_eq, evaluate_logAffine_eq, evaluate_logAffine_eq,
    coefficient_mul, dot_mul, Real.log_mul ht.ne' hu.ne']
  ring

theorem evaluate_logAffine_div (ht : 0 < t.coefficient) (hu : 0 < u.coefficient) (y : List ℝ) :
    (t.div u).logAffine.evaluate y = (t.logAffine.add u.logAffine.neg).evaluate y := by
  rw [Affine.evaluate_add, Affine.evaluate_neg, evaluate_logAffine_eq, evaluate_logAffine_eq,
    evaluate_logAffine_eq, coefficient_div, dot_div, Real.log_div ht.ne' hu.ne']
  ring

theorem evaluate_logAffine_pow (ht : 0 < t.coefficient) (p : ℝ) (y : List ℝ) :
    (t.pow p).logAffine.evaluate y = (t.logAffine.scale p).evaluate y := by
  rw [Affine.evaluate_scale, evaluate_logAffine_eq, evaluate_logAffine_eq, coefficient_pow, dot_pow,
    Real.log_rpow ht]
  ring

end Term

namespace Affine

/-- Forms are a calculus of logarithms. Whatever steps build a form, its value is what they say,
and it is constant exactly if it has the same value everywhere. The form of a term with a positive
coefficient has the logarithm of the term as its value, where the columns are the logarithms of a
point, also if variables of several models share a column; products, quotients and powers of terms
become sums, differences and multiples of forms. -/
theorem calculus_faithful :
    (∀ (r : Recipe ℝ) (y : List ℝ), r.form.evaluate y = r.value y) ∧
      (∀ r : Recipe ℝ, r.form.isConstant = true ↔
        ∀ y z, r.form.evaluate y = r.form.evaluate z) ∧
      (∀ t : Term ℝ, 0 < t.coefficient → ∀ x : Point ℝ, x.Positive → x.Covers t.exponents.keys →
        t.logAffine.evaluate (x.map Real.log) = Real.log (t.evaluate x)) ∧
      ∀ t u : Term ℝ, 0 < t.coefficient → 0 < u.coefficient → ∀ y : List ℝ,
        (t.mul u).logAffine.evaluate y = (t.logAffine.add u.logAffine).evaluate y ∧
          (t.div u).logAffine.evaluate y = (t.logAffine.add u.logAffine.neg).evaluate y ∧
          ∀ p, (t.pow p).logAffine.evaluate y = (t.logAffine.scale p).evaluate y :=
  ⟨Recipe.evaluate_form, fun r => isConstant_iff r.form,
    fun _ ht _ hx hc => Term.evaluate_logAffine ht hx hc (List.prefix_refl _),
    fun _ _ ht hu y => ⟨Term.evaluate_logAffine_mul ht hu y, Term.evaluate_logAffine_div ht hu y,
      fun p => Term.evaluate_logAffine_pow ht p y⟩⟩

/-- The term `k x x' ^ p`, in which `x` and `x'` are the first variables of two models. -/
noncomputable def sharedColumn (k p : ℝ) : Term ℝ := .ofList k [(⟨0, 0⟩, 1), (⟨1, 0⟩, p)]

/-- The difference of a column and itself is constant. -/
def vanishing : Recipe ℝ := .add (.column 3) (.neg (.column 3))

/-- Two variables share the column of the term, and a form keeps a coefficient that is zero. -/
theorem calculus_faithful_sharedColumn :
    (sharedColumn 2 (-3)).logAffine.evaluate [Real.log 4] =
        Real.log ((sharedColumn 2 (-3)).evaluate [4]) ∧
      ((sharedColumn 2 (-3)).pow (1 / 2)).logAffine.evaluate [1] =
        ((sharedColumn 2 (-3)).logAffine.scale (1 / 2)).evaluate [1] ∧
      vanishing.form.columns = [3] ∧ vanishing.form.isConstant = true := by
  obtain ⟨hvalue, hconstant, hlog, hterms⟩ := calculus_faithful
  have hpos : 0 < (sharedColumn 2 (-3)).coefficient := by
    rw [sharedColumn, Term.coefficient_ofList]
    norm_num
  have hcovers : Point.Covers [(4 : ℝ)] (sharedColumn 2 (-3)).exponents.keys := by
    intro v hv
    have hmem := Term.mem_keys_ofList hv
    simp only [List.map_cons, List.map_nil, List.mem_cons, List.not_mem_nil, or_false] at hmem
    rcases hmem with rfl | rfl <;> simp
  have hpositive : Point.Positive [(4 : ℝ)] := by
    intro a ha
    obtain rfl := List.mem_singleton.mp ha
    norm_num
  refine ⟨hlog _ hpos [4] hpositive hcovers, (hterms _ _ hpos hpos [1]).2.2 _, rfl, ?_⟩
  rw [hconstant]
  intro y z
  rw [hvalue, hvalue]
  simp [vanishing, Recipe.value]

end Affine

end LogConvex
