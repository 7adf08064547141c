import LogConvex.Proofs.Expr

/- Evaluation over the reals commutes with every operator of the algebra. Each operator
   has two ways to its result: it computes with the terms of its operands, or it builds a
   tree over them. The tree has the right value by definition; the lemmas below show that
   the terms have the same value, whatever merges, cancels or vanishes on the way. Sums and
   opposites agree at any point, products, quotients and powers at positive points, where
   exponents can be added up. -/
namespace LogConvex

/-- The power is a real number: of a positive base, of zero with an exponent that is not
negative, or of any base but zero with an integer exponent. -/
def RealPower (base exponent : ℝ) : Prop :=
  0 < base ∨ (base = 0 ∧ 0 ≤ exponent) ∨ (base ≠ 0 ∧ ∃ n : ℤ, exponent = n)

namespace Expr

@[simp] theorem evaluate_ofTerms (ts : Terms ℝ) (x : Point ℝ) :
    (ofTerms ts).evaluate x = Terms.evaluate ts x :=
  evaluate_of_terms? (terms?_ofTerms ts) x

theorem covers_terms {e : Expr ℝ} {ts : Terms ℝ} (h : e.terms? = some ts) {x : Point ℝ}
    (hc : x.Covers e.occurrences) : x.Covers (Terms.occurrences ts) := by
  rwa [← occurrences_of_terms? h]

/-! ## Sums -/

theorem evaluate_add (a b : Expr ℝ) (x : Point ℝ) :
    (a.add b).evaluate x = a.evaluate x + b.evaluate x := by
  unfold add
  split
  · next ts us ha hb =>
    rw [evaluate_ofTerms, Terms.evaluate_append, evaluate_of_terms? ha, evaluate_of_terms? hb]
  · rfl

theorem evaluate_opposite (a : Expr ℝ) (x : Point ℝ) :
    a.opposite.evaluate x = -a.evaluate x := by
  unfold opposite
  split
  · next ts ha => rw [evaluate_ofTerms, Terms.evaluate_neg, evaluate_of_terms? ha]
  · rfl

theorem evaluate_sub (a b : Expr ℝ) (x : Point ℝ) :
    (a.sub b).evaluate x = a.evaluate x - b.evaluate x := by
  rw [sub, evaluate_add, evaluate_opposite, sub_eq_add_neg]

theorem evaluate_total (es : List (Expr ℝ)) (x : Point ℝ) :
    (total es).evaluate x = (es.map fun e => e.evaluate x).sum := by
  rw [total, view_foldl (fun e : Expr ℝ => e.evaluate x) _ _ fun a e => evaluate_add a e x]
  simp

/-! ## Products, quotients and powers -/

section Positive

variable {x : Point ℝ} (hx : x.Positive)
include hx

theorem evaluate_mul {a b : Expr ℝ} (ha : x.Covers a.occurrences) (hb : x.Covers b.occurrences) :
    (a.mul b).evaluate x = a.evaluate x * b.evaluate x := by
  unfold mul
  split
  · next ts us hts hus =>
    rw [evaluate_ofTerms, Terms.evaluate_mul hx (covers_terms hts ha) (covers_terms hus hb),
      evaluate_of_terms? hts, evaluate_of_terms? hus]
  · rfl

theorem evaluate_div {a b : Expr ℝ} (ha : x.Covers a.occurrences) (hb : x.Covers b.occurrences) :
    (a.div b).evaluate x = a.evaluate x / b.evaluate x := by
  unfold div
  split
  · next ts d hts hd =>
    split
    · rfl
    · have hcd : x.Covers d.exponents.keys :=
        Terms.covers_occurrences.mp (covers_terms hd hb) d (by simp)
      rw [evaluate_ofTerms, Terms.evaluate_divTerm hx (covers_terms hts ha) hcd,
        evaluate_of_terms? hts, evaluate_of_terms? hd]
      simp
  · rfl

/-- Where the power of a single term stays a term, its coefficient is not negative or the
exponent is an integer. Everything else is a tree, or the power one. -/
theorem evaluate_pow {a : Expr ℝ} (ha : x.Covers a.occurrences) (p : ℝ) :
    (a.pow p).evaluate x = a.evaluate x ^ p := by
  have hone : (p == 1) = true → a.evaluate x = a.evaluate x ^ p := by
    intro hp
    rw [beq_iff_eq.mp hp, Real.rpow_one]
  unfold pow
  split
  · next t ht =>
    split
    · rfl
    · split
      · next hp =>
        have hterm : 0 ≤ t.coefficient ∨ ∃ n : ℤ, p = n := by
          rwa [Bool.or_eq_true, decide_eq_true_iff, Scalar.isWhole_real] at hp
        have hct : x.Covers t.exponents.keys :=
          Terms.covers_occurrences.mp (covers_terms ht ha) t (by simp)
        rw [evaluate_ofTerms, evaluate_of_terms? ht]
        simp [Term.evaluate_pow hterm hx hct]
      · split
        · next hp => exact hone hp
        · rfl
  · split
    · next hp => exact hone hp
    · rfl
  · rfl

end Positive

/-- Evaluation is a homomorphism of the whole algebra: expressions of any kind are added,
subtracted, negated, multiplied, divided and raised to powers as their values are, wherever
the quotient or the power is a real number. -/
theorem evaluate_homomorphic {x : Point ℝ} (hx : x.Positive) {a b : Expr ℝ}
    (ha : x.Covers a.occurrences) (hb : x.Covers b.occurrences) :
    (a.add b).evaluate x = a.evaluate x + b.evaluate x ∧
      (a.sub b).evaluate x = a.evaluate x - b.evaluate x ∧
      a.opposite.evaluate x = -a.evaluate x ∧
      (a.mul b).evaluate x = a.evaluate x * b.evaluate x ∧
      (b.evaluate x ≠ 0 → (a.div b).evaluate x = a.evaluate x / b.evaluate x) ∧
      (∀ p, RealPower (a.evaluate x) p → (a.pow p).evaluate x = a.evaluate x ^ p) ∧
      ∀ es : List (Expr ℝ), (∀ e ∈ es, x.Covers e.occurrences) →
        (total es).evaluate x = (es.map fun e => e.evaluate x).sum :=
  ⟨evaluate_add a b x, evaluate_sub a b x, evaluate_opposite a x, evaluate_mul hx ha hb,
    fun _ => evaluate_div hx ha hb, fun p _ => evaluate_pow hx ha p,
    fun es _ => evaluate_total es x⟩

/-- The term `-x`. -/
noncomputable def negativeTerm : Expr ℝ := .signomial [⟨-1, .single ⟨0, 0⟩ 1⟩]

/-- The sum `x - 1`. -/
noncomputable def shiftedVariable : Expr ℝ := .signomial [⟨1, .single ⟨0, 0⟩ 1⟩, .constant (-1)]

/-- At `x = 3`: the cube of a negative term, which stays a term, and its quotient by a sum,
which does not. -/
theorem evaluate_homomorphic_negative :
    (negativeTerm.pow 3).evaluate [3] = -27 ∧
      (negativeTerm.div shiftedVariable).evaluate [3] = -3 / 2 := by
  have ha : negativeTerm.evaluate [3] = -3 := by
    simp [negativeTerm, evaluate, Term.evaluate, Sparse.single, Point.value]
  have hb : shiftedVariable.evaluate [3] = 2 := by
    rw [shiftedVariable, evaluate, Terms.evaluate_cons, Terms.evaluate_cons,
      Term.evaluate_constant]
    simp [Term.evaluate, Sparse.single, Point.value]
    norm_num
  obtain ⟨_, _, _, _, hdiv, hpow, _⟩ := evaluate_homomorphic (x := [3]) (a := negativeTerm)
    (b := shiftedVariable) (by simp [Point.Positive])
    (by simp [Point.Covers, negativeTerm, occurrences, Terms.occurrences, Sparse.keys,
      Sparse.single])
    (by simp [Point.Covers, shiftedVariable, occurrences, Terms.occurrences, Sparse.keys,
      Sparse.single, Term.constant, Sparse.empty])
  rw [ha] at hpow hdiv
  rw [hb] at hdiv
  have hcube : RealPower (-3) 3 := .inr (.inr ⟨by norm_num, 3, by norm_num⟩)
  constructor
  · rw [hpow 3 hcube]
    norm_num
  · rw [hdiv (by norm_num)]

end Expr

end LogConvex
