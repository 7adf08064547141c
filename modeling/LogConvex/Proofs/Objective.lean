import LogConvex.Proofs.Expr
import LogConvex.Objective

/- Accepted objectives over the reals. What is kept of an expression has the value of the
   expression: the terms that are left out are zero. -/
namespace LogConvex

/-- The terms that are not positive in a posynomial are zero. -/
theorem Terms.evaluate_filter_pos {ts : Terms ℝ} (h : Terms.isPositive ts = true) (x : Point ℝ) :
    evaluate (List.filter (fun t => decide (0 < t.coefficient)) ts) x = evaluate ts x := by
  induction ts with
  | nil => simp
  | cons t ts ih =>
    simp only [isPositive, List.all_cons, Bool.and_eq_true] at h ih
    by_cases ht : 0 < t.coefficient
    · simp [ht, ih h.2]
    · have hzero : t.coefficient = 0 := by
        have hp := h.1
        simp only [Term.isPositive, ht, decide_false, Bool.false_or, Bool.and_eq_true,
          beq_iff_eq] at hp
        exact hp.1
      simp [hzero, ih h.2, Term.evaluate_eq_mul t]

namespace Objective

section Checks

variable {R : Type} [Scalar R] {d : Direction} {e : Expr R} {f : Objective R}

/-- Everything that is accepted: a posynomial without its zero terms to minimize, or a
positive term to maximize. -/
theorem ofExpr_cases (h : ofExpr d e = .ok f) :
    (d = .minimize ∧ ∃ ts, e.terms? = some ts ∧ Terms.isPositive ts = true ∧
      List.filter (fun t => decide (0 < t.coefficient)) ts ≠ [] ∧
      f = .minimize (List.filter (fun t => decide (0 < t.coefficient)) ts)) ∨
    d = .maximize ∧ ∃ m, e.terms? = some [m] ∧ 0 < m.coefficient ∧ f = .maximize m := by
  unfold ofExpr at h
  split at h
  · simp at h
  · cases d with
    | minimize =>
      refine .inl ⟨rfl, ?_⟩
      simp only [Expr.asPosynomial?] at h
      cases hts : e.terms? with
      | none => simp [hts] at h
      | some ts =>
        by_cases hp : Terms.isPositive ts = true
        · refine ⟨ts, rfl, hp, ?_⟩
          simp only [hts, hp, if_true] at h
          split at h
          · simp at h
          · next hne => exact ⟨hne, by simpa using h.symm⟩
        · simp [hts, hp] at h
    | maximize =>
      refine .inr ⟨rfl, ?_⟩
      simp only [Expr.asMonomial?] at h
      split at h
      · simp at h
      · next m hm =>
        split at hm
        · next t ht =>
          split_ifs at hm h with hpos hcoef
          obtain rfl : t = m := Option.some.inj hm
          exact ⟨t, ht, hcoef, by simpa using h.symm⟩
        · simp at hm

/-- An accepted objective has at least one term, and positive terms of the expression
only. -/
theorem terms_ofExpr (h : ofExpr d e = .ok f) :
    f.terms ≠ [] ∧ ∀ t ∈ f.terms, 0 < t.coefficient ∧
      ∀ v ∈ t.exponents.keys, v ∈ e.occurrences := by
  rcases ofExpr_cases h with ⟨_, ts, hts, _, hne, rfl⟩ | ⟨_, m, hm, hpos, rfl⟩
  · refine ⟨hne, fun t ht => ?_⟩
    obtain ⟨hmem, hpos⟩ := List.mem_filter.mp ht
    refine ⟨by simpa using hpos, fun v hv => ?_⟩
    rw [Expr.occurrences_of_terms? hts]
    exact Terms.mem_occurrences.mpr ⟨t, hmem, hv⟩
  · refine ⟨by simp [terms], fun t ht => ?_⟩
    obtain rfl : t = m := by simpa [terms] using ht
    refine ⟨hpos, fun v hv => ?_⟩
    rw [Expr.occurrences_of_terms? hm]
    exact Terms.mem_occurrences.mpr ⟨t, by simp, hv⟩

theorem badTerm?_of_ofExpr (h : ofExpr d e = .ok f) : badTerm? e = none := by
  unfold ofExpr at h
  split at h
  · simp at h
  · assumption

/-- Every coefficient of an accepted objective is a number. -/
theorem isFinite_of_ofExpr (h : ofExpr d e = .ok f) :
    ∀ t ∈ f.terms, Scalar.isFinite t.coefficient = true := by
  have hbad := badTerm?_of_ofExpr h
  have hfinite : ∀ ts, e.terms? = some ts → ∀ t ∈ ts, Scalar.isFinite t.coefficient = true := by
    intro ts hts t ht
    rw [badTerm?, hts, Option.bind_some] at hbad
    simpa using List.find?_eq_none.mp hbad t ht
  intro t ht
  rcases ofExpr_cases h with ⟨_, ts, hts, _, _, rfl⟩ | ⟨_, m, hm, _, rfl⟩
  · exact hfinite ts hts t (List.mem_filter.mp ht).1
  · exact hfinite [m] hm t ht

theorem direction_ofExpr (h : ofExpr d e = .ok f) : f.direction = d := by
  rcases ofExpr_cases h with ⟨rfl, _, _, _, _, rfl⟩ | ⟨rfl, _, _, _, rfl⟩ <;> rfl

end Checks

/-- An accepted objective has the value of the expression, at any point. -/
theorem evaluate_ofExpr {d : Direction} {e : Expr ℝ} {f : Objective ℝ} (h : ofExpr d e = .ok f)
    (x : Point ℝ) : f.evaluate x = e.evaluate x := by
  rcases ofExpr_cases h with ⟨_, ts, hts, hp, _, rfl⟩ | ⟨_, m, hm, _, rfl⟩
  · rw [Expr.evaluate_of_terms? hts]
    exact Terms.evaluate_filter_pos hp x
  · rw [Expr.evaluate_of_terms? hm]
    simp [evaluate]

end Objective

end LogConvex
