import LogConvex.Proofs.Term
import LogConvex.Expr.Algebra
import LogConvex.Kind

/- Expressions that are sums of terms, over the reals. What `terms?` returns is the whole
   of such an expression: its value and its variables are those of the terms, whatever
   tag it carries. What each operator returns is said once (`add_cases` .. `pow_cases`); its
   variables are among those of the operands. -/
namespace LogConvex

namespace Variable

theorem mem_insert {u v : Variable} {vs : List Variable} :
    u ∈ insert v vs ↔ u = v ∨ u ∈ vs := by
  induction vs with
  | nil => simp [insert]
  | cons w ws ih =>
    rw [insert]
    split
    · exact List.mem_cons
    · next hvw =>
      split
      · rw [List.mem_cons, ih, List.mem_cons, or_left_comm]
      · next hwv =>
        have hv : v = w := Key.eq_of_not_lt hvw hwv
        simp [hv]

/-- Sorting neither loses nor invents a variable. -/
@[simp] theorem mem_sorted {v : Variable} {vs : List Variable} : v ∈ sorted vs ↔ v ∈ vs := by
  induction vs with
  | nil => simp [sorted]
  | cons u us ih =>
    rw [sorted, List.foldr_cons, mem_insert, List.mem_cons]
    exact or_congr_right ih

end Variable

namespace Expr

@[simp] theorem mem_support {R : Type} {e : Expr R} {v : Variable} :
    v ∈ e.support ↔ v ∈ e.occurrences :=
  Variable.mem_sorted

theorem occurrences_of_terms? {R : Type} {e : Expr R} {ts : Terms R} (h : e.terms? = some ts) :
    e.occurrences = Terms.occurrences ts := by
  cases e <;> simp only [terms?, Option.some.injEq, reduceCtorEq] at h <;> subst h <;>
    simp [occurrences, Terms.occurrences]

theorem evaluate_of_terms? {e : Expr ℝ} {ts : Terms ℝ} (h : e.terms? = some ts) (x : Point ℝ) :
    e.evaluate x = Terms.evaluate ts x := by
  cases e <;> simp only [terms?, Option.some.injEq, reduceCtorEq] at h <;> subst h <;>
    simp [evaluate]

@[simp] theorem terms?_ofTerms {R : Type} [Scalar R] (ts : Terms R) :
    (ofTerms ts).terms? = some ts := by
  unfold ofTerms
  split
  · split <;> rfl
  · rfl

/-! What the operators return: a sum, where the operands are sums, with these terms, and a tree
otherwise. -/

section Operators

variable {R : Type} [Scalar R] {a b : Expr R} {ts us : Terms R} {v : Variable}

theorem add_of_terms? (ha : a.terms? = some ts) (hb : b.terms? = some us) :
    a.add b = ofTerms (ts ++ us) := by
  simp only [add, ha, hb]

theorem opposite_of_terms? (ha : a.terms? = some ts) : a.opposite = ofTerms (Terms.neg ts) := by
  simp only [opposite, ha]

theorem mul_of_terms? (ha : a.terms? = some ts) (hb : b.terms? = some us) :
    a.mul b = ofTerms (Terms.mul ts us) := by
  simp only [mul, ha, hb]

theorem div_of_terms? {d : Term R} (ha : a.terms? = some ts) (hb : b.terms? = some [d])
    (hd : (d.coefficient == 0) = false) : a.div b = ofTerms (Terms.divTerm ts d) := by
  simp [div, ha, hb, hd]

theorem terms?_add (ha : a.terms? = some ts) (hb : b.terms? = some us) :
    (a.add b).terms? = some (ts ++ us) := by
  rw [add_of_terms? ha hb, terms?_ofTerms]

theorem terms?_opposite (ha : a.terms? = some ts) : a.opposite.terms? = some (Terms.neg ts) := by
  rw [opposite_of_terms? ha, terms?_ofTerms]

theorem terms?_mul (ha : a.terms? = some ts) (hb : b.terms? = some us) :
    (a.mul b).terms? = some (Terms.mul ts us) := by
  rw [mul_of_terms? ha hb, terms?_ofTerms]

theorem terms?_div {d : Term R} (ha : a.terms? = some ts) (hb : b.terms? = some [d])
    (hd : (d.coefficient == 0) = false) : (a.div b).terms? = some (Terms.divTerm ts d) := by
  rw [div_of_terms? ha hb hd, terms?_ofTerms]

theorem add_cases (a b : Expr R) :
    (∃ ts us, a.terms? = some ts ∧ b.terms? = some us ∧ a.add b = ofTerms (ts ++ us)) ∨
      (a.terms? = none ∨ b.terms? = none) ∧ a.add b = sum a b := by
  cases ha : a.terms? with
  | none => exact .inr ⟨.inl rfl, by simp only [add, ha]⟩
  | some ts =>
    cases hb : b.terms? with
    | none => exact .inr ⟨.inr rfl, by simp only [add, ha, hb]⟩
    | some us => exact .inl ⟨ts, us, rfl, rfl, add_of_terms? ha hb⟩

theorem opposite_cases (a : Expr R) :
    (∃ ts, a.terms? = some ts ∧ a.opposite = ofTerms (Terms.neg ts)) ∨
      a.terms? = none ∧ a.opposite = neg a := by
  cases ha : a.terms? with
  | none => exact .inr ⟨rfl, by simp only [opposite, ha]⟩
  | some ts => exact .inl ⟨ts, rfl, opposite_of_terms? ha⟩

theorem mul_cases (a b : Expr R) :
    (∃ ts us, a.terms? = some ts ∧ b.terms? = some us ∧ a.mul b = ofTerms (Terms.mul ts us)) ∨
      (a.terms? = none ∨ b.terms? = none) ∧ a.mul b = product a b := by
  cases ha : a.terms? with
  | none => exact .inr ⟨.inl rfl, by simp only [mul, ha]⟩
  | some ts =>
    cases hb : b.terms? with
    | none => exact .inr ⟨.inr rfl, by simp only [mul, ha, hb]⟩
    | some us => exact .inl ⟨ts, us, rfl, rfl, mul_of_terms? ha hb⟩

theorem div_cases (a b : Expr R) :
    (∃ ts d, a.terms? = some ts ∧ b.terms? = some [d] ∧ (d.coefficient == 0) = false ∧
        a.div b = ofTerms (Terms.divTerm ts d)) ∨
      (∀ ts d, a.terms? = some ts → b.terms? = some [d] → (d.coefficient == 0) = true) ∧
        a.div b = quotient a b := by
  by_cases h : ∃ ts d, a.terms? = some ts ∧ b.terms? = some [d] ∧ (d.coefficient == 0) = false
  · obtain ⟨ts, d, ha, hb, hd⟩ := h
    exact .inl ⟨ts, d, ha, hb, hd, div_of_terms? ha hb hd⟩
  · have hzero : ∀ ts d, a.terms? = some ts → b.terms? = some [d] →
        (d.coefficient == 0) = true := by
      intro ts d ha hb
      by_contra hd
      exact h ⟨ts, d, ha, hb, Bool.not_eq_true _ ▸ hd⟩
    refine .inr ⟨hzero, ?_⟩
    unfold div
    split
    · next ts d ha hb => rw [if_pos (hzero ts d ha hb)]
    · rfl

/-- A power is a tree, the operand itself, or the power of a single term. -/
theorem pow_cases (a : Expr R) (p : R) : a.pow p = power a p ∨ (p == 1) = true ∧ a.pow p = a ∨
    ∃ t, a.terms? = some [t] ∧ a.pow p = ofTerms [t.pow p] := by
  unfold pow
  split
  · next t ht =>
    split_ifs with _ _ hone
    · exact .inl rfl
    · exact .inr (.inr ⟨t, ht, rfl⟩)
    · exact .inr (.inl ⟨hone, rfl⟩)
    · exact .inl rfl
  · split_ifs with hone
    · exact .inr (.inl ⟨hone, rfl⟩)
    · exact .inl rfl
  · exact .inl rfl

/-! Which variables are left. Those of a sum are all there; of the terms of a product some may
cancel. -/

theorem occurrences_ofTerms (ts : Terms R) : (ofTerms ts).occurrences = Terms.occurrences ts :=
  occurrences_of_terms? (terms?_ofTerms ts)

theorem occurrences_add (a b : Expr R) :
    (a.add b).occurrences = a.occurrences ++ b.occurrences := by
  rcases add_cases a b with ⟨ts, us, hts, hus, h⟩ | ⟨_, h⟩
  · rw [h, occurrences_ofTerms, occurrences_of_terms? hts, occurrences_of_terms? hus,
      Terms.occurrences, List.flatMap_append, Terms.occurrences, Terms.occurrences]
  · rw [h, occurrences]

theorem occurrences_opposite (a : Expr R) : a.opposite.occurrences = a.occurrences := by
  rcases opposite_cases a with ⟨ts, hts, h⟩ | ⟨_, h⟩
  · rw [h, occurrences_ofTerms, occurrences_of_terms? hts, Terms.occurrences_neg]
  · rw [h, occurrences]

theorem occurrences_sub (a b : Expr R) :
    (a.sub b).occurrences = a.occurrences ++ b.occurrences := by
  rw [sub, occurrences_add, occurrences_opposite]

theorem mem_occurrences_mul (h : v ∈ (a.mul b).occurrences) :
    v ∈ a.occurrences ∨ v ∈ b.occurrences := by
  rcases mul_cases a b with ⟨ts, us, hts, hus, hmul⟩ | ⟨_, hmul⟩
  · rw [hmul, occurrences_ofTerms] at h
    rw [occurrences_of_terms? hts, occurrences_of_terms? hus]
    obtain ⟨_, hmem, hv⟩ := Terms.mem_occurrences.mp h
    obtain ⟨t, ht, hmem⟩ := List.mem_flatMap.mp hmem
    obtain ⟨u, hu, rfl⟩ := List.mem_map.mp hmem
    exact (Term.mem_keys_mul hv).imp (fun hv => Terms.mem_occurrences.mpr ⟨t, ht, hv⟩)
      fun hv => Terms.mem_occurrences.mpr ⟨u, hu, hv⟩
  · rw [hmul] at h
    exact List.mem_append.mp h

theorem mem_occurrences_div (h : v ∈ (a.div b).occurrences) :
    v ∈ a.occurrences ∨ v ∈ b.occurrences := by
  rcases div_cases a b with ⟨ts, d, hts, hd, _, hdiv⟩ | ⟨_, hdiv⟩
  · rw [hdiv, occurrences_ofTerms] at h
    rw [occurrences_of_terms? hts, occurrences_of_terms? hd]
    obtain ⟨_, hmem, hv⟩ := Terms.mem_occurrences.mp h
    obtain ⟨t, ht, rfl⟩ := List.mem_map.mp hmem
    exact (Term.mem_keys_div hv).imp (fun hv => Terms.mem_occurrences.mpr ⟨t, ht, hv⟩)
      fun hv => Terms.mem_occurrences.mpr ⟨d, List.mem_singleton_self d, hv⟩
  · rw [hdiv] at h
    exact List.mem_append.mp h

theorem mem_occurrences_pow {p : R} (h : v ∈ (a.pow p).occurrences) : v ∈ a.occurrences := by
  rcases pow_cases a p with hpow | ⟨_, hpow⟩ | ⟨t, ht, hpow⟩
  · rwa [hpow, occurrences] at h
  · rwa [hpow] at h
  · rw [hpow, occurrences_ofTerms] at h
    rw [occurrences_of_terms? ht]
    obtain ⟨_, hmem, hv⟩ := Terms.mem_occurrences.mp h
    obtain rfl := List.mem_singleton.mp hmem
    exact Terms.mem_occurrences.mpr ⟨t, List.mem_singleton_self t, Term.mem_keys_pow hv⟩

theorem mem_occurrences_total {es : List (Expr R)} (h : v ∈ (total es).occurrences) :
    ∃ e ∈ es, v ∈ e.occurrences := by
  have hv := or_of_foldl (S := fun a : Expr R => v ∈ a.occurrences)
    (T := fun e : Expr R => v ∈ e.occurrences)
    (fun a e hv => List.mem_append.mp (occurrences_add a e ▸ hv)) h
  refine hv.resolve_left ?_
  rw [occurrences_ofTerms]
  exact List.not_mem_nil

end Operators

/-- The terms of a difference are those of the left side and those of the right side with
their signs changed. -/
theorem terms?_sub {R : Type} [Scalar R] {a b : Expr R} {ts us : Terms R}
    (ha : a.terms? = some ts) (hb : b.terms? = some us) :
    (a.sub b).terms? = some (ts ++ Terms.neg us) := by
  simp [sub, add, opposite, ha, hb]

/-! ## Kinds -/

section Kinds

variable {R : Type} [Scalar R] {e : Expr R}

/-- A posynomial is a sum of positive terms, whatever tag it carries. -/
theorem isPosynomial_kind_iff : e.kind.isPosynomial = true ↔
    ∃ ts, e.terms? = some ts ∧ Terms.isPositive ts = true := by
  unfold kind
  cases e.terms? with
  | none => simp [Kind.isPosynomial, Kind.rank]
  | some ts =>
    by_cases h : Terms.isPositive ts = true
    · simp only [Kind.ofTerms, h, if_true]
      split <;> simp [Kind.isPosynomial, Kind.rank, h]
    · simp [Kind.ofTerms, h, Kind.isPosynomial, Kind.rank]

/-- A monomial is a positive term by itself. -/
theorem isMonomial_kind_iff : e.kind.isMonomial = true ↔
    ∃ t, e.terms? = some [t] ∧ t.isPositive = true := by
  unfold kind
  cases e.terms? with
  | none => simp [Kind.isMonomial, Kind.rank]
  | some ts =>
    by_cases h : Terms.isPositive ts = true
    · simp only [Kind.ofTerms, h, if_true]
      split
      · simpa [Kind.isMonomial, Kind.rank, Terms.isPositive] using h
      · next hne =>
        simp only [Kind.isMonomial, Kind.rank, Option.some.injEq]
        constructor
        · simp
        · rintro ⟨t, ht, _⟩
          exact absurd ht (hne t)
    · simp only [Kind.ofTerms, h, Kind.isMonomial, Kind.rank]
      constructor
      · simp
      · rintro ⟨t, ht, hpos⟩
        rw [Option.some.injEq] at ht
        simp [ht, Terms.isPositive, hpos] at h

end Kinds

end Expr

end LogConvex
