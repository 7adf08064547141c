import LogConvex.Proofs.Sparse
import LogConvex.Term

/- Values of terms over the reals. At a positive point a term is its coefficient times
   the exponential of a linear function of the logarithms of the variables
   (`Term.evaluate_eq_exp`). The arithmetic of terms is read off that form: exponents
   add and subtract inside the exponential, whatever cancels on the way. -/
namespace LogConvex

/-! ## Points -/

/-- Every value of the point is positive. -/
def Point.Positive (x : Point ℝ) : Prop := ∀ a ∈ x, 0 < a

/-- The point has a value for each variable of a list. -/
def Point.Covers {R : Type} (x : Point R) (vs : List Variable) : Prop :=
  ∀ v ∈ vs, v.index < x.length

/-- The logarithm of the value of a variable. -/
noncomputable def Point.logValue (x : Point ℝ) (v : Variable) : ℝ := Real.log (x.value v)

theorem Point.value_eq {x : Point ℝ} {v : Variable} (h : v.index < x.length) :
    x.value v = x[v.index] := by
  simp [Point.value, h]

theorem Point.Positive.value_pos {x : Point ℝ} (hx : x.Positive) {v : Variable}
    (h : v.index < x.length) : 0 < x.value v := by
  rw [Point.value_eq h]
  exact hx _ (List.getElem_mem h)

namespace Term

theorem ext {R : Type} {t u : Term R} (hcoefficient : t.coefficient = u.coefficient)
    (hexponents : t.exponents = u.exponents) : t = u := by
  cases t
  cases u
  obtain rfl := hcoefficient
  obtain rfl := hexponents
  rfl

/-! ## The value of a term -/

/-- The coefficient is a factor of the value, at any point. -/
theorem evaluate_eq_mul (t : Term ℝ) (x : Point ℝ) :
    t.evaluate x =
      t.coefficient * (t.exponents.entries.map fun p => x.value p.1 ^ p.2).prod := by
  unfold evaluate
  induction t.exponents.entries generalizing t with
  | nil => simp
  | cons p ps ih =>
    rw [List.foldl_cons, List.map_cons, List.prod_cons, ← mul_assoc]
    exact ih ⟨t.coefficient * x.value p.1 ^ p.2, t.exponents⟩

/-- Powers of positive numbers multiply like the exponentials of their logarithms. -/
theorem prod_rpow_eq_exp {f : Variable → ℝ} {ps : List (Variable × ℝ)}
    (hf : ∀ p ∈ ps, 0 < f p.1) :
    (ps.map fun p => f p.1 ^ p.2).prod = Real.exp (ps.map fun p => p.2 * Real.log (f p.1)).sum := by
  induction ps with
  | nil => simp
  | cons p ps ih =>
    have hp : 0 < f p.1 := hf p List.mem_cons_self
    rw [List.map_cons, List.prod_cons, ih fun q hq => hf q (List.mem_cons_of_mem p hq),
      List.map_cons, List.sum_cons, Real.exp_add, Real.rpow_def_of_pos hp, mul_comm p.2]

/-- At a positive point a term is the exponential of a linear function of the logarithms,
times its coefficient. -/
theorem evaluate_eq_exp (t : Term ℝ) {x : Point ℝ} (hx : x.Positive)
    (hc : x.Covers t.exponents.keys) :
    t.evaluate x = t.coefficient * Real.exp (t.exponents.dot x.logValue) := by
  rw [evaluate_eq_mul, prod_rpow_eq_exp fun p hp => hx.value_pos (hc p.1 (List.mem_map_of_mem hp))]
  rfl

theorem evaluate_pos {t : Term ℝ} (ht : 0 < t.coefficient) {x : Point ℝ} (hx : x.Positive)
    (hc : x.Covers t.exponents.keys) : 0 < t.evaluate x := by
  rw [t.evaluate_eq_exp hx hc]
  exact mul_pos ht (Real.exp_pos _)

@[simp] theorem evaluate_scale (t : Term ℝ) (c : ℝ) (x : Point ℝ) :
    (t.scale c).evaluate x = t.evaluate x * c := by
  rw [evaluate_eq_mul, evaluate_eq_mul]
  simp only [scale]
  ring

@[simp] theorem evaluate_neg (t : Term ℝ) (x : Point ℝ) :
    t.neg.evaluate x = -t.evaluate x := by
  rw [neg, evaluate_scale, mul_neg_one]

@[simp] theorem coefficient_neg (t : Term ℝ) : t.neg.coefficient = -t.coefficient :=
  mul_neg_one t.coefficient

protected theorem neg_neg (t : Term ℝ) : t.neg.neg = t :=
  ext (by simp [neg, scale]) rfl

/-! ## Multiplying by powers

Products, quotients and lists of powers are all folds of `addExponent`; `g` says what
happens to an exponent on its way in. -/

section Fold

variable (g : ℝ → ℝ) (ps : List (Variable × ℝ)) (t : Term ℝ)

theorem dot_foldl (f : Variable → ℝ) :
    (ps.foldl (fun t p => t.addExponent p.1 (g p.2)) t).exponents.dot f =
      t.exponents.dot f + (ps.map fun p => g p.2 * f p.1).sum :=
  view_foldl (fun t : Term ℝ => t.exponents.dot f) _ _
    (fun t p => Sparse.dot_addReduced t.exponents p.1 (g p.2) f) ps t

end Fold

/-! What becomes of the coefficient and which variables a fold brings in does not depend on the
numbers. -/

section Keys

variable {R : Type} [Scalar R]

theorem coefficient_foldl (g : R → R) (ps : List (Variable × R)) (t : Term R) :
    (ps.foldl (fun t p => t.addExponent p.1 (g p.2)) t).coefficient = t.coefficient := by
  induction ps generalizing t with
  | nil => rfl
  | cons p ps ih => exact ih _

theorem coefficient_ofList (c : R) (ps : List (Variable × R)) : (ofList c ps).coefficient = c :=
  coefficient_foldl (fun e => e) ps (constant c)

theorem coefficient_mul (t u : Term R) :
    (t.mul u).coefficient = t.coefficient * u.coefficient :=
  coefficient_foldl (fun e => e) _ _

theorem coefficient_div (t d : Term R) :
    (t.div d).coefficient = t.coefficient / d.coefficient :=
  coefficient_foldl (fun e => -e) _ _

theorem mem_keys_foldl (g : R → R) (ps : List (Variable × R)) (t : Term R) {v : Variable}
    (h : v ∈ (ps.foldl (fun t p => t.addExponent p.1 (g p.2)) t).exponents.keys) :
    v ∈ t.exponents.keys ∨ v ∈ ps.map (·.1) := by
  rw [List.mem_map]
  refine or_of_foldl (S := fun t : Term R => v ∈ t.exponents.keys) (fun t p hv => ?_) h
  exact (Sparse.mem_keys_alter hv).symm.imp_right Eq.symm

theorem mem_keys_ofList {c : R} {ps : List (Variable × R)} {v : Variable}
    (h : v ∈ (ofList c ps).exponents.keys) : v ∈ ps.map (·.1) :=
  (mem_keys_foldl (fun e => e) ps _ h).resolve_left (by simp [constant, Sparse.keys, Sparse.empty])

theorem mem_keys_mul {t u : Term R} {v : Variable} (h : v ∈ (t.mul u).exponents.keys) :
    v ∈ t.exponents.keys ∨ v ∈ u.exponents.keys :=
  mem_keys_foldl (fun e => e) _ ⟨t.coefficient * u.coefficient, t.exponents⟩ h

theorem mem_keys_div {t d : Term R} {v : Variable} (h : v ∈ (t.div d).exponents.keys) :
    v ∈ t.exponents.keys ∨ v ∈ d.exponents.keys :=
  mem_keys_foldl (fun e => -e) _ ⟨t.coefficient / d.coefficient, t.exponents⟩ h

/-- The power zero has no variables, any other one those of the term. -/
theorem mem_keys_pow {t : Term R} {p : R} {v : Variable}
    (h : v ∈ (t.pow p).exponents.keys) : v ∈ t.exponents.keys := by
  unfold pow at h
  split at h
  · exact absurd h List.not_mem_nil
  · simpa [Sparse.keys, Sparse.map] using h

end Keys

theorem dot_ofList (c : ℝ) (ps : List (Variable × ℝ)) (f : Variable → ℝ) :
    (ofList c ps).exponents.dot f = (ps.map fun p => p.2 * f p.1).sum := by
  rw [ofList, dot_foldl (fun e => e)]
  simp [constant]

theorem dot_mul (t u : Term ℝ) (f : Variable → ℝ) :
    (t.mul u).exponents.dot f = t.exponents.dot f + u.exponents.dot f :=
  dot_foldl (fun e => e) _ _ f

/-- A product of terms evaluates to the product. -/
theorem evaluate_mul (t u : Term ℝ) {x : Point ℝ} (hx : x.Positive)
    (ht : x.Covers t.exponents.keys) (hu : x.Covers u.exponents.keys) :
    (t.mul u).evaluate x = t.evaluate x * u.evaluate x := by
  have hc : x.Covers (t.mul u).exponents.keys :=
    fun v hv => (mem_keys_mul hv).elim (ht v) (hu v)
  rw [evaluate_eq_exp _ hx hc, t.evaluate_eq_exp hx ht, u.evaluate_eq_exp hx hu, coefficient_mul,
    dot_mul, Real.exp_add, mul_mul_mul_comm]

theorem dot_div (t d : Term ℝ) (f : Variable → ℝ) :
    (t.div d).exponents.dot f = t.exponents.dot f - d.exponents.dot f := by
  have hn : (d.exponents.entries.map fun p => -p.2 * f p.1).sum = -d.exponents.dot f := by
    simp [Sparse.dot, List.sum_neg, Function.comp_def]
  rw [div, dot_foldl (fun e => -e), hn, ← sub_eq_add_neg]

/-- A quotient of terms evaluates to the quotient, also where the divisor is zero. -/
theorem evaluate_div (t d : Term ℝ) {x : Point ℝ} (hx : x.Positive)
    (ht : x.Covers t.exponents.keys) (hd : x.Covers d.exponents.keys) :
    (t.div d).evaluate x = t.evaluate x / d.evaluate x := by
  have hc : x.Covers (t.div d).exponents.keys :=
    fun v hv => (mem_keys_div hv).elim (ht v) (hd v)
  rw [evaluate_eq_exp _ hx hc, t.evaluate_eq_exp hx ht, d.evaluate_eq_exp hx hd, coefficient_div,
    dot_div, Real.exp_sub, div_mul_div_comm]

@[simp] theorem evaluate_constant (c : ℝ) (x : Point ℝ) : (constant c).evaluate x = c := rfl

protected theorem pow_zero (t : Term ℝ) : t.pow 0 = constant 1 := if_pos (beq_self_eq_true 0)

theorem pow_of_ne_zero (t : Term ℝ) {p : ℝ} (hp : p ≠ 0) :
    t.pow p = ⟨t.coefficient ^ p, t.exponents.map (· * p)⟩ :=
  if_neg fun h => hp (eq_of_beq h)

/-- The power zero is the number one, which is what the formula gives there. -/
theorem coefficient_pow (t : Term ℝ) (p : ℝ) : (t.pow p).coefficient = t.coefficient ^ p := by
  rcases eq_or_ne p 0 with rfl | hp
  · rw [t.pow_zero, Real.rpow_zero, constant]
  · rw [t.pow_of_ne_zero hp]

theorem dot_pow (t : Term ℝ) (p : ℝ) (f : Variable → ℝ) :
    (t.pow p).exponents.dot f = t.exponents.dot f * p := by
  rcases eq_or_ne p 0 with rfl | hp
  · rw [t.pow_zero, mul_zero, constant, Sparse.dot_empty]
  · rw [t.pow_of_ne_zero hp, Sparse.dot_map_mul]

/-- A power of a term evaluates to the power, if the coefficient is not negative or the
exponent is an integer. -/
theorem evaluate_pow {t : Term ℝ} {p : ℝ} (h : 0 ≤ t.coefficient ∨ ∃ n : ℤ, p = n) {x : Point ℝ}
    (hx : x.Positive) (hc : x.Covers t.exponents.keys) :
    (t.pow p).evaluate x = t.evaluate x ^ p := by
  unfold pow
  split
  · next hp =>
    obtain rfl : p = 0 := by simpa using hp
    rw [evaluate_constant, Real.rpow_zero]
  · have hkeys : (t.exponents.map (· * p)).keys = t.exponents.keys := by
      simp [Sparse.keys, Sparse.map]
    rw [evaluate_eq_exp _ hx (by rwa [hkeys]), t.evaluate_eq_exp hx hc, Sparse.dot_map_mul,
      Real.exp_mul]
    rcases h with h | ⟨n, rfl⟩
    · exact (Real.mul_rpow h (Real.exp_pos _).le).symm
    · simp only [Scalar.pow_real, Real.rpow_intCast, mul_zpow]

end Term

/-! ## Sums of terms -/

namespace Terms

theorem mem_occurrences {R : Type} {ts : Terms R} {v : Variable} :
    v ∈ occurrences ts ↔ ∃ t ∈ ts, v ∈ t.exponents.keys :=
  List.mem_flatMap

theorem covers_occurrences {R : Type} {x : Point R} {ts : Terms R} :
    x.Covers (occurrences ts) ↔ ∀ t ∈ ts, x.Covers t.exponents.keys := by
  constructor
  · intro h t ht v hv
    exact h v (mem_occurrences.mpr ⟨t, ht, hv⟩)
  · intro h v hv
    obtain ⟨t, ht, hv⟩ := mem_occurrences.mp hv
    exact h t ht v hv

theorem occurrences_neg {R : Type} [Scalar R] (ts : Terms R) :
    occurrences (neg ts) = occurrences ts := by
  simp [occurrences, neg, List.flatMap_map, Term.neg, Term.scale]

protected theorem neg_neg (ts : Terms ℝ) : neg (neg ts) = ts := by
  simp [neg, Function.comp_def, Term.neg_neg]

theorem mem_neg {ts : Terms ℝ} {t : Term ℝ} : t ∈ neg ts ↔ t.neg ∈ ts := by
  constructor
  · intro h
    obtain ⟨u, hu, rfl⟩ := List.mem_map.mp h
    rwa [u.neg_neg]
  · intro h
    exact List.mem_map.mpr ⟨t.neg, h, t.neg_neg⟩

@[simp] theorem evaluate_nil (x : Point ℝ) : evaluate [] x = 0 := by
  simp [evaluate]

@[simp] theorem evaluate_cons (t : Term ℝ) (ts : Terms ℝ) (x : Point ℝ) :
    evaluate (t :: ts) x = t.evaluate x + evaluate ts x := by
  simp [evaluate]

@[simp] theorem evaluate_append (ts us : Terms ℝ) (x : Point ℝ) :
    evaluate (ts ++ us) x = evaluate ts x + evaluate us x := by
  simp [evaluate]

@[simp] theorem evaluate_neg (ts : Terms ℝ) (x : Point ℝ) :
    evaluate (neg ts) x = -evaluate ts x := by
  simp [evaluate, neg, List.sum_neg, Function.comp_def]

/-- The products of all pairs add up to the product of the sums. -/
theorem evaluate_mul {ts us : Terms ℝ} {x : Point ℝ} (hx : x.Positive)
    (ht : x.Covers (occurrences ts)) (hu : x.Covers (occurrences us)) :
    evaluate (mul ts us) x = evaluate ts x * evaluate us x := by
  rw [covers_occurrences] at ht hu
  induction ts with
  | nil => simp [mul]
  | cons t ts ih =>
    rw [List.forall_mem_cons] at ht
    have hrow : evaluate (List.map (fun u => Term.mul t u) us) x =
        t.evaluate x * evaluate us x := by
      simp only [evaluate, List.map_map, Scalar.total_real]
      rw [← List.sum_map_mul_left]
      congr 1
      exact List.map_congr_left fun u h => Term.evaluate_mul t u hx ht.1 (hu u h)
    rw [mul, List.flatMap_cons, evaluate_append, hrow, evaluate_cons, add_mul, ← ih ht.2]
    rfl

theorem evaluate_divTerm {ts : Terms ℝ} {d : Term ℝ} {x : Point ℝ} (hx : x.Positive)
    (ht : x.Covers (occurrences ts)) (hd : x.Covers d.exponents.keys) :
    evaluate (divTerm ts d) x = evaluate ts x / d.evaluate x := by
  rw [covers_occurrences] at ht
  simp only [evaluate, divTerm, List.map_map, Scalar.total_real, div_eq_mul_inv]
  rw [← List.sum_map_mul_right]
  congr 1
  apply List.map_congr_left
  intro t h
  exact (Term.evaluate_div t d hx (ht t h) hd).trans (div_eq_mul_inv _ _)

theorem evaluate_nonneg {ts : Terms ℝ} (hp : ∀ t ∈ ts, 0 < t.coefficient) {x : Point ℝ}
    (hx : x.Positive) (hc : x.Covers (occurrences ts)) : 0 ≤ evaluate ts x := by
  rw [covers_occurrences] at hc
  rw [evaluate, Scalar.total_real]
  apply List.sum_nonneg
  intro a ha
  obtain ⟨t, ht, rfl⟩ := List.mem_map.mp ha
  exact (Term.evaluate_pos (hp t ht) hx (hc t ht)).le

/-- A sum of positive terms is positive, unless it is empty. -/
theorem evaluate_pos {ts : Terms ℝ} (hne : ts ≠ []) (hp : ∀ t ∈ ts, 0 < t.coefficient)
    {x : Point ℝ} (hx : x.Positive) (hc : x.Covers (occurrences ts)) : 0 < evaluate ts x := by
  cases ts with
  | nil => exact absurd rfl hne
  | cons t ts =>
    rw [covers_occurrences] at hc
    have ht : 0 < t.evaluate x :=
      Term.evaluate_pos (hp t List.mem_cons_self) hx (hc t List.mem_cons_self)
    have hts : 0 ≤ evaluate ts x :=
      evaluate_nonneg (fun u hu => hp u (List.mem_cons_of_mem t hu)) hx
        (covers_occurrences.mpr fun u hu => hc u (List.mem_cons_of_mem t hu))
    rw [evaluate_cons]
    exact add_pos_of_pos_of_nonneg ht hts

end Terms

end LogConvex
