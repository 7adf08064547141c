import LogConvex.Proofs.Term
import LogConvex.Tangent

/- The tangent monomial over the reals. Between two positive points a term grows by the
   exponential of a number, its log step. The tangent at the first point grows by the
   exponential of the mean of the log steps of the terms, each weighted by its share in the
   value there (`Terms.tangent_spec`). The exponential is convex, so the mean of the
   exponentials is not below the exponential of the mean; hence the tangent lies below the
   sum everywhere and touches it at its own point. -/
namespace LogConvex

/-! ## Convexity of the exponential -/

/-- The line that touches the exponential at `c` bounds every weighted sum from below. -/
theorem tangent_line_le_sum {α : Type} {as : List α} {w : α → ℝ} (hw : ∀ a ∈ as, 0 ≤ w a)
    (s : α → ℝ) (c : ℝ) :
    Real.exp c * ((as.map w).sum + (as.map fun a => w a * s a).sum - c * (as.map w).sum) ≤
      (as.map fun a => w a * Real.exp (s a)).sum := by
  induction as with
  | nil => simp
  | cons a as ih =>
    rw [List.forall_mem_cons] at hw
    have hline : Real.exp c * (1 + s a - c) ≤ Real.exp (s a) := by
      calc Real.exp c * (1 + s a - c)
          = Real.exp c * (s a - c + 1) := by ring
        _ ≤ Real.exp c * Real.exp (s a - c) :=
            mul_le_mul_of_nonneg_left (Real.add_one_le_exp _) (Real.exp_pos c).le
        _ = Real.exp (s a) := by rw [← Real.exp_add, add_sub_cancel]
    have hterm : w a * (Real.exp c * (1 + s a - c)) ≤ w a * Real.exp (s a) :=
      mul_le_mul_of_nonneg_left hline hw.1
    simp only [List.map_cons, List.sum_cons]
    linarith [ih hw.2]

/-- The exponential of a weighted mean is at most the weighted mean of the exponentials;
here with weights that add up to `total`. -/
theorem exp_mean_le {α : Type} {as : List α} {w : α → ℝ} (hw : ∀ a ∈ as, 0 ≤ w a)
    (s : α → ℝ) {total : ℝ} (htotal : (as.map w).sum = total) (hpos : 0 < total) :
    total * Real.exp ((as.map fun a => w a * s a).sum / total) ≤
      (as.map fun a => w a * Real.exp (s a)).sum := by
  have hmean : (as.map fun a => w a * s a).sum =
      (as.map fun a => w a * s a).sum / total * total := (div_mul_cancel₀ _ hpos.ne').symm
  have h := tangent_line_le_sum hw s ((as.map fun a => w a * s a).sum / total)
  rw [htotal, ← hmean, add_sub_cancel_right, mul_comm] at h
  exact h

/-! ## Log steps -/

/-- What the logarithm of a term gains between two points. -/
noncomputable def Term.logStep (t : Term ℝ) (x y : Point ℝ) : ℝ :=
  t.exponents.dot y.logValue - t.exponents.dot x.logValue

@[simp] theorem Term.logStep_self (t : Term ℝ) (x : Point ℝ) : t.logStep x x = 0 :=
  sub_self _

theorem Term.evaluate_eq_step (t : Term ℝ) {x y : Point ℝ} (hx : x.Positive) (hy : y.Positive)
    (hcx : x.Covers t.exponents.keys) (hcy : y.Covers t.exponents.keys) :
    t.evaluate y = t.evaluate x * Real.exp (t.logStep x y) := by
  rw [t.evaluate_eq_exp hx hcx, t.evaluate_eq_exp hy hcy, mul_assoc, ← Real.exp_add, logStep,
    add_sub_cancel]

theorem Term.evaluate_single (c e b : ℝ) :
    (⟨c, .single ⟨0, 0⟩ e⟩ : Term ℝ).evaluate [b] = c * b ^ e := by
  simp [Term.evaluate, Sparse.single, Point.value]

/-- A monomial gains its exponent times what the logarithm of the variable gains. -/
theorem Term.logStep_single (c e b y : ℝ) :
    (⟨c, .single ⟨0, 0⟩ e⟩ : Term ℝ).logStep [b] [y] = e * (Real.log y - Real.log b) := by
  simp [Term.logStep, Sparse.single, Sparse.dot, Point.logValue, Point.value]
  ring

namespace Terms

/-- The log step of the tangent at the first point: the mean of those of the terms. -/
noncomputable def meanStep (ts : Terms ℝ) (x y : Point ℝ) : ℝ :=
  (ts.map fun t => t.evaluate x * t.logStep x y).sum / evaluate ts x

theorem evaluate_eq_step {ts : Terms ℝ} {x y : Point ℝ} (hx : x.Positive) (hy : y.Positive)
    (hcx : x.Covers (occurrences ts)) (hcy : y.Covers (occurrences ts)) :
    evaluate ts y = (ts.map fun t => t.evaluate x * Real.exp (t.logStep x y)).sum := by
  rw [covers_occurrences] at hcx hcy
  rw [evaluate, Scalar.total_real]
  congr 1
  apply List.map_congr_left
  intro t ht
  exact t.evaluate_eq_step hx hy (hcx t ht) (hcy t ht)

/-! ## The tangent exponents -/

/-- A linear observer sees the mean of the terms. -/
theorem dot_tangentExponents (ts : Terms ℝ) (x : Point ℝ) (f : Variable → ℝ) :
    (tangentExponents ts x).dot f =
      (ts.map fun t => t.exponents.dot f * (t.evaluate x / evaluate ts x)).sum := by
  unfold tangentExponents
  rw [view_foldl (fun m : Sparse Variable ℝ => m.dot f) _
    (fun t => t.exponents.dot f * (t.evaluate x / evaluate ts x))]
  · simp
  · intro m t
    rw [view_foldl (fun m : Sparse Variable ℝ => m.dot f) _
      (fun p => p.2 * (t.evaluate x / evaluate ts x) * f p.1) (fun m p => m.dot_add p.1 _ f)]
    congr 1
    rw [Sparse.dot, ← List.sum_map_mul_right]
    congr 1
    apply List.map_congr_left
    intro p _
    ring

theorem mem_keys_tangentExponents {ts : Terms ℝ} {x : Point ℝ} {v : Variable}
    (h : v ∈ (tangentExponents ts x).keys) : v ∈ occurrences ts := by
  have hv := or_of_foldl (S := fun m : Sparse Variable ℝ => v ∈ m.keys)
    (T := fun t : Term ℝ => v ∈ t.exponents.keys) (fun m t hv => ?_) h
  · exact mem_occurrences.mpr (hv.resolve_left (by simp [Sparse.keys, Sparse.empty]))
  · -- a term adds the keys of its own exponents
    have hv := or_of_foldl (S := fun m : Sparse Variable ℝ => v ∈ m.keys)
      (T := fun p : Variable × ℝ => p.1 = v)
      (fun m p hv => (Sparse.mem_keys_alter hv).symm.imp_right Eq.symm) hv
    exact hv.imp_right List.mem_map.mpr

theorem powerProduct_eq_exp {m : Sparse Variable ℝ} {x : Point ℝ} (hx : x.Positive)
    (hc : x.Covers m.keys) : powerProduct m x = Real.exp (m.dot x.logValue) := by
  have hcov : ∀ p ∈ m.entries, p.1.index < x.length :=
    fun p hp => hc p.1 (List.mem_map_of_mem hp)
  have hvalue : powerProduct m x = (m.entries.map fun p => x.value p.1 ^ p.2).prod := by
    rw [powerProduct, Scalar.product_real]
    congr 1
    apply List.map_congr_left
    intro p hp
    simp [Point.value, hcov p hp]
  rw [hvalue, Term.prod_rpow_eq_exp fun p hp => hx.value_pos (hcov p hp)]
  rfl

/-! ## The tangent -/

section Tangent

variable {ts : Terms ℝ} {x : Point ℝ} (hne : ts ≠ []) (hpos : ∀ t ∈ ts, 0 < t.coefficient)
  (hx : x.Positive) (hc : x.Covers (occurrences ts))
include hne hpos hx hc

/-- A sum of positive terms has a tangent at every positive point. Its coefficient is
positive, it has no new variable, and it moves by the mean of the log steps. -/
theorem tangent_spec : ∃ m, tangent ts x = .ok m ∧ 0 < m.coefficient ∧
    (∀ v ∈ m.exponents.keys, v ∈ occurrences ts) ∧
    ∀ y : Point ℝ, y.Positive → y.Covers (occurrences ts) →
      m.evaluate y = evaluate ts x * Real.exp (meanStep ts x y) := by
  have hvalue : 0 < evaluate ts x := evaluate_pos hne hpos hx hc
  have accepted : ∀ m : Term ℝ, 0 < m.coefficient → m.toMonomial = (.ok m : Except (Error ℝ) _) :=
    fun m hm => by simp [Term.toMonomial, Term.isPositive, hm]
  unfold tangent
  split
  · exact absurd rfl hne
  · next t =>
    have ht : 0 < t.coefficient := hpos t (by simp)
    have hct : x.Covers t.exponents.keys := covers_occurrences.mp hc t (by simp)
    refine ⟨t, accepted t ht, ht, fun v hv => mem_occurrences.mpr ⟨t, by simp, hv⟩, ?_⟩
    intro y hy hcy
    have hstep : meanStep [t] x y = t.logStep x y := by
      simp only [meanStep, List.map_cons, List.map_nil, List.sum_cons, List.sum_nil, add_zero,
        evaluate_cons, evaluate_nil]
      exact mul_div_cancel_left₀ _ (Term.evaluate_pos ht hx hct).ne'
    rw [hstep, evaluate_cons, evaluate_nil, add_zero]
    exact t.evaluate_eq_step hx hy hct (covers_occurrences.mp hcy t (by simp))
  · have hkeys : ∀ v ∈ (tangentExponents ts x).keys, v ∈ occurrences ts :=
      fun v hv => mem_keys_tangentExponents hv
    have hcoef : 0 < evaluate ts x / powerProduct (tangentExponents ts x) x := by
      rw [powerProduct_eq_exp hx fun v hv => hc v (hkeys v hv)]
      exact div_pos hvalue (Real.exp_pos _)
    refine ⟨_, accepted _ ?_, ?_, fun v hv => hkeys v (Term.mem_keys_ofList hv), ?_⟩
    · rwa [Term.coefficient_ofList]
    · rwa [Term.coefficient_ofList]
    intro y hy hcy
    have hstep : (tangentExponents ts x).dot y.logValue - (tangentExponents ts x).dot x.logValue =
        meanStep ts x y := by
      rw [← Sparse.dot_sub, dot_tangentExponents, meanStep, div_eq_mul_inv,
        ← List.sum_map_mul_right]
      congr 1
      apply List.map_congr_left
      intro t _
      rw [Term.logStep, Sparse.dot_sub]
      ring
    have hdot : (Term.ofList (evaluate ts x / powerProduct (tangentExponents ts x) x)
        (tangentExponents ts x).entries).exponents.dot y.logValue =
          (tangentExponents ts x).dot y.logValue := Term.dot_ofList _ _ _
    rw [Term.evaluate_eq_exp _ hy fun v hv => hcy v (hkeys v (Term.mem_keys_ofList hv)),
      Term.coefficient_ofList, hdot, powerProduct_eq_exp hx fun v hv => hc v (hkeys v hv),
      ← hstep, Real.exp_sub]
    ring

/-- The tangent lies below the sum and touches it at its own point. -/
theorem tangent_le {m : Term ℝ} (hm : tangent ts x = .ok m) :
    m.evaluate x = evaluate ts x ∧
    ∀ y : Point ℝ, y.Positive → y.Covers (occurrences ts) → m.evaluate y ≤ evaluate ts y := by
  obtain ⟨m', hm', _, _, heval⟩ := tangent_spec hne hpos hx hc
  obtain rfl : m = m' := Except.ok.inj (hm.symm.trans hm')
  constructor
  · rw [heval x hx hc]
    simp [meanStep]
  · intro y hy hcy
    have hnonneg : ∀ t ∈ ts, 0 ≤ t.evaluate x := fun t ht =>
      (Term.evaluate_pos (hpos t ht) hx (covers_occurrences.mp hc t ht)).le
    have htotal : (ts.map fun t => t.evaluate x).sum = evaluate ts x := (Scalar.total_real _).symm
    rw [heval y hy hcy, evaluate_eq_step hx hy hc hcy]
    exact exp_mean_le hnonneg (fun t => t.logStep x y) htotal (evaluate_pos hne hpos hx hc)

end Tangent

end Terms

end LogConvex
