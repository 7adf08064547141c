import Mathlib
import LogConvex.Proofs.Reduced
import LogConvex.Proofs.Tangent

/- The gradient of a sum of terms, and what it has to do with the tangent monomial. A term
   changes with one variable like a power of it, so its slope is its exponent there times its
   value, over the value of the variable (`Term.hasDerivAt_valueAt`); a sum has the sum of the
   slopes. The exponents of the tangent are those means, so each of them is the slope of the sum
   in logarithmic scale (`Terms.tangent_gradient`).

   Evaluation reads a point by positions. To move one variable and no other, sums are also
   evaluated where each handle has a number of its own; the two agree on handles whose position
   no other handle of the sum has. -/
namespace LogConvex

/-! ## Values under an assignment -/

/-- The value of a term where each handle has the number that `f` gives to it. -/
noncomputable def Term.valueAt (t : Term ℝ) (f : Variable → ℝ) : ℝ :=
  t.coefficient * (t.exponents.entries.map fun p => f p.1 ^ p.2).prod

/-- The value of a sum where each handle has the number that `f` gives to it. -/
noncomputable def Terms.valueAt (ts : Terms ℝ) (f : Variable → ℝ) : ℝ :=
  (ts.map fun t => t.valueAt f).sum

namespace Term

theorem evaluate_eq_valueAt (t : Term ℝ) (x : Point ℝ) : t.evaluate x = t.valueAt x.value :=
  t.evaluate_eq_mul x

theorem valueAt_congr {t : Term ℝ} {f g : Variable → ℝ} (h : ∀ v ∈ t.exponents.keys, f v = g v) :
    t.valueAt f = t.valueAt g := by
  unfold valueAt
  congr 2
  apply List.map_congr_left
  intro p hp
  rw [h p.1 (List.mem_map_of_mem hp)]

section Positive

variable {t : Term ℝ} {f : Variable → ℝ} (hf : ∀ u ∈ t.exponents.keys, 0 < f u)
include hf

theorem valueAt_eq_exp :
    t.valueAt f = t.coefficient * Real.exp (t.exponents.dot fun u => Real.log (f u)) := by
  rw [valueAt, prod_rpow_eq_exp fun p hp => hf p.1 (List.mem_map_of_mem hp)]
  rfl

/-- Moving one variable multiplies the term by a power of what the variable grows by. -/
theorem valueAt_update (v : Variable) {s : ℝ} (hs : 0 < s) :
    t.valueAt (Function.update f v s) =
      t.valueAt f * Real.exp (t.exponents.weight v * (Real.log s - Real.log (f v))) := by
  have hmoved : ∀ u ∈ t.exponents.keys, 0 < Function.update f v s u := by
    intro u hu
    by_cases h : u = v
    · rwa [h, Function.update_self]
    · rw [Function.update_of_ne h]
      exact hf u hu
  have hstep : ∀ u, Real.log (Function.update f v s u) - Real.log (f u) =
      (if u = v then 1 else 0) * (Real.log s - Real.log (f v)) := by
    intro u
    by_cases h : u = v
    · simp [h]
    · simp [h]
  have hweight : t.exponents.weight v = t.exponents.dot fun u => if u = v then 1 else 0 :=
    t.exponents.weight_eq_dot (if_pos rfl) fun _ h => if_neg h
  have hdot : (t.exponents.dot fun u => Real.log (Function.update f v s u)) =
      (t.exponents.dot fun u => Real.log (f u)) +
        t.exponents.weight v * (Real.log s - Real.log (f v)) := by
    rw [← sub_eq_iff_eq_add', ← Sparse.dot_sub, hweight, ← Sparse.dot_mul_right]
    exact Sparse.dot_congr fun u _ => hstep u
  rw [valueAt_eq_exp hmoved, valueAt_eq_exp hf, hdot, Real.exp_add, mul_assoc]

/-- The slope of a term in the direction of one variable. -/
theorem hasDerivAt_valueAt {v : Variable} (hv : 0 < f v) :
    HasDerivAt (fun s => t.valueAt (Function.update f v s))
      (t.exponents.weight v * t.valueAt f / f v) (f v) := by
  have hlog : HasDerivAt (fun s => t.exponents.weight v * (Real.log s - Real.log (f v)))
      (t.exponents.weight v * (f v)⁻¹) (f v) :=
    ((Real.hasDerivAt_log hv.ne').sub_const _).const_mul _
  have hgrowth : HasDerivAt
      (fun s => t.valueAt f * Real.exp (t.exponents.weight v * (Real.log s - Real.log (f v))))
      (t.exponents.weight v * t.valueAt f / f v) (f v) := by
    refine (hlog.exp.const_mul (t.valueAt f)).congr_deriv ?_
    rw [sub_self, mul_zero, Real.exp_zero]
    ring
  refine hgrowth.congr_of_eventuallyEq ?_
  filter_upwards [eventually_gt_nhds hv] with s hs
  exact valueAt_update hf v hs

end Positive

end Term

namespace Terms

variable {ts : Terms ℝ} {x : Point ℝ} {v : Variable}

theorem evaluate_eq_valueAt (ts : Terms ℝ) (x : Point ℝ) : evaluate ts x = valueAt ts x.value := by
  simp only [evaluate, valueAt, Scalar.total_real, Term.evaluate_eq_valueAt]

theorem valueAt_congr {f g : Variable → ℝ} (h : ∀ v ∈ occurrences ts, f v = g v) :
    valueAt ts f = valueAt ts g := by
  unfold valueAt
  congr 1
  apply List.map_congr_left
  intro t ht
  exact Term.valueAt_congr fun v hv => h v (mem_occurrences.mpr ⟨t, ht, hv⟩)

/-! ## The gradient -/

/-- The sum grows with one variable at the rate `slope`: as a function of the handles, and as
a function of the point if the variable has its position for itself. -/
structure HasSlope (ts : Terms ℝ) (x : Point ℝ) (v : Variable) (slope : ℝ) : Prop where
  handle : HasDerivAt (fun s => valueAt ts (Function.update x.value v s)) slope (x.value v)
  position : (∀ u ∈ occurrences ts, u.index = v.index → u = v) →
    HasDerivAt (fun s => evaluate ts (x.set v.index s)) slope (x.value v)

theorem evaluate_set (hv : v.index < x.length)
    (halone : ∀ u ∈ occurrences ts, u.index = v.index → u = v) (s : ℝ) :
    evaluate ts (x.set v.index s) = valueAt ts (Function.update x.value v s) := by
  rw [evaluate_eq_valueAt]
  apply valueAt_congr
  intro u hu
  by_cases h : u = v
  · subst h
    simp [Point.value, hv]
  · have hindex : v.index ≠ u.index := fun hindex => h (halone u hu hindex.symm)
    simp [Point.value, h, hindex]

/-- Every sum has a slope at a positive point, in the direction of every variable there. -/
theorem hasSlope (hx : x.Positive) (hc : x.Covers (occurrences ts)) (hv : v.index < x.length) :
    HasSlope ts x v ((ts.map fun t => t.exponents.weight v * t.evaluate x).sum / x.value v) := by
  have hpos : 0 < x.value v := hx.value_pos hv
  have hhandle : HasDerivAt (fun s => valueAt ts (Function.update x.value v s))
      ((ts.map fun t => t.exponents.weight v * t.evaluate x).sum / x.value v) (x.value v) := by
    rw [covers_occurrences] at hc
    induction ts with
    | nil => simpa [valueAt] using hasDerivAt_const (x.value v) (0 : ℝ)
    | cons t ts ih =>
      rw [List.forall_mem_cons] at hc
      have hterm := t.hasDerivAt_valueAt (fun u hu => hx.value_pos (hc.1 u hu)) hpos
      rw [← Term.evaluate_eq_valueAt] at hterm
      rw [List.map_cons, List.sum_cons, add_div]
      exact hterm.add (ih hc.2)
  refine ⟨hhandle, fun halone => ?_⟩
  simpa only [evaluate_set hv halone] using hhandle

/-! ## The tangent -/

theorem weight_tangentExponents (ts : Terms ℝ) (x : Point ℝ) (v : Variable) :
    (tangentExponents ts x).weight v =
      (ts.map fun t => t.exponents.weight v * t.evaluate x).sum / evaluate ts x := by
  rw [Sparse.weight_eq_dot_single, dot_tangentExponents, div_eq_mul_inv, ← List.sum_map_mul_right]
  congr 1
  apply List.map_congr_left
  intro t _
  rw [← Sparse.weight_eq_dot_single, div_eq_mul_inv, mul_assoc]

/-- The tangent of one term is the term; of several it is the monomial with the mean
exponents. -/
theorem tangent_cases {m : Term ℝ} (hm : tangent ts x = .ok m) :
    ts = [m] ∨ (∀ t, ts ≠ [t]) ∧
      m = Term.ofList (evaluate ts x / powerProduct (tangentExponents ts x) x)
        (tangentExponents ts x).entries := by
  have accepted : ∀ t : Term ℝ, t.toMonomial = .ok m → m = t := by
    intro t ht
    unfold Term.toMonomial at ht
    split at ht
    · exact (Except.ok.inj ht).symm
    · cases ht
  unfold tangent at hm
  split at hm
  · cases hm
  · next t => exact .inl (by rw [accepted t hm])
  · next hne => exact .inr ⟨hne, accepted _ hm⟩

/-- What makes a term the tangent of a sum at a point. -/
structure IsTangent (m : Term ℝ) (ts : Terms ℝ) (x : Point ℝ) : Prop where
  coefficient_pos : 0 < m.coefficient
  touches : m.evaluate x = evaluate ts x
  /-- The term is a bound wherever both have a value. -/
  below : ∀ y : Point ℝ, y.Positive → y.Covers (occurrences ts) →
    m.evaluate y ≤ evaluate ts y
  mem_occurrences : ∀ v ∈ m.exponents.keys, v ∈ occurrences ts
  exponent : ∀ v : Variable, v.index < x.length → ∃ slope, HasSlope ts x v slope ∧
    m.exponent v = x.value v * slope / evaluate ts x
  single : ∀ t, ts = [t] → m = t
  /-- A single term is kept as it is, so it has to be reduced itself. -/
  absent : (∀ t, ts = [t] → t.Reduced) → ∀ v, m.exponent v = 0 → v ∉ m.exponents.keys

/-- A sum of positive terms has a tangent at every positive point: a monomial that touches the
sum there, has its gradient, and is below it everywhere. -/
theorem tangent_gradient (hne : ts ≠ []) (hpos : ∀ t ∈ ts, 0 < t.coefficient)
    (hx : x.Positive) (hc : x.Covers (occurrences ts)) :
    ∃ m, tangent ts x = .ok m ∧ IsTangent m ts x := by
  obtain ⟨m, hm, hcoefficient, hkeys, -⟩ := tangent_spec hne hpos hx hc
  obtain ⟨htouches, hbelow⟩ := tangent_le hne hpos hx hc hm
  have hvalue : evaluate ts x ≠ 0 := (evaluate_pos hne hpos hx hc).ne'
  have hexponent : ∀ v, m.exponent v =
      (ts.map fun t => t.exponents.weight v * t.evaluate x).sum / evaluate ts x := by
    intro v
    rcases tangent_cases hm with hts | ⟨-, hofList⟩
    · subst hts
      have hmx : m.evaluate x ≠ 0 := htouches ▸ hvalue
      simp [Term.exponent, hmx]
    · rw [← weight_tangentExponents, Term.exponent, Sparse.weight_eq_dot_single, hofList,
        Term.dot_ofList, Sparse.weight_eq_dot_single]
      rfl
  refine ⟨m, hm, hcoefficient, htouches, hbelow, hkeys, ?_, ?_, ?_⟩
  · intro v hv
    refine ⟨_, hasSlope hx hc hv, ?_⟩
    rw [hexponent v, mul_div_cancel₀ _ (hx.value_pos hv).ne']
  · intro t ht
    rcases tangent_cases hm with hts | ⟨hseveral, -⟩
    · exact (List.singleton_inj.mp (ht.symm.trans hts)).symm
    · exact absurd ht (hseveral t)
  · intro hreduced v hv hmem
    have hm : m.Reduced := by
      rcases tangent_cases hm with hts | ⟨-, hofList⟩
      · exact hreduced m hts
      · exact hofList ▸ Term.reduced_ofList _ _
    obtain ⟨e, he, rfl⟩ := List.mem_map.mp hmem
    refine hm e he ?_
    simpa [Term.exponent, Sparse.weight, Sparse.get?_of_mem he] using hv

/-- The sum `x + 1/x`. -/
noncomputable def reciprocalSum : Terms ℝ := [⟨1, .single ⟨0, 0⟩ 1⟩, ⟨1, .single ⟨0, 0⟩ (-1)⟩]

/-- The slopes of the two terms cancel at `x = 1`, so the tangent there is a constant. -/
theorem tangent_gradient_reciprocalSum :
    ∃ m, tangent reciprocalSum [1] = .ok m ∧ m.evaluate [1] = 2 ∧ m.exponents.keys = [] := by
  have hc : Point.Covers [1] (occurrences reciprocalSum) := by
    simp [Point.Covers, occurrences, reciprocalSum, Sparse.keys, Sparse.single]
  have hx : Point.Positive [1] := by simp [Point.Positive]
  obtain ⟨m, hm, hmt⟩ : ∃ m, tangent reciprocalSum [1] = .ok m ∧ IsTangent m reciprocalSum [1] :=
    tangent_gradient (by simp [reciprocalSum]) (by simp [reciprocalSum]) hx hc
  have hvalue : evaluate reciprocalSum [1] = 2 := by
    simp only [reciprocalSum, evaluate_cons, evaluate_nil, add_zero]
    simp [Term.evaluate, Sparse.single, Point.value]
    norm_num
  refine ⟨m, hm, hmt.touches.trans hvalue, ?_⟩
  have hflat : m.exponent ⟨0, 0⟩ = 0 := by
    obtain ⟨slope, hslope, hexponent⟩ := hmt.exponent ⟨0, 0⟩ (by simp)
    have hzero : slope = 0 := by
      refine hslope.handle.unique ?_
      have h := (hasSlope (v := ⟨0, 0⟩) hx hc (by simp)).handle
      simpa [reciprocalSum, Sparse.single, Sparse.weight, Sparse.get?, Term.evaluate,
        Point.value] using h
    rw [hexponent, hzero, mul_zero, zero_div]
  rw [List.eq_nil_iff_forall_not_mem]
  intro v hv
  have hv0 : v = ⟨0, 0⟩ := by
    simpa [occurrences, reciprocalSum, Sparse.keys, Sparse.single] using hmt.mem_occurrences v hv
  exact hmt.absent (by simp [reciprocalSum]) v (hv0 ▸ hflat) hv

end Terms

end LogConvex
