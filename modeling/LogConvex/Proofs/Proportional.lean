import LogConvex.Proofs.Algebra
import LogConvex.Proofs.Rejection
import LogConvex.Proofs.Uniqueness

/- The canonical form of a relation does not depend on how it was written. Two relations say
   the same if the differences of their sides, as functions, are equal up to a positive monomial
   (`Relation.Proportional`). Their sums then have the same coefficients up to that monomial, and
   merging, splitting and dividing commute with it: what is accepted of the one is accepted of
   the other, and the forms have the same terms. -/
namespace LogConvex

/-! ## Common factors

Multiplying by a positive monomial commutes with every step towards a form. -/

section Factor

variable {m : Term ℝ} (hm : m.Reduced)
include hm

/-- The coefficient of the second factor shows in the coefficient of the product only. -/
theorem Term.mul_coefficient {t : Term ℝ} (ht : t.Reduced) (c : ℝ) :
    m.mul ⟨c, t.exponents⟩ = ⟨m.coefficient * c, (m.mul t).exponents⟩ :=
  Term.ext (coefficient_mul m _)
    ((exponents_mul_inj (t := ⟨c, t.exponents⟩) hm ht ht).mpr rfl)

theorem Term.mul_neg {t : Term ℝ} (ht : t.Reduced) : m.mul t.neg = (m.mul t).neg := by
  refine (mul_coefficient hm ht _).trans (Term.ext ?_ rfl)
  rw [neg, scale, coefficient_mul, mul_assoc]

namespace Terms

theorem merge_map_mul {t : Term ℝ} (ht : t.Reduced) {us : Terms ℝ} (hus : ∀ u ∈ us, u.Reduced) :
    merge (m.mul t) (List.map m.mul us) = List.map m.mul (merge t us) := by
  induction us with
  | nil => rfl
  | cons u us ih =>
    obtain ⟨hu, hus⟩ := List.forall_mem_cons.mp hus
    have halike : ((m.mul u).exponents == (m.mul t).exponents) = (u.exponents == t.exponents) := by
      rw [Bool.eq_iff_iff, beq_iff_eq, beq_iff_eq, Term.exponents_mul_inj hm hu ht]
    rw [List.map_cons, merge, merge, halike]
    split
    · rw [List.map_cons, Term.mul_coefficient hm hu (u.coefficient + t.coefficient),
        Term.coefficient_mul, Term.coefficient_mul, mul_add]
    · rw [List.map_cons, ih hus]

theorem combine_map_mul {ts : Terms ℝ} (hts : ∀ t ∈ ts, t.Reduced) :
    combine (List.map m.mul ts) = List.map m.mul (combine ts) := by
  have hfold : ∀ (ts us : Terms ℝ), (∀ t ∈ ts, t.Reduced) → (∀ u ∈ us, u.Reduced) →
      List.foldl (fun acc t => merge t acc) (List.map m.mul us) (List.map m.mul ts) =
        List.map m.mul (List.foldl (fun acc t => merge t acc) us ts) := by
    intro ts
    induction ts with
    | nil => intro us _ _; rfl
    | cons t ts ih =>
      intro us hts hus
      obtain ⟨ht, hts⟩ := List.forall_mem_cons.mp hts
      rw [List.map_cons, List.foldl_cons, merge_map_mul hm ht hus,
        ih (merge t us) hts (reduced_merge (t := t) ht hus), List.foldl_cons]
  exact hfold ts [] hts (by simp)

variable (hc : 0 < m.coefficient)
include hc

omit hm in
theorem positivePart_map_mul (ts : Terms ℝ) :
    positivePart (List.map m.mul ts) = List.map m.mul (positivePart ts) := by
  rw [positivePart, positivePart, List.filter_map]
  congr 2
  funext t
  simp [Term.coefficient_mul, hc]

theorem negativePart_map_mul {ts : Terms ℝ} (hts : ∀ t ∈ ts, t.Reduced) :
    negativePart (List.map m.mul ts) = List.map m.mul (negativePart ts) := by
  have hneg : neg (List.map m.mul ts) = List.map m.mul (neg ts) := by
    rw [neg, neg, List.map_map, List.map_map]
    exact List.map_congr_left fun t ht => (Term.mul_neg hm (hts t ht)).symm
  rw [negativePart_eq, negativePart_eq, hneg, positivePart_map_mul hc]

end Terms

end Factor

theorem Terms.evaluate_map_mul {m : Term ℝ} {ts : Terms ℝ} {x : Point ℝ} (hx : x.Positive)
    (hm : x.Covers m.exponents.keys) (ht : x.Covers (occurrences ts)) :
    evaluate (List.map m.mul ts) x = m.evaluate x * evaluate ts x := by
  have hsingle : x.Covers (occurrences [m]) := by simpa [occurrences] using hm
  have h := Terms.evaluate_mul hx hsingle ht
  simpa [Terms.mul] using h

namespace Relation

/-! ## Relations that say the same -/

/-- At every positive point the difference of the sides of one relation is that of the other
times the monomial. -/
def Proportional (m : Term ℝ) (r₁ r₂ : Relation ℝ) : Prop :=
  ∀ x : Point ℝ, x.Positive → x.Covers m.exponents.keys → x.Covers r₁.support →
    x.Covers r₂.support →
    r₁.lhs.evaluate x - r₁.rhs.evaluate x =
      m.evaluate x * (r₂.lhs.evaluate x - r₂.rhs.evaluate x)

/-- The relation is between two sums that the operators lead to, the right one not zero, with
at least one variable, and its variables are those of one model. -/
structure WellPosed (id : ModelId) (r : Relation ℝ) : Prop where
  lhs_built : r.lhs.Built
  rhs_built : r.rhs.Built
  exists_terms : ∃ ls rs, r.lhs.terms? = some ls ∧ r.rhs.terms? = some rs ∧
    ∃ t ∈ rs, t.coefficient ≠ 0
  support_ne_nil : r.support ≠ []
  owner : ∀ v ∈ r.support, v.owner = id

/-- The difference of what was built stores no zero exponent. -/
theorem reduced_difference {r : Relation ℝ} (hl : r.lhs.Built) (hr : r.rhs.Built) :
    r.difference.Reduced := by
  unfold difference
  split
  · exact (hr.sub hl).reduced
  · exact (hl.sub hr).reduced
  · exact (hl.sub hr).reduced

/-- What is known of the sum that is split. -/
theorem WellPosed.exists_difference {id : ModelId} {r : Relation ℝ} (h : r.WellPosed id) :
    ∃ ts, r.difference.terms? = some ts ∧ (∀ t ∈ ts, t.Reduced) ∧
      ∀ v ∈ Terms.occurrences ts, v ∈ r.support := by
  obtain ⟨ls, rs, hl, hr, _⟩ := h.exists_terms
  have hts := terms?_difference hl hr
  exact ⟨_, hts, reduced_difference h.lhs_built h.rhs_built _ hts,
    fun v hv => mem_support_of_difference hl hr hts hv⟩

/-- Only the last step can refuse a relation that is well posed. -/
theorem WellPosed.normalize_eq_ok_iff {id : ModelId} {r : Relation ℝ} (h : r.WellPosed id)
    {ts : Terms ℝ} (hts : r.difference.terms? = some ts) {allow : Bool} {c : Canonical ℝ} :
    r.normalize allow = .ok c ↔ r.formOf allow (Terms.positivePart (Terms.combine ts))
      (Terms.negativePart (Terms.combine ts)) = .ok c.form ∧
        c.negateDual = (r.sense == .atLeast) := by
  obtain ⟨ls, rs, hl, hr, hright⟩ := h.exists_terms
  have hzero : (List.all rs fun t => t.coefficient == 0) = false := by simpa using hright
  have hconst : r.support.isEmpty = false := by simpa using h.support_ne_nil
  rw [normalize_eq_map hl hr hzero hconst hts (Terms.split_eq ts) allow]
  obtain ⟨form, negate⟩ := c
  cases r.formOf allow (Terms.positivePart (Terms.combine ts))
    (Terms.negativePart (Terms.combine ts)) <;> simp [Except.map, eq_comm]

theorem WellPosed.exists_normalize_iff {id : ModelId} {r : Relation ℝ} (h : r.WellPosed id)
    {ts : Terms ℝ} (hts : r.difference.terms? = some ts) {allow : Bool} :
    (∃ c, r.normalize allow = .ok c) ↔
      ∃ f, r.formOf allow (Terms.positivePart (Terms.combine ts))
        (Terms.negativePart (Terms.combine ts)) = .ok f := by
  simp only [h.normalize_eq_ok_iff hts]
  constructor
  · rintro ⟨c, hf, _⟩
    exact ⟨c.form, hf⟩
  · rintro ⟨f, hf⟩
    exact ⟨⟨f, _⟩, hf, rfl⟩

/-- Whether a split has a form depends on the numbers of its terms only. -/
theorem exists_formOf_iff {r : Relation ℝ} {allow : Bool} {p q : Terms ℝ}
    (hp : ∀ t ∈ p, 0 < t.coefficient) (hq : ∀ t ∈ q, 0 < t.coefficient) :
    (∃ f, r.formOf allow p q = .ok f) ↔ p ≠ [] ∧ q ≠ [] ∧
      (r.sense = .equal → p.length + q.length ≤ 2) ∧
      (r.sense ≠ .equal → allow = true ∨ q.length ≤ 1) := by
  constructor
  · rintro ⟨f, hf⟩
    rcases formOf_cases hf with ⟨hs, t, d, rfl, rfl, _⟩ | ⟨hs, hpe, ⟨d, rfl, _⟩ | ⟨hlen, hallow, _⟩⟩
    · exact ⟨by simp, by simp, fun _ => le_rfl, fun hne => absurd hs hne⟩
    · exact ⟨hpe, by simp, fun he => absurd he hs, fun _ => .inr le_rfl⟩
    · exact ⟨hpe, List.ne_nil_of_length_pos (by omega), fun he => absurd he hs,
        fun _ => .inl hallow⟩
  · rintro ⟨hpe, hqe, hequation, hbound⟩
    cases hf : r.formOf allow p q with
    | ok f => exact ⟨f, rfl⟩
    | error e =>
      exact ((empty_of_formOf_error hp hq hequation hbound hf).elim hpe hqe).elim

end Relation

/-- Two forms have the same terms, in any order, where those of a true signomial form are
multiplied by a monomial. -/
def Form.Proportional (m : Term ℝ) : Form ℝ → Form ℝ → Prop
  | .geometric (.equality a), .geometric (.equality b) => a = b
  | .geometric (.inequality p), .geometric (.inequality q) => p.Perm q
  | .signomial p q, .signomial p' q' => p.Perm (p'.map m.mul) ∧ q.Perm (q'.map m.mul)
  | _, _ => False

namespace Relation

variable {r₁ r₂ : Relation ℝ} {m : Term ℝ}

/-- Splits that agree up to order and a positive monomial lead to forms that agree. -/
theorem formOf_proportional (hsense : r₁.sense = r₂.sense) (hm : m.Reduced)
    (hc : 0 < m.coefficient) {p q p' q' : Terms ℝ} (hp' : ∀ t ∈ p', t.Reduced)
    (hp : p.Perm (p'.map m.mul)) (hq : q.Perm (q'.map m.mul)) {allow : Bool} {f f' : Form ℝ}
    (hf : r₁.formOf allow p q = .ok f) (hf' : r₂.formOf allow p' q' = .ok f') :
    Form.Proportional m f f' := by
  have hquotient : ∀ t ∈ p', ∀ d, (m.mul t).div (m.mul d) = t.div d :=
    fun t ht d => Term.mul_div_mul hm hc.ne' (hp' t ht) d
  rcases formOf_cases hf' with ⟨hs, t, d, rfl, rfl, rfl⟩ |
    ⟨hs, _, ⟨d, rfl, rfl⟩ | ⟨hlen, _, rfl⟩⟩
  · obtain rfl : p = [m.mul t] := List.perm_singleton.mp hp
    obtain rfl : q = [m.mul d] := List.perm_singleton.mp hq
    rcases formOf_cases hf with ⟨_, t', d', ht', hd', rfl⟩ | ⟨hne, _⟩
    · obtain rfl := List.singleton_inj.mp ht'
      obtain rfl := List.singleton_inj.mp hd'
      exact hquotient t (by simp) d
    · exact absurd (hsense.trans hs) hne
  · obtain rfl : q = [m.mul d] := List.perm_singleton.mp hq
    rcases formOf_cases hf with ⟨he, _⟩ | ⟨_, _, ⟨d', hd', rfl⟩ | ⟨hlen, _⟩⟩
    · exact absurd (hsense.symm.trans he) hs
    · obtain rfl := List.singleton_inj.mp hd'
      have hmap : Terms.divTerm (p'.map m.mul) (m.mul d) = Terms.divTerm p' d := by
        rw [Terms.divTerm, Terms.divTerm, List.map_map]
        exact List.map_congr_left fun t ht => hquotient t ht d
      exact hmap ▸ hp.map _
    · simp at hlen
  · have hlength : q.length = q'.length := by simpa using hq.length_eq
    rcases formOf_cases hf with ⟨he, _⟩ | ⟨_, _, ⟨d, rfl, _⟩ | ⟨_, _, rfl⟩⟩
    · exact absurd (hsense.symm.trans he) hs
    · simp at hlength
      omega
    · exact ⟨hp, hq⟩

/-- The difference that is split is that of the sides, or its opposite. -/
theorem Proportional.difference_eq (h : Proportional m r₁ r₂) (hsense : r₁.sense = r₂.sense)
    {x : Point ℝ} (hx : x.Positive) (hm : x.Covers m.exponents.keys) (h₁ : x.Covers r₁.support)
    (h₂ : x.Covers r₂.support) :
    r₁.difference.evaluate x = m.evaluate x * r₂.difference.evaluate x := by
  have hxm := h x hx hm h₁ h₂
  unfold difference
  rw [← hsense]
  cases r₁.sense with
  | equal | atMost => rw [Expr.evaluate_sub, Expr.evaluate_sub, hxm]
  | atLeast =>
    rw [Expr.evaluate_sub, Expr.evaluate_sub, ← neg_sub, hxm, ← neg_sub (r₂.lhs.evaluate x)]
    ring

/-- The differences of proportional relations have the same coefficients, up to the monomial. -/
theorem Proportional.coefficientAt_eq {id : ModelId} (h : Proportional m r₁ r₂)
    (hsense : r₁.sense = r₂.sense) (h₁ : r₁.WellPosed id) (h₂ : r₂.WellPosed id)
    (hm : m.Reduced) (hmo : ∀ v ∈ m.exponents.keys, v.owner = id) {ts us : Terms ℝ}
    (hts : r₁.difference.terms? = some ts) (hus : r₂.difference.terms? = some us)
    (e : Sparse Variable ℝ) :
    Terms.coefficientAt ts e = Terms.coefficientAt (us.map m.mul) e := by
  obtain ⟨ts', hts', htr, hto⟩ := h₁.exists_difference
  obtain rfl : ts' = ts := Option.some.inj (hts'.symm.trans hts)
  obtain ⟨us', hus', _, huo⟩ := h₂.exists_difference
  obtain rfl : us' = us := Option.some.inj (hus'.symm.trans hus)
  have hproduct : ∀ v ∈ Terms.occurrences (us'.map m.mul), v.owner = id := by
    intro v hv
    obtain ⟨w, hw, hv⟩ := Terms.mem_occurrences.mp hv
    obtain ⟨u, hu, rfl⟩ := List.mem_map.mp hw
    rcases Term.mem_keys_mul hv with hv | hv
    · exact hmo v hv
    · exact h₂.owner v (huo v (Terms.mem_occurrences.mpr ⟨u, hu, hv⟩))
  refine Terms.coefficientAt_eq_of_evaluate_eq htr
    (List.forall_mem_map.mpr fun u _ => hm.mul u) (fun v hv => h₁.owner v (hto v hv)) hproduct
    (m.exponents.keys ++ (r₁.support ++ r₂.support)) (fun x hx hcover => ?_) e
  obtain ⟨hcm, hc⟩ := List.forall_mem_append.mp hcover
  obtain ⟨hc₁, hc₂⟩ := List.forall_mem_append.mp hc
  rw [Terms.evaluate_map_mul hx hcm fun v hv => hc₂ v (huo v hv),
    ← Expr.evaluate_of_terms? hts, ← Expr.evaluate_of_terms? hus]
  exact h.difference_eq hsense hx hcm hc₁ hc₂

/-- So their splits have the same terms, up to order and the monomial. -/
theorem Proportional.parts_perm {id : ModelId} (h : Proportional m r₁ r₂)
    (hsense : r₁.sense = r₂.sense) (h₁ : r₁.WellPosed id) (h₂ : r₂.WellPosed id)
    (hm : m.Reduced) (hc : 0 < m.coefficient) (hmo : ∀ v ∈ m.exponents.keys, v.owner = id)
    {ts us : Terms ℝ} (hts : r₁.difference.terms? = some ts)
    (hus : r₂.difference.terms? = some us) :
    (Terms.positivePart (Terms.combine ts)).Perm
        ((Terms.positivePart (Terms.combine us)).map m.mul) ∧
      (Terms.negativePart (Terms.combine ts)).Perm
        ((Terms.negativePart (Terms.combine us)).map m.mul) := by
  obtain ⟨us', hus', hur, _⟩ := h₂.exists_difference
  obtain rfl : us' = us := Option.some.inj (hus'.symm.trans hus)
  have hperm := Terms.parts_perm (h.coefficientAt_eq hsense h₁ h₂ hm hmo hts hus)
  rwa [Terms.combine_map_mul hm hur, Terms.positivePart_map_mul hc,
    Terms.negativePart_map_mul hm hc (Terms.reduced_combine hur)] at hperm

/-- The canonical form depends on the relation as a statement about positive points, not on how
it was written. Take two relations with the same comparison, each between two sums that the
operators lead to, the right one not zero, and with variables of one model. If the differences
of their sides are proportional, with a positive monomial as the factor, then one of them has a
canonical form exactly if the other has. The forms belong to the same side of the relation;
geometric ones have the same terms, with equal coefficients and exponents, and those of
signomial ones differ by the monomial. -/
theorem normalize_proportional (id : ModelId) (r₁ r₂ : Relation ℝ) (m : Term ℝ)
    (h₁ : r₁.WellPosed id) (h₂ : r₂.WellPosed id) (hsense : r₁.sense = r₂.sense)
    (hm : m.Built) (hc : 0 < m.coefficient) (hmo : ∀ v ∈ m.exponents.keys, v.owner = id)
    (h : Proportional m r₁ r₂) (allow : Bool) :
    ((∃ c, r₁.normalize allow = .ok c) ↔ ∃ c, r₂.normalize allow = .ok c) ∧
      ∀ c₁ c₂, r₁.normalize allow = .ok c₁ → r₂.normalize allow = .ok c₂ →
        Form.Proportional m c₁.form c₂.form ∧ c₁.negateDual = c₂.negateDual := by
  obtain ⟨ts, hts, _⟩ := h₁.exists_difference
  obtain ⟨us, hus, hur, _⟩ := h₂.exists_difference
  obtain ⟨hp, hq⟩ := h.parts_perm hsense h₁ h₂ hm.reduced hc hmo hts hus
  obtain ⟨hp₁, hq₁⟩ := Terms.coefficient_pos_of_split (Terms.split_eq ts)
  obtain ⟨hp₂, hq₂⟩ := Terms.coefficient_pos_of_split (Terms.split_eq us)
  constructor
  · have hplen := hp.length_eq
    have hqlen := hq.length_eq
    rw [List.length_map] at hplen hqlen
    rw [h₁.exists_normalize_iff hts, h₂.exists_normalize_iff hus, exists_formOf_iff hp₁ hq₁,
      exists_formOf_iff hp₂ hq₂, hsense, hplen, hqlen, ne_eq, ne_eq, ← List.length_eq_zero_iff,
      ← List.length_eq_zero_iff, hplen, hqlen]
    simp
  · intro c₁ c₂ hc₁ hc₂
    obtain ⟨hf₁, hd₁⟩ := (h₁.normalize_eq_ok_iff hts).mp hc₁
    obtain ⟨hf₂, hd₂⟩ := (h₂.normalize_eq_ok_iff hus).mp hc₂
    have hreduced : ∀ t ∈ Terms.positivePart (Terms.combine us), t.Reduced :=
      fun t ht => Terms.reduced_combine hur t (List.mem_filter.mp ht).1
    exact ⟨formOf_proportional hsense hm.reduced hc hreduced hp hq hf₁ hf₂,
      by rw [hd₁, hd₂, hsense]⟩

/-! ## Ways of writing a relation -/

theorem covers_support {r : Relation ℝ} {x : Point ℝ} :
    x.Covers r.support ↔ x.Covers r.lhs.occurrences ∧ x.Covers r.rhs.occurrences := by
  simp only [Point.Covers, support, Variable.mem_sorted]
  exact List.forall_mem_append

/-- Adding one expression to both sides says the same. -/
theorem proportional_add (r : Relation ℝ) (e : Expr ℝ) :
    Proportional (.constant 1) ⟨r.lhs.add e, r.sense, r.rhs.add e⟩ r := by
  intro x _ _ _ _
  rw [Expr.evaluate_add, Expr.evaluate_add, Term.evaluate_constant]
  ring

/-- Moving an expression across says the same. -/
theorem proportional_move (r : Relation ℝ) (e : Expr ℝ) :
    Proportional (.constant 1) ⟨r.lhs.sub e, r.sense, r.rhs⟩ ⟨r.lhs, r.sense, r.rhs.add e⟩ := by
  intro x _ _ _ _
  rw [Expr.evaluate_add, Expr.evaluate_sub, Term.evaluate_constant]
  ring

/-- Adding up in another order says the same. -/
theorem proportional_total {ls ls' rs rs' : List (Expr ℝ)} (hl : ls.Perm ls') (hr : rs.Perm rs')
    (sense : Sense) : Proportional (.constant 1) ⟨.total ls, sense, .total rs⟩
      ⟨.total ls', sense, .total rs'⟩ := by
  intro x _ _ _ _
  simp only [Expr.evaluate_total]
  rw [(hl.map fun e => e.evaluate x).sum_eq, (hr.map fun e => e.evaluate x).sum_eq,
    Term.evaluate_constant, one_mul]

/-- Both sides multiplied by a monomial. -/
noncomputable def times (m : Term ℝ) (r : Relation ℝ) : Relation ℝ :=
  ⟨(Expr.monomial m).mul r.lhs, r.sense, (Expr.monomial m).mul r.rhs⟩

/-- Multiplying through by a monomial says the same. -/
theorem proportional_times (m : Term ℝ) (r : Relation ℝ) : Proportional m (r.times m) r := by
  intro x hx hm _ hr
  obtain ⟨hl, hr⟩ := covers_support.mp hr
  have hproduct : ∀ e : Expr ℝ, x.Covers e.occurrences →
      ((Expr.monomial m).mul e).evaluate x = m.evaluate x * e.evaluate x :=
    fun e he => Expr.evaluate_mul hx (a := .monomial m) hm he
  show ((Expr.monomial m).mul r.lhs).evaluate x - ((Expr.monomial m).mul r.rhs).evaluate x = _
  rw [hproduct _ hl, hproduct _ hr, mul_sub]

theorem terms?_monomial_mul (m : Term ℝ) {e : Expr ℝ} {ts : Terms ℝ} (h : e.terms? = some ts) :
    ((Expr.monomial m).mul e).terms? = some (ts.map m.mul) := by
  have hm : (Expr.monomial m).terms? = some [m] := rfl
  simp [Expr.mul, hm, h, Terms.mul]

/-- A relation stays well posed, as long as some variable does not cancel. -/
theorem WellPosed.times {id : ModelId} {r : Relation ℝ} (h : r.WellPosed id) {m : Term ℝ}
    (hm : m.Built) (hc : 0 < m.coefficient) (hmo : ∀ v ∈ m.exponents.keys, v.owner = id)
    (hne : (r.times m).support ≠ []) : (r.times m).WellPosed id where
  lhs_built := (Expr.Built.monomial hm (by simp [Term.isPositive, hc])).mul h.lhs_built
  rhs_built := (Expr.Built.monomial hm (by simp [Term.isPositive, hc])).mul h.rhs_built
  exists_terms := by
    obtain ⟨ls, rs, hl, hr, t, ht, hne⟩ := h.exists_terms
    refine ⟨_, _, terms?_monomial_mul m hl, terms?_monomial_mul m hr, m.mul t,
      List.mem_map_of_mem ht, ?_⟩
    rw [Term.coefficient_mul]
    exact mul_ne_zero hc.ne' hne
  support_ne_nil := hne
  owner := by
    intro v hv
    have hside : ∀ e : Expr ℝ, (∀ w ∈ e.occurrences, w ∈ r.support) →
        v ∈ ((Expr.monomial m).mul e).occurrences → v.owner = id := by
      intro e he hv
      exact (Expr.mem_occurrences_mul hv).elim (hmo v) fun hv => h.owner v (he v hv)
    refine (mem_support.mp hv).elim (hside _ fun w hw => ?_) (hside _ fun w hw => ?_)
    · exact mem_support.mpr (.inl hw)
    · exact mem_support.mpr (.inr hw)

/-- A number times a power of one variable, as it is built. -/
theorem built_single {w : ℝ} (hw : w ≠ 0) (c : ℝ) (v : Variable) :
    (⟨c, .single v w⟩ : Term ℝ).Built := by
  have h := Term.Built.ofList c [(v, w)]
  simpa [Term.ofList, Term.constant, Term.addExponent, Sparse.addReduced, Sparse.alter,
    Sparse.alterEntries, Sparse.consEntry, Sparse.empty, Sparse.single, hw] using h

/-- The variable `x` of the bound `x - 3 ≥ -1`. -/
theorem built_variable : (⟨1, .single ⟨0, 0⟩ 1⟩ : Term ℝ).Built :=
  built_single one_ne_zero 1 ⟨0, 0⟩

theorem wellPosed_shiftedBound : shiftedBound.WellPosed 0 where
  lhs_built := .signomial (by
    intro t ht
    rcases List.mem_pair.mp ht with rfl | rfl
    · exact built_variable
    · exact .ofList (-3) [])
  rhs_built := .signomial (by
    intro t ht
    obtain rfl := List.mem_singleton.mp ht
    exact .ofList (-1) [])
  exists_terms := ⟨_, _, rfl, rfl, .constant (-1), by simp, by simp [Term.constant]⟩
  support_ne_nil := by
    rw [show shiftedBound.support = [⟨0, 0⟩] from rfl]
    simp
  owner := by
    rw [show shiftedBound.support = [⟨0, 0⟩] from rfl]
    simp

/-- Multiplied by `3 x`, the bound keeps the form `2 / x ≤ 1`. -/
theorem normalize_proportional_times :
    shiftedBound.WellPosed 0 ∧ (shiftedBound.times ⟨3, .single ⟨0, 0⟩ 1⟩).WellPosed 0 ∧
      (shiftedBound.times ⟨3, .single ⟨0, 0⟩ 1⟩).normalize false =
        .ok ⟨.geometric (.inequality [⟨2, .single ⟨0, 0⟩ (-1)⟩]), true⟩ := by
  have hbuilt : (⟨3, .single ⟨0, 0⟩ 1⟩ : Term ℝ).Built := by
    have h := built_variable.scale 3
    rwa [Term.scale, one_mul] at h
  have hkeys : ∀ v ∈ (Sparse.single (⟨0, 0⟩ : Variable) (1 : ℝ)).keys, v.owner = 0 := by
    simp [Sparse.keys, Sparse.single]
  have hsupport : (shiftedBound.times ⟨3, .single ⟨0, 0⟩ 1⟩).support ≠ [] := by
    apply List.ne_nil_of_mem (a := ⟨0, 0⟩)
    refine mem_support.mpr (.inr ?_)
    rw [times, Expr.occurrences_of_terms? (terms?_monomial_mul _ rfl)]
    exact List.mem_singleton.mpr rfl
  have htimes := wellPosed_shiftedBound.times hbuilt three_pos hkeys hsupport
  obtain ⟨hiff, hforms⟩ := normalize_proportional 0 _ shiftedBound ⟨3, .single ⟨0, 0⟩ 1⟩
    htimes wellPosed_shiftedBound rfl hbuilt three_pos hkeys (proportional_times _ _) false
  obtain ⟨⟨form, negate⟩, hc⟩ := hiff.mpr ⟨_, normalize_shiftedBound⟩
  obtain ⟨hform, hdual⟩ := hforms _ _ hc normalize_shiftedBound
  refine ⟨wellPosed_shiftedBound, htimes, ?_⟩
  obtain rfl : negate = true := hdual
  cases form with
  | signomial p q => cases hform
  | geometric f =>
    cases f with
    | equality t => cases hform
    | inequality p =>
      obtain rfl := List.perm_singleton.mp hform
      exact hc

end Relation

end LogConvex
