import LogConvex.Proofs.Expr
import LogConvex.Constraint.Normalize

/- Canonical forms mean what the relation meant. Over the reals each step from a relation
   to its form keeps the set of positive points where it holds: moving terms to one side
   (`Relation.holds_iff_difference`), merging like terms (`Terms.evaluate_combine`),
   splitting by sign (`Terms.evaluate_split`) and dividing by a single term. The last
   step needs positive points, because it divides by the value of a term. -/
namespace LogConvex

namespace Terms

/-! ## Merging like terms -/

@[simp] theorem evaluate_merge (t : Term ℝ) (ts : Terms ℝ) (x : Point ℝ) :
    evaluate (merge t ts) x = evaluate ts x + t.evaluate x := by
  induction ts with
  | nil => simp [merge]
  | cons u us ih =>
    rw [merge]
    split
    · next h =>
      have he : u.exponents = t.exponents := Sparse.eq_of_beq h
      rw [evaluate_cons, evaluate_cons, Term.evaluate_eq_mul, Term.evaluate_eq_mul u,
        Term.evaluate_eq_mul t, he]
      ring
    · rw [evaluate_cons, ih, evaluate_cons, add_assoc]

/-- Merging like terms keeps the value, at any point. -/
@[simp] theorem evaluate_combine (ts : Terms ℝ) (x : Point ℝ) :
    evaluate (combine ts) x = evaluate ts x := by
  rw [combine, view_foldl (fun us => evaluate us x) _ (fun t => t.evaluate x)
    (fun us t => evaluate_merge t us x)]
  simp [evaluate]

theorem mem_occurrences_merge {R : Type} [Scalar R] {t : Term R} {ts : Terms R} {v : Variable}
    (h : v ∈ occurrences (merge t ts)) : v ∈ t.exponents.keys ∨ v ∈ occurrences ts := by
  induction ts with
  | nil => simpa [merge, occurrences] using h
  | cons u us ih =>
    rw [merge] at h
    split at h
    · exact .inr h
    · rcases List.mem_append.mp h with h | h
      · exact .inr (List.mem_append_left _ h)
      · exact (ih h).imp_right (List.mem_append_right _)

theorem mem_occurrences_combine {R : Type} [Scalar R] {ts : Terms R} {v : Variable}
    (h : v ∈ occurrences (combine ts)) : v ∈ occurrences ts := by
  have hv := or_of_foldl (S := fun us : Terms R => v ∈ occurrences us)
    (T := fun t : Term R => v ∈ t.exponents.keys) (fun us t hv => (mem_occurrences_merge hv).symm) h
  exact mem_occurrences.mpr (hv.resolve_left List.not_mem_nil)

/-! ## Splitting by sign -/

theorem mem_occurrences_of_subset {R : Type} {ts us : Terms R} (h : ∀ t ∈ ts, t ∈ us)
    {v : Variable} (hv : v ∈ occurrences ts) : v ∈ occurrences us := by
  obtain ⟨t, ht, hv⟩ := mem_occurrences.mp hv
  exact mem_occurrences.mpr ⟨t, h t ht, hv⟩

/-- Over the reals a negative coefficient is not positive as well, so the negative part is the
positive part of the opposite sum. -/
theorem negativePart_eq (ts : Terms ℝ) : negativePart ts = positivePart (neg ts) := by
  rw [negativePart, positivePart, neg, List.filter_map]
  congr 1
  apply List.filter_congr
  intro t _
  rw [Function.comp_apply, Term.coefficient_neg]
  rcases lt_or_ge t.coefficient 0 with h | h
  · simp [h, h.not_gt]
  · simp [h.not_gt]

theorem coefficient_pos_of_mem_positivePart {ts : Terms ℝ} {t : Term ℝ}
    (h : t ∈ positivePart ts) : 0 < t.coefficient :=
  of_decide_eq_true (List.mem_filter.mp h).2

/-- A sum is its positive part less the negative part, at any point. -/
theorem evaluate_parts (ts : Terms ℝ) (x : Point ℝ) :
    evaluate (positivePart ts) x - evaluate (negativePart ts) x = evaluate ts x := by
  induction ts with
  | nil => simp [positivePart, negativePart]
  | cons t ts ih =>
    rw [evaluate_cons, ← ih]
    rcases lt_trichotomy t.coefficient 0 with h | h | h
    · simp [positivePart, negativePart, h, h.not_gt]
      ring
    · simp [positivePart, negativePart, h, Term.evaluate_eq_mul t]
    · simp [positivePart, negativePart, h]
      ring

/-- The two parts of a sum that splits. -/
theorem split_cases {R : Type} [Scalar R] {ts p q : Terms R} (h : split ts = .ok (p, q)) :
    p = positivePart (combine ts) ∧ q = negativePart (combine ts) := by
  simp only [split] at h
  split at h
  · simp at h
  · obtain ⟨rfl, rfl⟩ := Prod.mk.inj (Except.ok.inj h)
    exact ⟨rfl, rfl⟩

/-- A sum splits only if the coefficients of the merged terms are numbers. -/
theorem isFinite_of_split {R : Type} [Scalar R] {ts p q : Terms R} (h : split ts = .ok (p, q)) :
    ∀ t ∈ combine ts, Scalar.isFinite t.coefficient = true := by
  simp only [split] at h
  split at h
  · simp at h
  · next hfind => simpa using List.find?_eq_none.mp hfind

/-- Splitting brings in no variable. -/
theorem mem_occurrences_of_split {R : Type} [Scalar R] {ts p q : Terms R}
    (h : split ts = .ok (p, q)) {v : Variable} (hv : v ∈ occurrences p ∨ v ∈ occurrences q) :
    v ∈ occurrences ts := by
  obtain ⟨rfl, rfl⟩ := split_cases h
  apply mem_occurrences_combine
  rcases hv with hv | hv
  · exact mem_occurrences_of_subset (fun t ht => (List.mem_filter.mp ht).1) hv
  · rw [negativePart, ← neg, occurrences_neg] at hv
    exact mem_occurrences_of_subset (fun t ht => (List.mem_filter.mp ht).1) hv

/-- Over the reals every sum splits, because every coefficient is a number. -/
theorem split_eq (ts : Terms ℝ) :
    split ts = .ok (positivePart (combine ts), negativePart (combine ts)) := by
  have hf : List.find? (fun t : Term ℝ => !Scalar.isFinite t.coefficient) (combine ts) = none := by
    simp
  simp only [split, hf]

variable {ts p q : Terms ℝ}

theorem evaluate_split (h : split ts = .ok (p, q)) (x : Point ℝ) :
    evaluate p x - evaluate q x = evaluate ts x := by
  obtain ⟨rfl, rfl⟩ := split_cases h
  rw [evaluate_parts, evaluate_combine]

/-- Both parts of a split are posynomials. -/
theorem coefficient_pos_of_split (h : split ts = .ok (p, q)) :
    (∀ t ∈ p, 0 < t.coefficient) ∧ ∀ t ∈ q, 0 < t.coefficient := by
  obtain ⟨rfl, rfl⟩ := split_cases h
  rw [negativePart_eq]
  exact ⟨fun t => coefficient_pos_of_mem_positivePart, fun t => coefficient_pos_of_mem_positivePart⟩

end Terms

namespace Relation

/-! ## The shape of a form

Which relations have a form, and of which shape, does not depend on what the numbers mean. -/

/-- The variables of a relation are those of its sides. -/
theorem mem_support {R : Type} {r : Relation R} {v : Variable} :
    v ∈ r.support ↔ v ∈ r.lhs.occurrences ∨ v ∈ r.rhs.occurrences := by
  rw [support, Variable.mem_sorted, List.mem_append]

section Shape

variable {R : Type} [Scalar R] {r : Relation R}

/-- The difference of two sums is made of the terms of the sides, those of the larger side
with their signs changed. -/
theorem terms?_difference {ls rs : Terms R} (hl : r.lhs.terms? = some ls)
    (hr : r.rhs.terms? = some rs) :
    r.difference.terms? =
      some (if r.sense = .atLeast then rs ++ Terms.neg ls else ls ++ Terms.neg rs) := by
  unfold difference
  cases r.sense with
  | atLeast => simpa using Expr.terms?_sub hr hl
  | equal | atMost => simpa using Expr.terms?_sub hl hr

/-- Moving terms to one side brings in no variable. -/
theorem mem_support_of_difference {ls rs ts : Terms R} (hl : r.lhs.terms? = some ls)
    (hr : r.rhs.terms? = some rs) (hts : r.difference.terms? = some ts) {v : Variable}
    (hv : v ∈ Terms.occurrences ts) : v ∈ r.support := by
  have hsupp : v ∈ Terms.occurrences ls ∨ v ∈ Terms.occurrences rs → v ∈ r.support := by
    rw [mem_support, Expr.occurrences_of_terms? hl, Expr.occurrences_of_terms? hr]
    exact id
  have hocc : ∀ as bs : Terms R, v ∈ Terms.occurrences (as ++ Terms.neg bs) →
      v ∈ Terms.occurrences as ∨ v ∈ Terms.occurrences bs := by
    intro as bs h
    rw [← Terms.occurrences_neg bs]
    simpa [Terms.occurrences] using h
  rw [terms?_difference hl hr, Option.some.injEq] at hts
  subst hts
  split at hv
  · exact hsupp (hocc rs ls hv).symm
  · exact hsupp (hocc ls rs hv)

/-- An equation has a form only between two single terms. -/
theorem equationOf_cases {p q : Terms R} {f : Form R} (h : r.equationOf p q = .ok f) :
    ∃ t d, p = [t] ∧ q = [d] ∧ f = .geometric (.equality (t.div d)) := by
  unfold equationOf at h
  split at h
  · next t d =>
    refine ⟨t, d, rfl, rfl, ?_⟩
    unfold Term.toMonomial at h
    split at h
    · simpa [Except.map] using h.symm
    · simp [Except.map] at h
  · simp [refuse] at h

/-- A bound has a form by one term, or by several where that is allowed. -/
theorem boundOf_cases {allow : Bool} {p q : Terms R} {f : Form R}
    (h : r.boundOf allow p q = .ok f) :
    p ≠ [] ∧ ((∃ d, q = [d] ∧ f = .geometric (.inequality (Terms.divTerm p d))) ∨
      2 ≤ q.length ∧ allow = true ∧ f = .signomial p q) := by
  match p, q, h with
  | t :: ts, [d], h =>
    refine ⟨by simp, .inl ⟨d, rfl, ?_⟩⟩
    simpa [boundOf] using h.symm
  | t :: ts, d :: e :: ds, h =>
    cases allow with
    | true =>
      refine ⟨by simp, .inr ⟨by simp, rfl, ?_⟩⟩
      simpa [boundOf] using h.symm
    | false => simp [boundOf, refuse] at h

/-- Everything that can come of a split: an equation of two terms, a bound by one term, or
a bound by several terms where that is allowed. -/
theorem formOf_cases {allow : Bool} {p q : Terms R} {f : Form R}
    (h : r.formOf allow p q = .ok f) :
    (r.sense = .equal ∧ ∃ t d, p = [t] ∧ q = [d] ∧ f = .geometric (.equality (t.div d))) ∨
      r.sense ≠ .equal ∧ p ≠ [] ∧
        ((∃ d, q = [d] ∧ f = .geometric (.inequality (Terms.divTerm p d))) ∨
          2 ≤ q.length ∧ allow = true ∧ f = .signomial p q) := by
  unfold formOf at h
  cases hs : r.sense with
  | equal =>
    rw [hs] at h
    exact .inl ⟨rfl, equationOf_cases h⟩
  | atMost =>
    rw [hs] at h
    exact .inr ⟨by simp, boundOf_cases h⟩
  | atLeast =>
    rw [hs] at h
    exact .inr ⟨by simp, boundOf_cases h⟩

/-- A form has no variable that the split does not have. -/
theorem mem_occurrences_of_formOf {allow : Bool} {p q : Terms R} {f : Form R}
    (h : r.formOf allow p q = .ok f) {v : Variable} (hv : v ∈ Terms.occurrences f.terms) :
    v ∈ Terms.occurrences p ∨ v ∈ Terms.occurrences q := by
  have quotient : ∀ t ∈ p, ∀ d ∈ q, v ∈ (t.div d).exponents.keys →
      v ∈ Terms.occurrences p ∨ v ∈ Terms.occurrences q := by
    intro t ht d hd hv
    exact (Term.mem_keys_div hv).imp (fun h => Terms.mem_occurrences.mpr ⟨t, ht, h⟩)
      (fun h => Terms.mem_occurrences.mpr ⟨d, hd, h⟩)
  obtain ⟨u, hu, hkey⟩ := Terms.mem_occurrences.mp hv
  rcases formOf_cases h with ⟨_, t, d, rfl, rfl, rfl⟩ | ⟨_, _, ⟨d, rfl, rfl⟩ | ⟨_, _, rfl⟩⟩
  · obtain rfl : u = t.div d := by simpa [Form.terms, GeometricForm.terms] using hu
    exact quotient t (by simp) d (by simp) hkey
  · obtain ⟨t, ht, rfl⟩ := List.mem_map.mp hu
    exact quotient t ht d (by simp) hkey
  · exact (List.mem_append.mp hu).imp (fun hu => Terms.mem_occurrences.mpr ⟨u, hu, hkey⟩)
      (fun hu => Terms.mem_occurrences.mpr ⟨u, hu, hkey⟩)

/-- An accepted relation is between two sums of terms; their difference splits, and the
form is that of the split. -/
theorem normalize_cases {allow : Bool} {c : Canonical R} (h : r.normalize allow = .ok c) :
    ∃ ls rs ts p q, r.lhs.terms? = some ls ∧ r.rhs.terms? = some rs ∧
      r.difference.terms? = some ts ∧ Terms.split ts = .ok (p, q) ∧
      r.formOf allow p q = .ok c.form ∧ c.negateDual = (r.sense == .atLeast) := by
  unfold normalize at h
  split at h
  · next ls rs hl hr =>
    obtain ⟨ts, hts⟩ : ∃ ts, r.difference.terms? = some ts := ⟨_, terms?_difference hl hr⟩
    rw [hts, Option.getD_some] at h
    split_ifs at h
    · simp [refuse] at h
    · split at h
      · simp at h
      · next p q hsplit =>
        cases hf : r.formOf allow p q with
        | error e => simp [hf, Except.map] at h
        | ok f =>
          obtain rfl : (⟨f, r.sense == .atLeast⟩ : Canonical R) = c := by
            simpa [hf, Except.map] using h
          exact ⟨ls, rs, ts, p, q, hl, hr, hts, hsplit, hf, rfl⟩
  · simp [refuse] at h

/-- The coefficients of a geometric form are quotients of numbers that were found to be finite.
The quotients themselves are not looked at. -/
theorem exists_quotient_of_normalize {allow : Bool} {c : Canonical R} (h : r.normalize allow = .ok c)
    {g : GeometricForm R} (hg : c.form = .geometric g) : ∀ t ∈ g.terms, ∃ a b,
      Scalar.isFinite a = true ∧ 0 < a ∧ Scalar.isFinite b = true ∧ b < 0 ∧
        t.coefficient = a / (b * -1) := by
  obtain ⟨_, _, ts, p, q, _, _, _, hsplit, hform, _⟩ := normalize_cases h
  have hfinite := Terms.isFinite_of_split hsplit
  obtain ⟨hp, hq⟩ := Terms.split_cases hsplit
  have hquotient : ∀ t ∈ p, ∀ d ∈ q, ∃ a b, Scalar.isFinite a = true ∧ 0 < a ∧
      Scalar.isFinite b = true ∧ b < 0 ∧ (t.div d).coefficient = a / (b * -1) := by
    intro t ht d hd
    rw [hp] at ht
    rw [hq] at hd
    obtain ⟨ht, hpos⟩ := List.mem_filter.mp ht
    obtain ⟨u, hu, rfl⟩ := List.mem_map.mp hd
    obtain ⟨hu, hneg⟩ := List.mem_filter.mp hu
    have hneg : ¬ 0 < u.coefficient ∧ u.coefficient < 0 := by simpa using hneg
    exact ⟨_, _, hfinite t ht, of_decide_eq_true hpos, hfinite u hu, hneg.2,
      Term.coefficient_div _ _⟩
  intro t ht
  rcases formOf_cases hform with ⟨_, u, d, rfl, rfl, hf⟩ | ⟨_, _, ⟨d, rfl, hf⟩ | ⟨_, _, hf⟩⟩
  · obtain rfl := Form.geometric.inj (hg.symm.trans hf)
    obtain rfl := List.mem_singleton.mp ht
    exact hquotient u (by simp) d (by simp)
  · obtain rfl := Form.geometric.inj (hg.symm.trans hf)
    obtain ⟨u, hu, rfl⟩ := List.mem_map.mp ht
    exact hquotient u hu d (by simp)
  · cases hg.symm.trans hf

/-- The right side of an accepted relation is not zero, and it has a variable. -/
theorem checked_of_normalize {allow : Bool} {c : Canonical R} (h : r.normalize allow = .ok c)
    {rs : Terms R} (hr : r.rhs.terms? = some rs) :
    (List.all rs fun t => t.coefficient == 0) = false ∧ r.support.isEmpty = false := by
  unfold normalize at h
  rw [hr] at h
  split at h
  · next hright =>
    obtain rfl := Option.some.inj hright
    split_ifs at h with hzero hconst
    · simp [refuse] at h
    · exact ⟨by simpa using hzero, by simpa using hconst⟩
  · simp [refuse] at h

/-- What passes these checks has the form of its split, if there is one. -/
theorem normalize_eq_map {ls rs ts p q : Terms R} (hl : r.lhs.terms? = some ls)
    (hr : r.rhs.terms? = some rs) (hzero : (List.all rs fun t => t.coefficient == 0) = false)
    (hconst : r.support.isEmpty = false) (hts : r.difference.terms? = some ts)
    (hsplit : Terms.split ts = .ok (p, q)) (allow : Bool) :
    r.normalize allow = (r.formOf allow p q).map fun f => ⟨f, r.sense == .atLeast⟩ := by
  simp only [normalize, hl, hr, hts, hzero, hconst, Option.getD_some, hsplit]
  rfl

/-- A canonical form has no variable that the relation does not have. -/
theorem occurrences_of_normalize {allow : Bool} {c : Canonical R}
    (h : r.normalize allow = .ok c) {v : Variable} (hv : v ∈ Terms.occurrences c.form.terms) :
    v ∈ r.support := by
  obtain ⟨ls, rs, ts, p, q, hl, hr, hts, hsplit, hform, _⟩ := normalize_cases h
  exact mem_support_of_difference hl hr hts
    (Terms.mem_occurrences_of_split hsplit (mem_occurrences_of_formOf hform hv))

/-- Where signomial constraints are not allowed, every form is geometric. -/
theorem geometric_of_normalize {c : Canonical R} (h : r.normalize false = .ok c) :
    ∃ g, c.form = .geometric g := by
  obtain ⟨_, _, _, _, _, _, _, _, _, hform, _⟩ := normalize_cases h
  rcases formOf_cases hform with ⟨_, t, d, _, _, hf⟩ | ⟨_, _, ⟨d, _, hf⟩ | ⟨_, hallow, _⟩⟩
  · exact ⟨_, hf⟩
  · exact ⟨_, hf⟩
  · exact absurd hallow Bool.false_ne_true

/-- A true signomial form bounds by at least two terms. -/
theorem two_le_of_normalize {allow : Bool} {c : Canonical R} (h : r.normalize allow = .ok c)
    {p q : Terms R} (hf : c.form = .signomial p q) : 2 ≤ q.length := by
  obtain ⟨_, _, _, _, _, _, _, _, _, hform, _⟩ := normalize_cases h
  rw [hf] at hform
  rcases formOf_cases hform with ⟨_, _, _, _, _, hf⟩ | ⟨_, _, ⟨_, _, hf⟩ | ⟨hlen, _, hf⟩⟩
  · simp at hf
  · simp at hf
  · obtain ⟨rfl, rfl⟩ := Form.signomial.inj hf
    exact hlen

end Shape

/-! ## Moving terms to one side -/

/-- Which comparison with zero the difference of the sides is left with. -/
def HoldsOfDifference (r : Relation ℝ) (d : ℝ) : Prop :=
  match r.sense with
  | .equal => d = 0
  | .atMost | .atLeast => d ≤ 0

variable {r : Relation ℝ}

/-- A relation between two sums compares their difference with zero. -/
theorem holds_iff_difference {ls rs ts : Terms ℝ} (hl : r.lhs.terms? = some ls)
    (hr : r.rhs.terms? = some rs) (hts : r.difference.terms? = some ts) (x : Point ℝ) :
    r.Holds x ↔ r.HoldsOfDifference (Terms.evaluate ts x) := by
  rw [terms?_difference hl hr, Option.some.injEq] at hts
  subst hts
  unfold Holds HoldsOfDifference
  cases r.sense with
  | equal =>
    simp [Expr.evaluate_of_terms? hl, Expr.evaluate_of_terms? hr, ← sub_eq_add_neg, sub_eq_zero]
  | atMost => simp [Expr.evaluate_of_terms? hl, Expr.evaluate_of_terms? hr]
  | atLeast => simp [Expr.evaluate_of_terms? hl, Expr.evaluate_of_terms? hr]

theorem holdsOfDifference_iff_of_ne (hs : r.sense ≠ .equal) (d : ℝ) :
    r.HoldsOfDifference d ↔ d ≤ 0 := by
  cases h : r.sense with
  | equal => exact absurd h hs
  | atMost => simp [HoldsOfDifference, h]
  | atLeast => simp [HoldsOfDifference, h]

/-! ## The form of a split -/

/-- The form of a split says what the split says. -/
theorem holds_formOf {allow : Bool} {p q : Terms ℝ} {f : Form ℝ}
    (h : r.formOf allow p q = .ok f) (hq : ∀ t ∈ q, 0 < t.coefficient) {x : Point ℝ}
    (hx : x.Positive) (hcp : x.Covers (Terms.occurrences p))
    (hcq : x.Covers (Terms.occurrences q)) :
    r.HoldsOfDifference (Terms.evaluate p x - Terms.evaluate q x) ↔ f.Holds x := by
  have hd : ∀ d ∈ q, x.Covers d.exponents.keys ∧ 0 < d.evaluate x := by
    intro d hd
    have hc := Terms.covers_occurrences.mp hcq d hd
    exact ⟨hc, Term.evaluate_pos (hq d hd) hx hc⟩
  rcases formOf_cases h with ⟨hs, t, d, rfl, rfl, rfl⟩ | ⟨hs, _, ⟨d, rfl, rfl⟩ | ⟨_, _, rfl⟩⟩
  · obtain ⟨hcd, hpos⟩ := hd d (by simp)
    have hct : x.Covers t.exponents.keys := Terms.covers_occurrences.mp hcp t (by simp)
    show _ ↔ (t.div d).evaluate x = 1
    rw [Term.evaluate_div t d hx hct hcd, div_eq_one_iff_eq hpos.ne']
    simp [HoldsOfDifference, hs, sub_eq_zero]
  · obtain ⟨hcd, hpos⟩ := hd d (by simp)
    show _ ↔ Terms.evaluate (Terms.divTerm p d) x ≤ 1
    rw [Terms.evaluate_divTerm hx hcp hcd, div_le_one hpos, holdsOfDifference_iff_of_ne hs]
    simp
  · exact holdsOfDifference_iff_of_ne hs _

/-- The terms of a form are terms of the split, divided or not, so their coefficients are
positive. -/
theorem coefficient_pos_of_formOf {allow : Bool} {p q : Terms ℝ} {f : Form ℝ}
    (h : r.formOf allow p q = .ok f) (hp : ∀ t ∈ p, 0 < t.coefficient)
    (hq : ∀ t ∈ q, 0 < t.coefficient) {u : Term ℝ} (hu : u ∈ f.terms) : 0 < u.coefficient := by
  rcases formOf_cases h with ⟨_, t, d, rfl, rfl, rfl⟩ | ⟨_, _, ⟨d, rfl, rfl⟩ | ⟨_, _, rfl⟩⟩
  · obtain rfl : u = t.div d := by simpa [Form.terms, GeometricForm.terms] using hu
    rw [Term.coefficient_div]
    exact div_pos (hp t (by simp)) (hq d (by simp))
  · obtain ⟨t, ht, rfl⟩ := List.mem_map.mp hu
    rw [Term.coefficient_div]
    exact div_pos (hp t ht) (hq d (by simp))
  · exact (List.mem_append.mp hu).elim (hp u) (hq u)

/-! ## Normalization -/

/-- A canonical form has positive coefficients only, and no variable that the relation
does not have. -/
theorem terms_normalize {allow : Bool} {c : Canonical ℝ} (h : r.normalize allow = .ok c)
    {u : Term ℝ} (hu : u ∈ c.form.terms) :
    0 < u.coefficient ∧ ∀ v ∈ u.exponents.keys, v ∈ r.support := by
  obtain ⟨ls, rs, ts, p, q, hl, hr, hts, hsplit, hform, _⟩ := normalize_cases h
  obtain ⟨hp, hq⟩ := Terms.coefficient_pos_of_split hsplit
  exact ⟨coefficient_pos_of_formOf hform hp hq hu,
    fun v hv => occurrences_of_normalize h (Terms.mem_occurrences.mpr ⟨u, hu, hv⟩)⟩

/-- The canonical form holds where the relation does. -/
theorem holds_normalize {allow : Bool} {c : Canonical ℝ} (h : r.normalize allow = .ok c)
    {x : Point ℝ} (hx : x.Positive) (hc : x.Covers r.support) :
    r.Holds x ↔ c.form.Holds x := by
  obtain ⟨ls, rs, ts, p, q, hl, hr, hts, hsplit, hform, _⟩ := normalize_cases h
  obtain ⟨_, hq⟩ := Terms.coefficient_pos_of_split hsplit
  have hcov : ∀ v, v ∈ Terms.occurrences p ∨ v ∈ Terms.occurrences q → v.index < x.length :=
    fun v hv => hc v (mem_support_of_difference hl hr hts (Terms.mem_occurrences_of_split hsplit hv))
  rw [holds_iff_difference hl hr hts, ← Terms.evaluate_split hsplit]
  exact holds_formOf hform hq hx (fun v hv => hcov v (.inl hv)) fun v hv => hcov v (.inr hv)

/-- Normalization keeps the meaning of a relation. At every positive point that covers its
variables the relation holds exactly where its canonical form does; every coefficient of
the form is positive; and the dual value changes sign exactly for a bound from below. -/
theorem normalize_exact (r : Relation ℝ) (allowSignomial : Bool) (c : Canonical ℝ)
    (h : r.normalize allowSignomial = .ok c) :
    (∀ x : Point ℝ, x.Positive → x.Covers r.support → (r.Holds x ↔ c.form.Holds x)) ∧
      (∀ t ∈ c.form.terms, 0 < t.coefficient) ∧
      (c.negateDual = true ↔ r.sense = .atLeast) := by
  refine ⟨fun x hx hc => holds_normalize h hx hc, fun t ht => (terms_normalize h ht).1, ?_⟩
  obtain ⟨_, _, _, _, _, _, _, _, _, _, hn⟩ := normalize_cases h
  rw [hn, beq_iff_eq]

/-- The relation `x - 3 ≥ -1`, with a constant on each side. -/
noncomputable def shiftedBound : Relation ℝ where
  lhs := .signomial [⟨1, .single ⟨0, 0⟩ 1⟩, .constant (-3)]
  sense := .atLeast
  rhs := .signomial [.constant (-1)]

theorem split_shiftedBound :
    Terms.split [.constant (-1), ⟨-1, .single ⟨0, 0⟩ 1⟩, .constant 3] =
      (.ok ([.constant 2], [⟨1, .single ⟨0, 0⟩ 1⟩]) : Except (Error ℝ) (Terms ℝ × Terms ℝ)) := by
  have h1 : ((.empty : Sparse Variable ℝ) == .empty) = true := rfl
  have h2 : ((.empty : Sparse Variable ℝ) == .single ⟨0, 0⟩ 1) = false := rfl
  simp [Terms.split_eq, Terms.combine, Terms.merge, Term.constant, h1, h2, Terms.positivePart,
    Terms.negativePart, Term.neg, Term.scale]
  norm_num

/-- The two constants merge, change sides and become the divided term: `2 / x ≤ 1`. -/
theorem normalize_shiftedBound : shiftedBound.normalize false =
    .ok ⟨.geometric (.inequality [⟨2, .single ⟨0, 0⟩ (-1)⟩]), true⟩ := by
  have hd : shiftedBound.difference.terms? =
      some [.constant (-1), ⟨-1, .single ⟨0, 0⟩ 1⟩, .constant 3] := by
    rw [difference, shiftedBound, Expr.terms?_sub rfl rfl]
    simp [Terms.neg, Term.neg, Term.scale, Term.constant]
  have hs : shiftedBound.support.isEmpty = false := rfl
  have hdiv : Term.div (.constant 2) ⟨1, .single ⟨0, 0⟩ 1⟩ =
      (⟨2, .single ⟨0, 0⟩ (-1)⟩ : Term ℝ) := by
    simp [Term.div, Term.constant, Term.addExponent, Sparse.single, Sparse.addReduced, Sparse.alter,
      Sparse.alterEntries, Sparse.consEntry, Sparse.empty]
  have hl : shiftedBound.lhs.terms? = some [⟨1, .single ⟨0, 0⟩ 1⟩, .constant (-3)] := rfl
  have hr : shiftedBound.rhs.terms? = some [.constant (-1)] := rfl
  have hf : shiftedBound.formOf false [.constant 2] [⟨1, .single ⟨0, 0⟩ 1⟩] =
      .ok (.geometric (.inequality [⟨2, .single ⟨0, 0⟩ (-1)⟩])) := by
    simp only [formOf, shiftedBound, boundOf, Terms.divTerm, List.map_cons, List.map_nil, hdiv]
  have hz : (List.all [(Term.constant (-1) : Term ℝ)] fun t => t.coefficient == 0) = false := by
    simp [Term.constant]
  simp only [normalize, hl, hr, hd, hs, hz, hf, Option.getD_some, split_shiftedBound]
  rfl

/-- There the form holds for `x ≥ 2`, as the relation does. -/
theorem normalize_exact_shiftedBound :
    shiftedBound.normalize false =
        .ok ⟨.geometric (.inequality [⟨2, .single ⟨0, 0⟩ (-1)⟩]), true⟩ ∧
      (∀ x : Point ℝ, x.Positive → x.Covers shiftedBound.support →
        (shiftedBound.Holds x ↔
          (Form.geometric (.inequality [⟨2, .single ⟨0, 0⟩ (-1)⟩])).Holds x)) ∧
      (∀ t ∈ (Form.geometric (.inequality [⟨2, .single ⟨0, 0⟩ (-1)⟩])).terms,
        (0 : ℝ) < t.coefficient) ∧
      (true = true ↔ shiftedBound.sense = .atLeast) :=
  ⟨normalize_shiftedBound, normalize_exact shiftedBound false _ normalize_shiftedBound⟩

end Relation

end LogConvex
