import LogConvex.Kind
import LogConvex.Proofs.CanonicalForm

/- What normalization refuses. Over the reals a relation between two sums, with a right side
   that is not zero and at least one variable, can be refused for three reasons only: nothing
   is left on one of the sides, an equation is left with several terms on a side, or a bound
   is left with several terms above where that is not allowed. The first makes the relation
   hold at every positive point or at none (`Relation.decided_of_empty`). The other two cannot
   happen to a bound of a posynomial by a monomial or to an equation of two terms, because
   merging never makes more terms than there were and can make at most one of several
   nonnegative coefficients negative. -/
namespace LogConvex

namespace Terms

/-! ## How many terms merging and splitting leave -/

theorem length_merge_le {R : Type} [Scalar R] (t : Term R) (ts : Terms R) :
    (merge t ts).length ≤ ts.length + 1 := by
  induction ts with
  | nil => simp [merge]
  | cons u us ih =>
    rw [merge]
    split
    · simp
    · simpa using ih

theorem length_combine_le {R : Type} [Scalar R] (ts : Terms R) :
    (combine ts).length ≤ ts.length := by
  have hfold : ∀ acc : Terms R,
      (List.foldl (fun acc t => merge t acc) acc ts).length ≤ acc.length + ts.length := by
    induction ts with
    | nil => simp
    | cons t ts ih =>
      intro acc
      have hmerge := length_merge_le t acc
      have hrest := ih (merge t acc)
      rw [List.foldl_cons, List.length_cons]
      omega
  simpa [combine] using hfold []

/-- No term is in both parts. -/
theorem length_parts_le (ts : Terms ℝ) :
    (positivePart ts).length + (negativePart ts).length ≤ ts.length := by
  induction ts with
  | nil => simp [positivePart, negativePart]
  | cons t ts ih =>
    simp only [positivePart, negativePart, List.length_map] at ih ⊢
    rcases lt_trichotomy t.coefficient 0 with h | h | h
    · simp only [h, h.not_gt, List.filter_cons, List.length_cons, decide_true, decide_false,
        Bool.not_false, Bool.and_true, if_true, Bool.false_eq_true, if_false]
      omega
    · simp only [h, lt_irrefl, List.filter_cons, List.length_cons, decide_false, Bool.and_false,
        Bool.false_eq_true, if_false]
      omega
    · simp only [h, List.filter_cons, List.length_cons, decide_true, Bool.not_true,
        Bool.false_and, if_true, Bool.false_eq_true, if_false]
      omega

/-- A term that joins nonnegative ones can leave one negative coefficient at most: its own, or
that of the term that it is merged into. -/
theorem length_negativePart_merge_le {us : Terms ℝ} (h : ∀ u ∈ us, 0 ≤ u.coefficient)
    (t : Term ℝ) : (negativePart (merge t us)).length ≤ 1 := by
  have hnone : ∀ us : Terms ℝ, (∀ u ∈ us, 0 ≤ u.coefficient) →
      List.filter (fun t => !decide (0 < t.coefficient) && decide (t.coefficient < 0)) us = [] := by
    intro us hus
    apply List.filter_eq_nil_iff.mpr
    intro u hu
    simp [(hus u hu).not_gt]
  unfold negativePart
  rw [List.length_map]
  induction us with
  | nil => exact List.length_filter_le _ _
  | cons u us ih =>
    obtain ⟨hu, hus⟩ := List.forall_mem_cons.mp h
    rw [merge]
    split
    · -- all but the first term are as they were
      rw [List.filter_cons, hnone us hus]
      split <;> simp
    · rw [List.filter_cons_of_neg (by simp [hu.not_gt])]
      exact ih hus

theorem coefficient_merge_nonneg {t : Term ℝ} {us : Terms ℝ} (ht : 0 ≤ t.coefficient)
    (h : ∀ u ∈ us, 0 ≤ u.coefficient) : ∀ u ∈ merge t us, 0 ≤ u.coefficient := by
  induction us with
  | nil => simpa [merge] using ht
  | cons u us ih =>
    rw [List.forall_mem_cons] at h
    rw [merge]
    split
    · exact List.forall_mem_cons.mpr ⟨add_nonneg h.1 ht, h.2⟩
    · exact List.forall_mem_cons.mpr ⟨h.1, ih h.2⟩

theorem coefficient_combine_nonneg {ts : Terms ℝ} (h : ∀ t ∈ ts, 0 ≤ t.coefficient) :
    ∀ t ∈ combine ts, 0 ≤ t.coefficient := by
  refine List.foldlRecOn (motive := fun us : Terms ℝ => ∀ u ∈ us, 0 ≤ u.coefficient) ts _
    (by simp) ?_
  intro us hus t ht
  exact coefficient_merge_nonneg (h t ht) hus

/-- Of a posynomial less one term, at most one term is negative. -/
theorem length_negativePart_combine_le {ts : Terms ℝ} (h : ∀ t ∈ ts, 0 ≤ t.coefficient)
    (u : Term ℝ) : (negativePart (combine (ts ++ [u]))).length ≤ 1 := by
  rw [combine, List.foldl_append]
  exact length_negativePart_merge_le (coefficient_combine_nonneg h) u

end Terms

theorem Term.coefficient_nonneg_of_isPositive {t : Term ℝ} (h : t.isPositive = true) :
    0 ≤ t.coefficient := by
  simp only [isPositive, Bool.or_eq_true, Bool.and_eq_true, decide_eq_true_eq, beq_iff_eq] at h
  rcases h with h | h
  · exact h.le
  · exact h.1.ge

namespace Relation

/-! ## Relations that hold everywhere or nowhere -/

/-- The relation holds at every positive point that covers its variables, or at none. -/
def Decided (r : Relation ℝ) : Prop :=
  (∀ x : Point ℝ, x.Positive → x.Covers r.support → r.Holds x) ∨
    ∀ x : Point ℝ, x.Positive → x.Covers r.support → ¬ r.Holds x

theorem not_holdsOfDifference_of_pos {r : Relation ℝ} {d : ℝ} (hd : 0 < d) :
    ¬ r.HoldsOfDifference d := by
  unfold HoldsOfDifference
  cases r.sense with
  | equal => exact hd.ne'
  | atMost | atLeast => exact hd.not_ge

/-- If nothing is left on one side, the relation does not depend on the point. -/
theorem decided_of_empty {r : Relation ℝ} {ls rs ts p q : Terms ℝ} (hl : r.lhs.terms? = some ls)
    (hr : r.rhs.terms? = some rs) (hts : r.difference.terms? = some ts)
    (hsplit : Terms.split ts = .ok (p, q)) (hempty : p = [] ∨ q = []) : r.Decided := by
  obtain ⟨hp, hq⟩ := Terms.coefficient_pos_of_split hsplit
  have hcov : ∀ x : Point ℝ, x.Covers r.support →
      x.Covers (Terms.occurrences p) ∧ x.Covers (Terms.occurrences q) := by
    intro x hc
    have hin : ∀ v, v ∈ Terms.occurrences p ∨ v ∈ Terms.occurrences q → v.index < x.length :=
      fun v hv => hc v (mem_support_of_difference hl hr hts
        (Terms.mem_occurrences_of_split hsplit hv))
    exact ⟨fun v hv => hin v (.inl hv), fun v hv => hin v (.inr hv)⟩
  have hholds : ∀ x : Point ℝ,
      r.Holds x ↔ r.HoldsOfDifference (Terms.evaluate p x - Terms.evaluate q x) := by
    intro x
    rw [holds_iff_difference hl hr hts, Terms.evaluate_split hsplit]
  by_cases hpe : p = []
  · subst hpe
    have hneg : ∀ x : Point ℝ, x.Positive → x.Covers r.support →
        Terms.evaluate [] x - Terms.evaluate q x ≤ 0 := by
      intro x hx hc
      have hnonneg := Terms.evaluate_nonneg hq hx (hcov x hc).2
      rw [Terms.evaluate_nil]
      linarith
    by_cases hs : r.sense = .equal
    · by_cases hqe : q = []
      · left
        intro x _ _
        rw [hholds, hqe, sub_self, HoldsOfDifference, hs]
      · right
        intro x hx hc
        have hpos := Terms.evaluate_pos hqe hq hx (hcov x hc).2
        rw [hholds, HoldsOfDifference, hs, Terms.evaluate_nil, zero_sub]
        exact (neg_lt_zero.mpr hpos).ne
    · left
      intro x hx hc
      rw [hholds, holdsOfDifference_iff_of_ne hs]
      exact hneg x hx hc
  · right
    intro x hx hc
    rw [hholds, hempty.resolve_left hpe, Terms.evaluate_nil, sub_zero]
    exact not_holdsOfDifference_of_pos (Terms.evaluate_pos hpe hp hx (hcov x hc).1)

/-! ## When a split has no form -/

/-- A split without a form is empty on one side, if an equation has two terms in all and a
bound has one term above or may have several. -/
theorem empty_of_formOf_error {r : Relation ℝ} {allow : Bool} {p q : Terms ℝ} {e : Error ℝ}
    (hp : ∀ t ∈ p, 0 < t.coefficient) (hq : ∀ t ∈ q, 0 < t.coefficient)
    (hequation : r.sense = .equal → p.length + q.length ≤ 2)
    (hbound : r.sense ≠ .equal → allow = true ∨ q.length ≤ 1)
    (h : r.formOf allow p q = .error e) : p = [] ∨ q = [] := by
  by_contra hne
  rw [not_or] at hne
  obtain ⟨t, ps, rfl⟩ := List.exists_cons_of_ne_nil hne.1
  obtain ⟨d, qs, rfl⟩ := List.exists_cons_of_ne_nil hne.2
  have bounded : r.sense ≠ .equal → r.boundOf allow (t :: ps) (d :: qs) ≠ .error e := by
    intro hs
    cases qs with
    | nil => simp [boundOf]
    | cons d' qs =>
      obtain rfl : allow = true := (hbound hs).resolve_right (by simp)
      simp [boundOf]
  unfold formOf at h
  cases hs : r.sense with
  | equal =>
    have hlength := hequation hs
    rw [List.length_cons, List.length_cons] at hlength
    obtain rfl : ps = [] := List.length_eq_zero_iff.mp (by omega)
    obtain rfl : qs = [] := List.length_eq_zero_iff.mp (by omega)
    -- the quotient of two positive terms is positive, so it passes the check
    have hpos : 0 < (t.div d).coefficient := by
      rw [Term.coefficient_div]
      exact div_pos (hp t (by simp)) (hq d (by simp))
    simp [hs, equationOf, Term.toMonomial, Term.isPositive, hpos, Except.map] at h
  | atMost =>
    rw [hs] at h
    exact bounded (by simp [hs]) h
  | atLeast =>
    rw [hs] at h
    exact bounded (by simp [hs]) h

theorem boundOf_false_eq_ok_iff {R : Type} [Scalar R] {r : Relation R} {p q : Terms R}
    {f : Form R} :
    r.boundOf false p q = .ok f ↔ r.boundOf true p q = .ok f ∧ f.isSignomial = false := by
  match p, q with
  | [], _ => simp [boundOf, refuse]
  | _ :: _, [] => simp [boundOf, refuse]
  | t :: ts, [d] =>
    simp only [boundOf, Except.ok.injEq]
    constructor
    · rintro rfl
      exact ⟨rfl, rfl⟩
    · exact And.left
  | t :: ts, d :: d' :: ds =>
    simp only [boundOf, Bool.false_eq_true, if_false, if_true, Except.ok.injEq, refuse, reduceCtorEq,
      false_iff, not_and]
    rintro rfl
    simp [Form.isSignomial, Form.geometric?]

theorem formOf_false_eq_ok_iff {R : Type} [Scalar R] {r : Relation R} {p q : Terms R}
    {f : Form R} :
    r.formOf false p q = .ok f ↔ r.formOf true p q = .ok f ∧ f.isSignomial = false := by
  unfold formOf
  cases r.sense with
  | equal =>
    refine ⟨fun h => ⟨h, ?_⟩, And.left⟩
    obtain ⟨t, d, _, _, rfl⟩ := equationOf_cases h
    rfl
  | atMost => exact boundOf_false_eq_ok_iff
  | atLeast => exact boundOf_false_eq_ok_iff

/-! ## Normalization -/

/-- Whether signomial constraints are allowed matters for the last step only. -/
theorem exists_parts {R : Type} [Scalar R] (r : Relation R) :
    ∃ parts : Except (Error R) (Terms R × Terms R), ∀ allow, r.normalize allow =
      parts.bind fun pq => (r.formOf allow pq.1 pq.2).map fun f => ⟨f, r.sense == .atLeast⟩ := by
  unfold normalize
  split
  · split_ifs
    · exact ⟨.error .zeroRightHandSide, fun _ => rfl⟩
    · exact ⟨r.refuse .constant, fun _ => rfl⟩
    · refine ⟨Terms.split (r.difference.terms?.getD []), fun allow => ?_⟩
      split <;> next hsplit => rw [hsplit]; rfl
  · exact ⟨r.refuse .outsideAlgebra, fun _ => rfl⟩

/-- A geometric model accepts what a signomial model gives a geometric form, and gives it the
same form. -/
theorem normalize_false_eq_ok_iff {R : Type} [Scalar R] {r : Relation R} {c : Canonical R} :
    r.normalize false = .ok c ↔ r.normalize true = .ok c ∧ c.form.isSignomial = false := by
  obtain ⟨parts, hparts⟩ := r.exists_parts
  have hmap : ∀ (x : Except (Error R) (Form R)),
      (x.map fun f => (⟨f, r.sense == .atLeast⟩ : Canonical R)) = .ok c ↔
        x = .ok c.form ∧ c.negateDual = (r.sense == .atLeast) := by
    intro x
    obtain ⟨form, negate⟩ := c
    cases x with
    | error e => simp [Except.map]
    | ok f => simp [Except.map, eq_comm]
  rw [hparts, hparts]
  cases parts with
  | error e => simp [Except.bind]
  | ok pq =>
    simp only [Except.bind, hmap, formOf_false_eq_ok_iff]
    exact and_right_comm

/-- A relation between two sums, not all of the right one zero and with a variable, is refused
because its split has no form. -/
theorem formOf_error_of_normalize {r : Relation ℝ} {ls rs : Terms ℝ} (hl : r.lhs.terms? = some ls)
    (hr : r.rhs.terms? = some rs) (hright : ∃ t ∈ rs, t.coefficient ≠ 0) (hvars : r.support ≠ [])
    {allow : Bool} {e : Error ℝ} (h : r.normalize allow = .error e) :
    ∃ ts p q, r.difference.terms? = some ts ∧ Terms.split ts = .ok (p, q) ∧
      r.formOf allow p q = .error e := by
  obtain ⟨ts, hts⟩ : ∃ ts, r.difference.terms? = some ts := ⟨_, terms?_difference hl hr⟩
  have hzero : (List.all rs fun t => t.coefficient == 0) = false := by
    simpa using hright
  have hconst : r.support.isEmpty = false := by simpa using hvars
  simp only [normalize, hl, hr, hts, hzero, hconst, Option.getD_some, Terms.split_eq] at h
  refine ⟨ts, _, _, hts, Terms.split_eq ts, ?_⟩
  cases hform : r.formOf allow (Terms.positivePart (Terms.combine ts))
      (Terms.negativePart (Terms.combine ts)) with
  | error e' =>
    rw [hform] at h
    simpa [Except.map] using h
  | ok f =>
    rw [hform] at h
    simp [Except.map] at h

/-- The relation is of a kind that geometric programming can express: it bounds a posynomial
above by a monomial, or equates two monomials. -/
def IsGeometric {R : Type} [Scalar R] (r : Relation R) : Prop :=
  match r.sense with
  | .equal => r.lhs.kind.isMonomial = true ∧ r.rhs.kind.isMonomial = true
  | .atMost => r.lhs.kind.isPosynomial = true ∧ r.rhs.kind.isMonomial = true
  | .atLeast => r.lhs.kind.isMonomial = true ∧ r.rhs.kind.isPosynomial = true

/-- What is moved in such a relation is one term, so its equations keep two terms at most and
its bounds one negative term. -/
theorem IsGeometric.length_split_le {r : Relation ℝ} (h : r.IsGeometric) {ts p q : Terms ℝ}
    (hts : r.difference.terms? = some ts) (hsplit : Terms.split ts = .ok (p, q)) :
    (r.sense = .equal → p.length + q.length ≤ 2) ∧ (r.sense ≠ .equal → q.length ≤ 1) := by
  obtain ⟨rfl, rfl⟩ := Terms.split_cases hsplit
  -- a sum of positive terms less a term
  have bounded : ∀ {a b : Expr ℝ} {as bs : Terms ℝ}, a.kind.isPosynomial = true →
      b.kind.isMonomial = true → a.terms? = some as → b.terms? = some bs →
      (Terms.negativePart (Terms.combine (as ++ Terms.neg bs))).length ≤ 1 := by
    intro a b as bs ha hb has hbs
    obtain ⟨as', has', hpos⟩ := Expr.isPosynomial_kind_iff.mp ha
    obtain rfl : as = as' := Option.some.inj (has.symm.trans has')
    obtain ⟨d, hd, _⟩ := Expr.isMonomial_kind_iff.mp hb
    obtain rfl : bs = [d] := Option.some.inj (hbs.symm.trans hd)
    apply Terms.length_negativePart_combine_le
    intro t ht
    exact Term.coefficient_nonneg_of_isPositive (List.all_eq_true.mp hpos t ht)
  unfold IsGeometric at h
  cases hs : r.sense with
  | equal =>
    rw [hs] at h
    obtain ⟨t, ht, _⟩ := Expr.isMonomial_kind_iff.mp h.1
    obtain ⟨d, hd, _⟩ := Expr.isMonomial_kind_iff.mp h.2
    rw [terms?_difference ht hd, hs] at hts
    obtain rfl := Option.some.inj hts
    refine ⟨fun _ => ?_, fun hne => absurd rfl hne⟩
    have hparts := Terms.length_parts_le (Terms.combine ([t] ++ Terms.neg [d]))
    have hcombine := Terms.length_combine_le ([t] ++ Terms.neg [d])
    have htwo : ([t] ++ Terms.neg [d]).length = 2 := rfl
    simp only [reduceCtorEq, if_false]
    omega
  | atMost =>
    rw [hs] at h
    obtain ⟨as, has, _⟩ := Expr.isPosynomial_kind_iff.mp h.1
    obtain ⟨d, hd, _⟩ := Expr.isMonomial_kind_iff.mp h.2
    rw [terms?_difference has hd, hs] at hts
    obtain rfl := Option.some.inj hts
    exact ⟨fun he => absurd he (by simp), fun _ => bounded h.1 h.2 has hd⟩
  | atLeast =>
    rw [hs] at h
    obtain ⟨d, hd, _⟩ := Expr.isMonomial_kind_iff.mp h.1
    obtain ⟨as, has, _⟩ := Expr.isPosynomial_kind_iff.mp h.2
    rw [terms?_difference hd has, hs] at hts
    obtain rfl := Option.some.inj hts
    exact ⟨fun he => absurd he (by simp), fun _ => bounded h.2 h.1 has hd⟩

/-- Normalization refuses no more than it has to. Take a relation between two sums of terms,
the right one not zero, with at least one variable. Where signomial constraints are allowed, a
bound is refused only if it holds at every positive point or at none. Where they are not, the
same is true of a posynomial bounded above by a monomial and of two monomials that are equated,
however the sides are written. What is accepted without signomial constraints is exactly what
has a geometric form with them, and it is the same form. -/
theorem normalize_error_decided (r : Relation ℝ) (ls rs : Terms ℝ)
    (hl : r.lhs.terms? = some ls) (hr : r.rhs.terms? = some rs)
    (hright : ∃ t ∈ rs, t.coefficient ≠ 0) (hvars : r.support ≠ []) :
    (r.sense ≠ .equal → ∀ e, r.normalize true = .error e → r.Decided) ∧
      (r.IsGeometric → ∀ e, r.normalize false = .error e → r.Decided) ∧
      ∀ c, r.normalize false = .ok c ↔ r.normalize true = .ok c ∧ c.form.isSignomial = false := by
  refine ⟨fun hs e h => ?_, fun hg e h => ?_, fun c => normalize_false_eq_ok_iff⟩
  · obtain ⟨ts, p, q, hts, hsplit, hform⟩ := formOf_error_of_normalize hl hr hright hvars h
    obtain ⟨hp, hq⟩ := Terms.coefficient_pos_of_split hsplit
    exact decided_of_empty hl hr hts hsplit
      (empty_of_formOf_error hp hq (fun he => absurd he hs) (fun _ => .inl rfl) hform)
  · obtain ⟨ts, p, q, hts, hsplit, hform⟩ := formOf_error_of_normalize hl hr hright hvars h
    obtain ⟨hp, hq⟩ := Terms.coefficient_pos_of_split hsplit
    obtain ⟨hequation, hbound⟩ := hg.length_split_le hts hsplit
    exact decided_of_empty hl hr hts hsplit
      (empty_of_formOf_error hp hq hequation (fun hs => .inr (hbound hs)) hform)

/-- The relation `x + 1 ≤ 1`, from which the constants vanish. -/
noncomputable def vanishingBound : Relation ℝ where
  lhs := .posynomial [⟨1, .single ⟨0, 0⟩ 1⟩, .constant 1]
  sense := .atMost
  rhs := .monomial (.constant 1)

theorem normalize_vanishingBound : vanishingBound.normalize false =
    .error (.invalidConstraint (.relation .boundedByZero vanishingBound)) := by
  have hl : vanishingBound.lhs.terms? = some [⟨1, .single ⟨0, 0⟩ 1⟩, .constant 1] := rfl
  have hr : vanishingBound.rhs.terms? = some [.constant 1] := rfl
  have hd : vanishingBound.difference.terms? =
      some [⟨1, .single ⟨0, 0⟩ 1⟩, .constant 1, .constant (-1)] := by
    rw [terms?_difference hl hr]
    simp [vanishingBound, Terms.neg, Term.neg, Term.scale, Term.constant]
  have hsplit : Terms.split [⟨1, .single ⟨0, 0⟩ 1⟩, .constant 1, .constant (-1)] =
      (.ok ([⟨1, .single ⟨0, 0⟩ 1⟩], []) : Except (Error ℝ) (Terms ℝ × Terms ℝ)) := by
    have h1 : ((.empty : Sparse Variable ℝ) == .empty) = true := rfl
    have h2 : ((.single ⟨0, 0⟩ 1 : Sparse Variable ℝ) == .empty) = false := rfl
    simp [Terms.split_eq, Terms.combine, Terms.merge, Term.constant, h1, h2, Terms.positivePart,
      Terms.negativePart]
  have hs : vanishingBound.support.isEmpty = false := rfl
  have hz : (List.all [(Term.constant 1 : Term ℝ)] fun t => t.coefficient == 0) = false := by
    simp [Term.constant]
  simp only [normalize, hl, hr, hd, hs, hz, hsplit, Option.getD_some]
  rfl

/-- Nothing is left to bound by, so it is refused; and it holds nowhere. -/
theorem normalize_error_decided_vanishing :
    vanishingBound.normalize false =
        .error (.invalidConstraint (.relation .boundedByZero vanishingBound)) ∧
      vanishingBound.Decided := by
  have hright : ∃ t ∈ [(Term.constant 1 : Term ℝ)], t.coefficient ≠ 0 := by
    simp [Term.constant]
  have hgeometric : vanishingBound.IsGeometric := by
    simp [IsGeometric, vanishingBound, Expr.kind, Expr.terms?, Kind.ofTerms, Terms.isPositive,
      Term.isPositive, Term.constant, Kind.isPosynomial, Kind.isMonomial, Kind.rank]
  have hsupport : vanishingBound.support = [⟨0, 0⟩] := rfl
  exact ⟨normalize_vanishingBound, (normalize_error_decided vanishingBound _ _ rfl rfl hright
    (by simp [hsupport])).2.1 hgeometric _ normalize_vanishingBound⟩

end Relation

end LogConvex
