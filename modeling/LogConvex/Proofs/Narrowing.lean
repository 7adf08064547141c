import LogConvex.Proofs.Expr

/- Tags and kinds. The tag of an expression is how it was built; its kind is the narrowest that
   its terms allow. An expression is narrow if the two agree, and then the checked narrowings
   succeed on it exactly where the tag says so. Every operator passes the terms of its result to
   `ofTerms`, which chooses the narrow tag (`narrow_ofTerms`), or it builds a tree, which has no
   other kind than its tag. There is one exception: the power one of a sum that is not a single
   term hands the operand back as it stands, so a wide tag stays (`narrow_pow_iff`). -/
namespace LogConvex

namespace Expr

variable {R : Type}

/-- The kind that the expression is tagged with. -/
def tag : Expr R → Kind
  | monomial _ => .monomial
  | posynomial _ => .posynomial
  | signomial _ => .signomial
  | power _ _ | quotient _ _ | sum _ _ | product _ _ | neg _ => .nonGp

variable [Scalar R] {a b e : Expr R}

/-! ## Kinds -/

theorem kind_eq_monomial_iff :
    e.kind = .monomial ↔ ∃ t, e.terms? = some [t] ∧ t.isPositive = true := by
  rw [← isMonomial_kind_iff]
  cases e.kind <;> simp [Kind.isMonomial, Kind.rank]

theorem kind_eq_posynomial_iff : e.kind = .posynomial ↔
    ∃ ts, e.terms? = some ts ∧ Terms.isPositive ts = true ∧ ts.length ≠ 1 := by
  have hposynomial : e.kind = .posynomial ↔
      e.kind.isPosynomial = true ∧ ¬ e.kind.isMonomial = true := by
    cases e.kind <;> simp [Kind.isPosynomial, Kind.isMonomial, Kind.rank]
  rw [hposynomial, isPosynomial_kind_iff, isMonomial_kind_iff]
  constructor
  · rintro ⟨⟨ts, hts, hpos⟩, hnot⟩
    refine ⟨ts, hts, hpos, fun hlength => hnot ?_⟩
    obtain ⟨t, rfl⟩ := List.length_eq_one_iff.mp hlength
    exact ⟨t, hts, by simpa [Terms.isPositive] using hpos⟩
  · rintro ⟨ts, hts, hpos, hlength⟩
    refine ⟨⟨ts, hts, hpos⟩, ?_⟩
    rintro ⟨t, ht, _⟩
    rw [hts, Option.some.injEq] at ht
    exact hlength (by rw [ht, List.length_singleton])

theorem kind_eq_signomial_iff :
    e.kind = .signomial ↔ ∃ ts, e.terms? = some ts ∧ Terms.isPositive ts = false := by
  have hsignomial : e.kind = .signomial ↔
      e.kind ≠ .nonGp ∧ ¬ e.kind.isPosynomial = true := by
    cases e.kind <;> simp [Kind.isPosynomial, Kind.rank]
  rw [hsignomial, isPosynomial_kind_iff]
  unfold kind
  cases e.terms? with
  | none => simp
  | some ts =>
    have hsum : Kind.ofTerms ts ≠ .nonGp := by
      unfold Kind.ofTerms
      split
      · split <;> simp
      · simp
    simp [hsum]

/-- Narrowing to a monomial succeeds exactly on monomials. -/
theorem isSome_asMonomial? (e : Expr R) : e.asMonomial?.isSome = e.kind.isMonomial := by
  rw [Bool.eq_iff_iff, isMonomial_kind_iff]
  unfold asMonomial?
  split
  · next t ht =>
    cases hpos : t.isPositive <;> simp [ht, hpos]
  · next hnone =>
    simp only [Option.isSome_none, Bool.false_eq_true, false_iff]
    rintro ⟨t, ht, _⟩
    exact hnone t ht

/-- Narrowing to a posynomial succeeds exactly on posynomials. -/
theorem isSome_asPosynomial? (e : Expr R) : e.asPosynomial?.isSome = e.kind.isPosynomial := by
  rw [Bool.eq_iff_iff, isPosynomial_kind_iff]
  unfold asPosynomial?
  split
  · next ts hts => cases hpos : Terms.isPositive ts <;> simp [hts, hpos]
  · next hnone => simp [hnone]

/-! ## Narrow expressions -/

/-- The expression carries the narrowest tag that its terms allow. -/
structure Narrow (e : Expr R) : Prop where
  tag_eq : e.tag = e.kind
  /-- A monomial is one positive term. -/
  monomial : e.tag = .monomial ↔ ∃ t, e.terms? = some [t] ∧ t.isPositive = true
  /-- A posynomial is a sum of positive terms, and not of exactly one. -/
  posynomial : e.tag = .posynomial ↔
    ∃ ts, e.terms? = some ts ∧ Terms.isPositive ts = true ∧ ts.length ≠ 1
  /-- Any other sum is a signomial. -/
  signomial : e.tag = .signomial ↔ ∃ ts, e.terms? = some ts ∧ Terms.isPositive ts = false
  asMonomial : e.asMonomial?.isSome = e.kind.isMonomial
  asPosynomial : e.asPosynomial?.isSome = e.kind.isPosynomial

theorem narrow_iff : e.Narrow ↔ e.tag = e.kind := by
  constructor
  · exact Narrow.tag_eq
  · intro h
    exact ⟨h, by rw [h, kind_eq_monomial_iff], by rw [h, kind_eq_posynomial_iff],
      by rw [h, kind_eq_signomial_iff], isSome_asMonomial? e, isSome_asPosynomial? e⟩

theorem narrow_ofTerms (ts : Terms R) : (ofTerms ts).Narrow := by
  have hkind : (ofTerms ts).kind = Kind.ofTerms ts := by rw [kind, terms?_ofTerms]
  rw [narrow_iff, hkind]
  unfold ofTerms Kind.ofTerms
  split
  · -- no term, one term, several terms
    rcases ts with _ | ⟨t, _ | ⟨u, us⟩⟩ <;> rfl
  · rfl

/-- What is not a sum has one tag only. -/
theorem narrow_of_terms?_eq_none (h : e.terms? = none) : e.Narrow := by
  rw [narrow_iff, kind, h]
  cases e with
  | monomial _ | posynomial _ | signomial _ => cases h
  | power _ _ | quotient _ _ | sum _ _ | product _ _ | neg _ => rfl

theorem narrow_add (a b : Expr R) : (a.add b).Narrow := by
  rcases add_cases a b with ⟨ts, us, _, _, h⟩ | ⟨_, h⟩
  · exact h ▸ narrow_ofTerms (ts ++ us)
  · exact h ▸ narrow_of_terms?_eq_none rfl

theorem narrow_opposite (a : Expr R) : a.opposite.Narrow := by
  rcases opposite_cases a with ⟨ts, _, h⟩ | ⟨_, h⟩
  · exact h ▸ narrow_ofTerms (Terms.neg ts)
  · exact h ▸ narrow_of_terms?_eq_none rfl

theorem narrow_mul (a b : Expr R) : (a.mul b).Narrow := by
  rcases mul_cases a b with ⟨ts, us, _, _, h⟩ | ⟨_, h⟩
  · exact h ▸ narrow_ofTerms (Terms.mul ts us)
  · exact h ▸ narrow_of_terms?_eq_none rfl

theorem narrow_div (a b : Expr R) : (a.div b).Narrow := by
  rcases div_cases a b with ⟨ts, d, _, _, _, h⟩ | ⟨_, h⟩
  · exact h ▸ narrow_ofTerms (Terms.divTerm ts d)
  · exact h ▸ narrow_of_terms?_eq_none rfl

theorem narrow_total (es : List (Expr R)) : (total es).Narrow :=
  List.foldlRecOn (motive := Narrow) es add (narrow_ofTerms []) fun a _ e _ => narrow_add a e

/-- A power of a single term is narrow, if the power one is recognized as a whole one. -/
theorem narrow_pow_single {t : Term R} (ht : a.terms? = some [t]) {p : R}
    (hp : (p == 1) = true → Scalar.isWhole p = true) : (a.pow p).Narrow := by
  have htree : (power a p).Narrow := narrow_of_terms?_eq_none rfl
  rw [pow, ht]
  dsimp only
  split
  · exact htree
  · split
    · exact narrow_ofTerms _
    · next hnot =>
      rw [Bool.or_eq_true, not_or] at hnot
      split
      · next hone => exact absurd (hp hone) hnot.2
      · exact htree

/-- Of any other sum only the power one is a sum, and it is the operand itself. -/
theorem pow_of_length_ne_one {ts : Terms R} (hts : a.terms? = some ts) (hlength : ts.length ≠ 1)
    (p : R) : a.pow p = if p == 1 then a else power a p := by
  unfold pow
  split
  · next t ht =>
    rw [hts, Option.some.injEq] at ht
    exact absurd (by rw [ht, List.length_singleton]) hlength
  · rfl
  · next hnone =>
    rw [hts] at hnone
    cases hnone

theorem pow_one_of_length_ne_one {p : R} (hp : (p == 1) = true)
    (h : ∃ ts, a.terms? = some ts ∧ ts.length ≠ 1) : a.pow p = a := by
  obtain ⟨ts, hts, hlength⟩ := h
  rw [pow_of_length_ne_one hts hlength, if_pos hp]

/-- A power is narrow, unless it is the power one of an operand that is not narrow and not a
single term. -/
theorem narrow_pow_iff {p : R} (hp : (p == 1) = true → Scalar.isWhole p = true) :
    (a.pow p).Narrow ↔ ¬ ((p == 1) = true ∧ a.tag ≠ a.kind ∧
      ∃ ts, a.terms? = some ts ∧ ts.length ≠ 1) := by
  cases hterms : a.terms? with
  | none =>
    have htree : a.pow p = power a p := by simp [pow, hterms]
    rw [htree]
    simpa using narrow_of_terms?_eq_none (e := power a p) rfl
  | some ts =>
    by_cases hlength : ts.length = 1
    · obtain ⟨t, rfl⟩ := List.length_eq_one_iff.mp hlength
      simpa using narrow_pow_single hterms hp
    · rw [pow_of_length_ne_one hterms hlength]
      cases hone : (p == 1) with
      | false => simpa using narrow_of_terms?_eq_none (e := power a p) rfl
      | true => simp [narrow_iff, hlength]

/-- Operators return the narrowest kind, whatever tag their operands carry. The only exception
is the power one of a sum that has no term or several: it is the operand itself, so it is as
narrow as the operand was. -/
theorem operators_narrow (a b : Expr R) (es : List (Expr R)) (p : R) :
    (a.add b).Narrow ∧ (a.sub b).Narrow ∧ a.opposite.Narrow ∧ (a.mul b).Narrow ∧
      (a.div b).Narrow ∧ (total es).Narrow ∧
      (((p == 1) = true → Scalar.isWhole p = true) →
        ((a.pow p).Narrow ↔ ¬ ((p == 1) = true ∧ a.tag ≠ a.kind ∧
          ∃ ts, a.terms? = some ts ∧ ts.length ≠ 1))) ∧
      ((p == 1) = true → (∃ ts, a.terms? = some ts ∧ ts.length ≠ 1) → a.pow p = a) :=
  ⟨narrow_add a b, narrow_add a b.opposite, narrow_opposite a, narrow_mul a b, narrow_div a b,
    narrow_total es, narrow_pow_iff, pow_one_of_length_ne_one⟩

/-- A variable under the tag of a signomial. -/
noncomputable def wideVariable : Expr ℝ := .signomial [⟨1, .single ⟨0, 0⟩ 1⟩]

/-- The power one of a single term gets the narrow tag. -/
theorem operators_narrow_wideVariable :
    wideVariable.tag = .signomial ∧ (wideVariable.pow 1).tag = .monomial := by
  have hone : Scalar.isWhole (1 : ℝ) = true := Scalar.isWhole_real.mpr ⟨1, by norm_num⟩
  obtain ⟨_, _, _, _, _, _, hpow, _⟩ := operators_narrow wideVariable wideVariable [] 1
  have hnarrow : (wideVariable.pow 1).Narrow := by
    rw [hpow fun _ => hone]
    rintro ⟨_, _, ts, hts, hlength⟩
    obtain rfl := Option.some.inj hts
    exact hlength rfl
  refine ⟨rfl, hnarrow.monomial.mpr ⟨Term.pow ⟨1, .single ⟨0, 0⟩ 1⟩ 1, ?_, ?_⟩⟩
  · have hterms : wideVariable.terms? = some [⟨1, .single ⟨0, 0⟩ 1⟩] := rfl
    simp [pow, hterms]
  · simp [Term.pow, Term.isPositive]

/-- The sum of two variables under the tag of a signomial, in doubles. -/
def wideSum : Expr Float := .signomial [.ofVariable ⟨0, 0⟩, .ofVariable ⟨0, 1⟩]

/-- Its power one keeps the wide tag, although all terms are positive. -/
theorem pow_one_wideSum : (wideSum.pow 1).tag = .signomial ∧ (wideSum.pow 1).kind = .posynomial ∧
    ¬ (wideSum.pow 1).Narrow := by
  have hpow : wideSum.pow 1 = wideSum := by
    have hterms : wideSum.terms? = some [.ofVariable ⟨0, 0⟩, .ofVariable ⟨0, 1⟩] := rfl
    exact pow_one_of_length_ne_one (by decide +kernel) ⟨_, hterms, by simp⟩
  have hkind : wideSum.kind = .posynomial := by decide +kernel
  rw [hpow]
  refine ⟨rfl, hkind, fun hnarrow => ?_⟩
  have htag := hnarrow.tag_eq
  rw [hkind] at htag
  cases htag

end Expr

end LogConvex
