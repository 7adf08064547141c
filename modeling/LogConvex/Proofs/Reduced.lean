import Mathlib.Data.List.Pairwise
import LogConvex.Proofs.Expr

/- Terms without zero exponents. A family of weights that stores no zero is determined by its
   weights (`Sparse.Reduced.ext`), so two terms with the same function of the variables store
   the same exponents. Whatever is built by the constructors and operators of the library is
   reduced (`Expr.Built.reduced`): exponents are added one at a time and vanish when they
   cancel, and a power that is not zero makes none of them zero. -/
namespace LogConvex

namespace Sparse

variable {κ : Type} [Key κ]

/-- Families that store the same at every key are equal. -/
theorem ext_get? {R : Type} {m n : Sparse κ R} (h : ∀ k, m.get? k = n.get? k) : m = n := by
  have hmem : ∀ e, e ∈ m.entries ↔ e ∈ n.entries := by
    intro e
    constructor
    · intro he
      exact mem_of_get? ((h e.1).symm.trans (get?_of_mem he))
    · intro he
      exact mem_of_get? ((h e.1).trans (get?_of_mem he))
  have hantisymm : Std.Antisymm fun a b : κ × R => a.1 < b.1 :=
    ⟨fun a b hab hba => absurd (Key.trans hab hba) (Key.irrefl a.1)⟩
  have hirrefl : Std.Irrefl fun a b : κ × R => a.1 < b.1 := ⟨fun a => Key.irrefl a.1⟩
  exact ext_entries (m.sorted.eq_of_mem_iff n.sorted hmem)

/-! ## Weights -/

/-- The observer of one key. -/
theorem weight_eq_dot_single (m : Sparse κ ℝ) (k : κ) :
    m.weight k = m.dot fun j => if j = k then 1 else 0 :=
  m.weight_eq_dot (if_pos rfl) fun _ hj => if_neg hj

/-- No weight that is stored is zero. -/
def Reduced (m : Sparse κ ℝ) : Prop := ∀ e ∈ m.entries, e.2 ≠ 0

theorem reduced_empty : (empty : Sparse κ ℝ).Reduced := by
  intro e he
  cases he

theorem reduced_single {w : ℝ} (hw : w ≠ 0) (k : κ) : (single k w).Reduced :=
  List.forall_mem_singleton.mpr hw

theorem Reduced.get?_eq {m : Sparse κ ℝ} (hm : m.Reduced) (k : κ) :
    m.get? k = if m.weight k = 0 then none else some (m.weight k) := by
  unfold weight
  cases hk : m.get? k with
  | none => simp
  | some w =>
    have hw : w ≠ 0 := hm (k, w) (mem_of_get? hk)
    simp [hw]

/-- Reduced families with the same weights are equal. -/
theorem Reduced.ext {m n : Sparse κ ℝ} (hm : m.Reduced) (hn : n.Reduced)
    (h : ∀ k, m.weight k = n.weight k) : m = n := by
  apply ext_get?
  intro k
  rw [hm.get?_eq, hn.get?_eq, h k]

/-- Equality of reduced families is equality of their weights. -/
theorem Reduced.eq_iff {m n : Sparse κ ℝ} (hm : m.Reduced) (hn : n.Reduced) :
    m = n ↔ ∀ k, m.weight k = n.weight k :=
  ⟨fun h k => by rw [h], hm.ext hn⟩

theorem Reduced.addReduced {m : Sparse κ ℝ} (hm : m.Reduced) (k : κ) (w : ℝ) :
    (m.addReduced k w).Reduced := by
  intro e he
  have hget : (m.addReduced k w).get? e.1 = some e.2 := get?_of_mem he
  rw [Sparse.addReduced, get?_alter] at hget
  split at hget
  · -- what is stored at the key has passed the test for zero
    by_cases hsum : (m.get? k).getD 0 + w = 0
    · simp [hsum] at hget
    · have hw : (m.get? k).getD 0 + w = e.2 := by simpa [hsum] using hget
      rwa [← hw]
  · exact hm e (mem_of_get? hget)

theorem Reduced.map_mul {m : Sparse κ ℝ} (hm : m.Reduced) {p : ℝ} (hp : p ≠ 0) :
    (m.map (· * p)).Reduced := by
  intro e he
  obtain ⟨d, hd, rfl⟩ := List.mem_map.mp he
  exact mul_ne_zero (hm d hd) hp

end Sparse

/-! ## Terms -/

namespace Term

/-- No exponent that is stored is zero. -/
def Reduced (t : Term ℝ) : Prop := t.exponents.Reduced

/-- Multiplying by powers keeps a term reduced, whatever cancels. -/
theorem Reduced.foldl {t : Term ℝ} (ht : t.Reduced) (g : ℝ → ℝ) (ps : List (Variable × ℝ)) :
    (ps.foldl (fun t p => t.addExponent p.1 (g p.2)) t).Reduced := by
  induction ps generalizing t with
  | nil => exact ht
  | cons p ps ih => exact ih (t := t.addExponent p.1 (g p.2)) (Sparse.Reduced.addReduced ht _ _)

theorem reduced_ofList (c : ℝ) (ps : List (Variable × ℝ)) : (ofList c ps).Reduced :=
  Reduced.foldl (t := constant c) Sparse.reduced_empty (fun e => e) ps

theorem Reduced.scale {t : Term ℝ} (ht : t.Reduced) (c : ℝ) : (t.scale c).Reduced := ht

theorem Reduced.mul {t : Term ℝ} (ht : t.Reduced) (u : Term ℝ) : (t.mul u).Reduced :=
  Reduced.foldl (t := t.scale u.coefficient) ht (fun e => e) _

theorem Reduced.div {t : Term ℝ} (ht : t.Reduced) (d : Term ℝ) : (t.div d).Reduced :=
  Reduced.foldl (t := ⟨t.coefficient / d.coefficient, t.exponents⟩) ht (fun e => -e) _

theorem Reduced.pow {t : Term ℝ} (ht : t.Reduced) (p : ℝ) : (t.pow p).Reduced := by
  unfold Term.pow
  split
  · exact reduced_ofList 1 []
  · next hp => exact Sparse.Reduced.map_mul ht (by simpa using hp)

theorem weight_mul (t u : Term ℝ) (v : Variable) :
    (t.mul u).exponents.weight v = t.exponents.weight v + u.exponents.weight v := by
  simp only [Sparse.weight_eq_dot_single, dot_mul]

theorem weight_div (t d : Term ℝ) (v : Variable) :
    (t.div d).exponents.weight v = t.exponents.weight v - d.exponents.weight v := by
  simp only [Sparse.weight_eq_dot_single, dot_div]

theorem weight_pow (t : Term ℝ) (p : ℝ) (v : Variable) :
    (t.pow p).exponents.weight v = t.exponents.weight v * p := by
  simp only [Sparse.weight_eq_dot_single, dot_pow]

/-- Reduced terms are equal if they have the same coefficient and the same weights. -/
theorem Reduced.ext {t u : Term ℝ} (ht : t.Reduced) (hu : u.Reduced)
    (hcoefficient : t.coefficient = u.coefficient)
    (hweight : ∀ v, t.exponents.weight v = u.exponents.weight v) : t = u :=
  Term.ext hcoefficient (Sparse.Reduced.ext ht hu hweight)

/-- A common factor can be cancelled from exponents that are equal. -/
theorem exponents_mul_inj {m t u : Term ℝ} (hm : m.Reduced) (ht : t.Reduced) (hu : u.Reduced) :
    (m.mul t).exponents = (m.mul u).exponents ↔ t.exponents = u.exponents := by
  rw [Sparse.Reduced.eq_iff (hm.mul t) (hm.mul u), Sparse.Reduced.eq_iff ht hu]
  simp only [weight_mul, add_right_inj]

/-- A common divisor can be cancelled from exponents that are equal. -/
theorem exponents_div_inj {t u : Term ℝ} (ht : t.Reduced) (hu : u.Reduced) (d : Term ℝ) :
    (t.div d).exponents = (u.div d).exponents ↔ t.exponents = u.exponents := by
  rw [Sparse.Reduced.eq_iff (ht.div d) (hu.div d), Sparse.Reduced.eq_iff ht hu]
  simp only [weight_div, sub_left_inj]

/-- A common factor can be cancelled from a quotient. -/
theorem mul_div_mul {m t : Term ℝ} (hm : m.Reduced) (hc : m.coefficient ≠ 0) (ht : t.Reduced)
    (d : Term ℝ) : (m.mul t).div (m.mul d) = t.div d := by
  refine ((hm.mul t).div _).ext (ht.div d) ?_ fun v => ?_
  · rw [coefficient_div, coefficient_mul, coefficient_mul, coefficient_div,
      mul_div_mul_left _ _ hc]
  · rw [weight_div, weight_mul, weight_mul, weight_div, add_sub_add_left_eq_sub]

/-- A term that the constructors and the arithmetic of terms lead to. -/
inductive Built {R : Type} [Scalar R] : Term R → Prop where
  | ofList (c : R) (powers : List (Variable × R)) : Built (ofList c powers)
  | mul {t u : Term R} (ht : Built t) (hu : Built u) : Built (t.mul u)
  | div {t d : Term R} (ht : Built t) (hd : Built d) : Built (t.div d)
  | pow {t : Term R} (ht : Built t) (p : R) : Built (t.pow p)
  | scale {t : Term R} (ht : Built t) (c : R) : Built (t.scale c)

theorem Built.reduced {t : Term ℝ} (h : t.Built) : t.Reduced := by
  induction h with
  | ofList c powers => exact reduced_ofList c powers
  | mul _ _ iht _ => exact iht.mul _
  | div _ _ iht _ => exact iht.div _
  | pow _ p ih => exact ih.pow p
  | scale _ c ih => exact ih.scale c

end Term

/-! ## Expressions -/

namespace Expr

/-- An expression that the constructors and the operators lead to. A monomial or a posynomial
has passed its check; a signomial and a tree have none to pass. -/
inductive Built {R : Type} [Scalar R] : Expr R → Prop where
  | monomial {t : Term R} (ht : t.Built) (hpos : t.isPositive = true) : Built (.monomial t)
  | posynomial {ts : Terms R} (hts : ∀ t ∈ ts, t.Built) (hpos : Terms.isPositive ts = true) :
      Built (.posynomial ts)
  | signomial {ts : Terms R} (hts : ∀ t ∈ ts, t.Built) : Built (.signomial ts)
  | powerTree {a : Expr R} (ha : Built a) (p : R) : Built (.power a p)
  | quotientTree {a b : Expr R} (ha : Built a) (hb : Built b) : Built (.quotient a b)
  | sumTree {a b : Expr R} (ha : Built a) (hb : Built b) : Built (.sum a b)
  | productTree {a b : Expr R} (ha : Built a) (hb : Built b) : Built (.product a b)
  | negTree {a : Expr R} (ha : Built a) : Built (.neg a)
  | add {a b : Expr R} (ha : Built a) (hb : Built b) : Built (a.add b)
  | opposite {a : Expr R} (ha : Built a) : Built a.opposite
  | sub {a b : Expr R} (ha : Built a) (hb : Built b) : Built (a.sub b)
  | mul {a b : Expr R} (ha : Built a) (hb : Built b) : Built (a.mul b)
  | div {a b : Expr R} (ha : Built a) (hb : Built b) : Built (a.div b)
  | pow {a : Expr R} (ha : Built a) (p : R) : Built (a.pow p)
  | total {es : List (Expr R)} (hes : ∀ e ∈ es, Built e) : Built (total es)

/-- The terms of the expression are reduced, if it is a sum. -/
def Reduced (e : Expr ℝ) : Prop := ∀ ts, e.terms? = some ts → ∀ t ∈ ts, t.Reduced

namespace Reduced

theorem ofTerms {ts : Terms ℝ} (h : ∀ t ∈ ts, t.Reduced) : (ofTerms ts).Reduced := by
  intro us hus
  rw [terms?_ofTerms, Option.some.injEq] at hus
  rwa [← hus]

variable {a b : Expr ℝ}

theorem of_terms?_eq_none (h : a.terms? = none) : a.Reduced := by
  intro ts hts
  rw [h] at hts
  cases hts

theorem add (ha : a.Reduced) (hb : b.Reduced) : (a.add b).Reduced := by
  rcases add_cases a b with ⟨ts, us, hts, hus, h⟩ | ⟨_, h⟩
  · exact h ▸ ofTerms (List.forall_mem_append.mpr ⟨ha ts hts, hb us hus⟩)
  · exact h ▸ of_terms?_eq_none rfl

theorem opposite (ha : a.Reduced) : a.opposite.Reduced := by
  rcases opposite_cases a with ⟨ts, hts, h⟩ | ⟨_, h⟩
  · exact h ▸ ofTerms (List.forall_mem_map.mpr fun t ht => (ha ts hts t ht).scale (-1))
  · exact h ▸ of_terms?_eq_none rfl

theorem mul (ha : a.Reduced) : (a.mul b).Reduced := by
  rcases mul_cases a b with ⟨ts, us, hts, _, h⟩ | ⟨_, h⟩
  · rw [h]
    apply ofTerms
    intro t ht
    obtain ⟨t', ht', hmem⟩ := List.mem_flatMap.mp ht
    obtain ⟨u, _, rfl⟩ := List.mem_map.mp hmem
    exact (ha ts hts t' ht').mul u
  · exact h ▸ of_terms?_eq_none rfl

theorem div (ha : a.Reduced) : (a.div b).Reduced := by
  rcases div_cases a b with ⟨ts, d, hts, _, _, h⟩ | ⟨_, h⟩
  · exact h ▸ ofTerms (List.forall_mem_map.mpr fun t ht => (ha ts hts t ht).div d)
  · exact h ▸ of_terms?_eq_none rfl

theorem pow (ha : a.Reduced) (p : ℝ) : (a.pow p).Reduced := by
  rcases pow_cases a p with h | ⟨_, h⟩ | ⟨t, ht, h⟩
  · exact h ▸ of_terms?_eq_none rfl
  · rwa [h]
  · exact h ▸ ofTerms (List.forall_mem_singleton.mpr ((ha [t] ht t List.mem_cons_self).pow p))

end Reduced

/-- What is built stores no zero exponent. -/
theorem Built.reduced {e : Expr ℝ} (h : e.Built) : e.Reduced := by
  induction h with
  | monomial ht _ =>
    rintro ts ⟨⟩
    simpa using ht.reduced
  | posynomial hts _ | signomial hts =>
    rintro ts ⟨⟩
    exact fun t ht => (hts t ht).reduced
  | powerTree | quotientTree | sumTree | productTree | negTree => rintro ts ⟨⟩
  | add _ _ iha ihb => exact iha.add ihb
  | opposite _ iha => exact iha.opposite
  | sub _ _ iha ihb => exact iha.add ihb.opposite
  | mul _ _ iha _ => exact iha.mul
  | div _ _ iha _ => exact iha.div
  | pow _ p iha => exact iha.pow p
  | total _ ih =>
    refine List.foldlRecOn (motive := Reduced) _ _ (.ofTerms (by simp)) ?_
    exact fun a ha e he => ha.add (ih e he)

end Expr

end LogConvex
