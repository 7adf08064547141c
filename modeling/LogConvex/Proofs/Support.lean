import Mathlib.Data.Option.NAry
import LogConvex.Proofs.Readback

/- The variables of an expression are those that evaluation reads. Points that have the same
   numbers for them give the same value (`Expr.evaluate_congr`). Evaluation takes a number for a
   variable that a point does not have; to see when it does, expressions are also evaluated by a
   reader who stops there (`Expr.evaluate?`). He stops exactly where a variable of the expression
   lies outside the point, however deep in the tree it occurs (`Expr.evaluate?_eq_some_iff`).

   Operators bring in no variables. Sums and opposites have all of those of their operands;
   products, quotients and powers may lose some, which cancel. -/
namespace LogConvex

/-! ## Lists of variables -/

namespace Variable

theorem pairwise_insert {v : Variable} {vs : List Variable} (h : vs.Pairwise (· < ·)) :
    (insert v vs).Pairwise (· < ·) := by
  induction vs with
  | nil => exact List.pairwise_singleton _ _
  | cons u us ih =>
    obtain ⟨hu, hus⟩ := List.pairwise_cons.mp h
    rw [insert]
    split
    · next hvu =>
      exact List.pairwise_cons.mpr ⟨List.forall_mem_cons.mpr
        ⟨hvu, fun w hw => Key.trans hvu (hu w hw)⟩, h⟩
    · split
      · next huv =>
        refine List.pairwise_cons.mpr ⟨fun w hw => ?_, ih hus⟩
        rcases mem_insert.mp hw with rfl | hw
        · exact huv
        · exact hu w hw
      · exact h

/-- Sorted variables go up, so none is listed twice. -/
theorem pairwise_sorted (vs : List Variable) : (sorted vs).Pairwise (· < ·) := by
  induction vs with
  | nil => exact .nil
  | cons v vs ih => exact pairwise_insert ih

end Variable

variable {R : Type} [Scalar R]

/-! ## Reading without a number for what is absent -/

omit [Scalar R] in
/-- The points have a number for the variable, and it is the same. -/
def Point.AgreeAt (x y : Point R) (v : Variable) : Prop :=
  ∃ a, x[v.index]? = some a ∧ y[v.index]? = some a

theorem Point.AgreeAt.value_eq {x y : Point R} {v : Variable} (h : x.AgreeAt y v) :
    x.value v = y.value v := by
  obtain ⟨a, hx, hy⟩ := h
  rw [Point.value, hx, Point.value, hy]

/-- The value of a term, if the point has every variable that is read for it. -/
def Term.evaluate? (t : Term R) (x : Point R) : Option R :=
  t.exponents.entries.foldlM
    (fun acc p => x[p.1.index]?.map fun a => acc * Scalar.pow a p.2) t.coefficient

/-- The value of a sum, if each of its terms has one. -/
def Terms.evaluate? (ts : Terms R) (x : Point R) : Option R :=
  List.foldlM (fun acc t => (Term.evaluate? t x).map fun a => acc + a) (-0) ts

/-- The value of an expression, if the point has every variable that is read for it. -/
def Expr.evaluate? (x : Point R) : Expr R → Option R
  | monomial t => t.evaluate? x
  | posynomial ts => Terms.evaluate? ts x
  | signomial ts => Terms.evaluate? ts x
  | power a p => (a.evaluate? x).map fun b => Scalar.pow b p
  | quotient a b => Option.map₂ (· / ·) (a.evaluate? x) (b.evaluate? x)
  | sum a b => Option.map₂ (· + ·) (a.evaluate? x) (b.evaluate? x)
  | product a b => Option.map₂ (· * ·) (a.evaluate? x) (b.evaluate? x)
  | neg a => (a.evaluate? x).map fun b => -b

/-! A reading has a value under a condition, and then it is a certain one. Operations on values
and folds keep that. -/

section Readings

omit [Scalar R]

variable {u w : Option R} {P Q : Prop} {a b : R}

theorem map_eq_some_iff_of (hu : ∀ d, u = some d ↔ P ∧ a = d) (f : R → R) (c : R) :
    u.map f = some c ↔ P ∧ f a = c := by
  rw [Option.map_eq_some_iff]
  simp only [hu]
  constructor
  · rintro ⟨_, ⟨hP, rfl⟩, hc⟩
    exact ⟨hP, hc⟩
  · rintro ⟨hP, hc⟩
    exact ⟨a, ⟨hP, rfl⟩, hc⟩

theorem map₂_eq_some_iff_of (hu : ∀ d, u = some d ↔ P ∧ a = d) (hw : ∀ d, w = some d ↔ Q ∧ b = d)
    (f : R → R → R) (c : R) : Option.map₂ f u w = some c ↔ (P ∧ Q) ∧ f a b = c := by
  rw [Option.map₂_eq_some_iff]
  simp only [Option.mem_def, hu, hw]
  constructor
  · rintro ⟨_, _, ⟨hP, rfl⟩, ⟨hQ, rfl⟩, hc⟩
    exact ⟨⟨hP, hQ⟩, hc⟩
  · rintro ⟨⟨hP, hQ⟩, hc⟩
    exact ⟨a, b, ⟨hP, rfl⟩, ⟨hQ, rfl⟩, hc⟩

/-- A fold that may stop goes through to the end if no element stops it. -/
theorem foldlM_eq_some_iff {α β : Type} {f : β → α → β} {g : β → α → Option β} {ok : α → Prop}
    (h : ∀ b a c, g b a = some c ↔ ok a ∧ f b a = c) (as : List α) (b c : β) :
    as.foldlM g b = some c ↔ (∀ a ∈ as, ok a) ∧ as.foldl f b = c := by
  induction as generalizing b with
  | nil => simp
  | cons a as ih =>
    rw [List.foldlM_cons, List.foldl_cons, List.forall_mem_cons]
    show (g b a).bind _ = some c ↔ _
    rw [Option.bind_eq_some_iff]
    simp only [h, ih]
    constructor
    · rintro ⟨_, ⟨ha, rfl⟩, has, hc⟩
      exact ⟨⟨ha, has⟩, hc⟩
    · rintro ⟨⟨ha, has⟩, hc⟩
      exact ⟨_, ⟨ha, rfl⟩, has, hc⟩

end Readings

theorem Term.evaluate?_eq_some_iff {t : Term R} {x : Point R} {b : R} :
    t.evaluate? x = some b ↔ x.Covers t.exponents.keys ∧ t.evaluate x = b := by
  have hread : ∀ (acc : R) (p : Variable × R) (c : R),
      (x[p.1.index]?.map fun a => acc * Scalar.pow a p.2) = some c ↔
        p.1.index < x.length ∧ acc * Scalar.pow (x.value p.1) p.2 = c := by
    intro acc p
    refine map_eq_some_iff_of (fun d => ?_) _
    rw [List.getElem?_eq_some_iff]
    constructor
    · rintro ⟨hp, rfl⟩
      exact ⟨hp, by simp [Point.value, hp]⟩
    · rintro ⟨hp, rfl⟩
      exact ⟨hp, by simp [Point.value, hp]⟩
  have hcovers : x.Covers t.exponents.keys ↔
      ∀ p ∈ t.exponents.entries, p.1.index < x.length := by
    simp only [Point.Covers, Sparse.keys, List.forall_mem_map]
  rw [evaluate?, foldlM_eq_some_iff hread, hcovers, evaluate]

theorem Terms.evaluate?_eq_some_iff {ts : Terms R} {x : Point R} {b : R} :
    Terms.evaluate? ts x = some b ↔ x.Covers (occurrences ts) ∧ Terms.evaluate ts x = b := by
  have hread : ∀ (acc : R) (t : Term R) (c : R),
      ((t.evaluate? x).map fun a => acc + a) = some c ↔
        x.Covers t.exponents.keys ∧ acc + t.evaluate x = c :=
    fun acc t => map_eq_some_iff_of (fun _ => Term.evaluate?_eq_some_iff) _
  rw [evaluate?, foldlM_eq_some_iff hread, covers_occurrences, Terms.evaluate, Scalar.total,
    List.foldl_map]

/-- An expression can be read exactly at the points that have all of its variables. -/
theorem Expr.evaluate?_eq_some_iff {e : Expr R} {x : Point R} {b : R} :
    e.evaluate? x = some b ↔ x.Covers e.occurrences ∧ e.evaluate x = b := by
  have hcovers : ∀ vs ws : List Variable, x.Covers (vs ++ ws) ↔ x.Covers vs ∧ x.Covers ws :=
    fun _ _ => List.forall_mem_append
  induction e generalizing b with
  | monomial t => exact Term.evaluate?_eq_some_iff
  | posynomial ts | signomial ts => exact Terms.evaluate?_eq_some_iff
  | power a p ih | neg a ih =>
    rw [evaluate?, evaluate, occurrences]
    exact map_eq_some_iff_of (fun _ => ih) _ b
  | quotient a c iha ihc | sum a c iha ihc | product a c iha ihc =>
    rw [evaluate?, evaluate, occurrences, hcovers]
    exact map₂_eq_some_iff_of (fun _ => iha) (fun _ => ihc) _ b

/-! ## Operators -/

namespace Expr

variable {v : Variable}

/-- What the operators make of their operands. -/
inductive Makes : List (Expr R) → Expr R → Prop where
  | add (a b : Expr R) : Makes [a, b] (a.add b)
  | sub (a b : Expr R) : Makes [a, b] (a.sub b)
  | opposite (a : Expr R) : Makes [a] a.opposite
  | mul (a b : Expr R) : Makes [a, b] (a.mul b)
  | div (a b : Expr R) : Makes [a, b] (a.div b)
  | pow (a : Expr R) (p : R) : Makes [a] (a.pow p)
  | total (es : List (Expr R)) : Makes es (total es)

/-- Operators bring in no variables. -/
theorem Makes.mem_occurrences {operands : List (Expr R)} {e : Expr R} (h : Makes operands e)
    (hv : v ∈ e.occurrences) : ∃ a ∈ operands, v ∈ a.occurrences := by
  have of_or : ∀ {a b : Expr R}, v ∈ a.occurrences ∨ v ∈ b.occurrences →
      ∃ c ∈ [a, b], v ∈ c.occurrences := by
    intro a b hab
    simpa using hab
  cases h with
  | add a b => exact of_or (List.mem_append.mp (occurrences_add a b ▸ hv))
  | sub a b => exact of_or (List.mem_append.mp (occurrences_sub a b ▸ hv))
  | opposite a => exact ⟨a, List.mem_singleton_self a, occurrences_opposite a ▸ hv⟩
  | mul a b => exact of_or (mem_occurrences_mul hv)
  | div a b => exact of_or (mem_occurrences_div hv)
  | pow a p => exact ⟨a, List.mem_singleton_self a, mem_occurrences_pow hv⟩
  | total => exact mem_occurrences_total hv

/-- The variables of an expression are all that its value depends on: points that agree there give
the same value, and a point that is long enough for them is never asked for a number that it does
not have, while any other point is. They are listed in increasing order. What an operator makes has
no variables but those of its operands; a variable as an operand has itself only, and a number has
none. -/
theorem support_complete (e : Expr R) :
    (∀ x y : Point R, (∀ v ∈ e.support, x.AgreeAt y v) → e.evaluate x = e.evaluate y) ∧
      (∀ (x : Point R) (b : R), e.evaluate? x = some b ↔
        (∀ v ∈ e.support, v.index + 1 ≤ x.length) ∧ e.evaluate x = b) ∧
      e.support.Pairwise (· < ·) ∧
      (∀ operands, Makes operands e → ∀ v ∈ e.support, ∃ a ∈ operands, v ∈ a.support) ∧
      (∀ v, ∀ u ∈ (ofVariable v : Expr R).support, u = v) ∧
      ∀ c : R, (constant c).support = [] := by
  simp only [mem_support]
  refine ⟨fun x y h => evaluate_congr fun v hv => (h v hv).value_eq, fun x b => ?_,
    Variable.pairwise_sorted _, fun operands h v hv => h.mem_occurrences hv, fun v u hu => ?_,
    fun c => ?_⟩
  · exact evaluate?_eq_some_iff
  · simpa using Term.mem_keys_ofList hu
  · rw [support, constant, occurrences_ofTerms]
    rfl

/-- The quotient of `x y / y` by `x - 1`, as the operators make it. -/
noncomputable def cancelledRatio : Expr ℝ :=
  (((ofVariable ⟨0, 0⟩).mul (ofVariable ⟨0, 1⟩)).div (ofVariable ⟨0, 1⟩)).div
    ((ofVariable ⟨0, 0⟩).sub (constant 1))

theorem support_cancelledRatio : cancelledRatio.support = [⟨0, 0⟩] := by
  have hlt : (⟨0, 0⟩ : Variable) < ⟨0, 1⟩ := by decide
  have hnot : ¬ (⟨0, 1⟩ : Variable) < ⟨0, 0⟩ := by decide
  have hself : ¬ (⟨0, 1⟩ : Variable) < ⟨0, 1⟩ := by decide
  have hvar : ∀ v, (ofVariable v : Expr ℝ).terms? = some [⟨1, .single v 1⟩] := by
    intro v
    simp [ofVariable, terms?, Term.ofVariable, Term.ofList, Term.constant, Term.addExponent,
      Sparse.addReduced, Sparse.alter, Sparse.alterEntries, Sparse.consEntry, Sparse.empty,
      Sparse.single]
  have hcancel : (Term.div (.mul ⟨1, .single ⟨0, 0⟩ 1⟩ ⟨1, .single ⟨0, 1⟩ 1⟩)
      ⟨1, .single ⟨0, 1⟩ 1⟩ : Term ℝ).exponents.keys = [⟨0, 0⟩] := by
    simp [Sparse.keys, Term.div, Term.mul, Term.addExponent, Sparse.addReduced, Sparse.alter,
      Sparse.alterEntries, Sparse.consEntry, Sparse.single, hlt, hnot, hself]
  have hratio := terms?_div (terms?_mul (hvar ⟨0, 0⟩) (hvar ⟨0, 1⟩)) (hvar ⟨0, 1⟩) (by simp)
  have hdifference : ((ofVariable ⟨0, 0⟩).sub (constant (1 : ℝ))).terms? = _ :=
    terms?_sub (hvar ⟨0, 0⟩) (terms?_ofTerms _)
  rcases div_cases (((ofVariable ⟨0, 0⟩).mul (ofVariable ⟨0, 1⟩)).div (ofVariable ⟨0, 1⟩))
    ((ofVariable ⟨0, 0⟩).sub (constant (1 : ℝ))) with ⟨_, _, _, hd, _, _⟩ | ⟨_, h⟩
  · -- the divisor has two terms
    simp [hdifference, Terms.neg] at hd
  · rw [support, cancelledRatio, h, occurrences, occurrences_of_terms? hratio,
      occurrences_of_terms? hdifference]
    simp only [Terms.occurrences, Terms.mul, Terms.divTerm, Terms.neg, List.flatMap_cons,
      List.flatMap_nil, List.map_cons, List.map_nil, List.cons_append, List.nil_append, hcancel]
    rfl

/-- The variable that cancels is not read: a point without it is as good as one with it. -/
theorem support_complete_cancelledRatio :
    cancelledRatio.evaluate [3] = cancelledRatio.evaluate [3, 7] ∧
      cancelledRatio.evaluate? [3] = some (cancelledRatio.evaluate [3]) ∧
      cancelledRatio.evaluate? [] ≠ some (cancelledRatio.evaluate []) := by
  obtain ⟨hagree, hread, _⟩ := support_complete cancelledRatio
  rw [support_cancelledRatio] at hagree hread
  refine ⟨hagree _ _ ?_, (hread _ _).mpr ⟨?_, rfl⟩, fun h => ?_⟩
  · exact List.forall_mem_singleton.mpr ⟨3, rfl, rfl⟩
  · simp
  · simpa using ((hread _ _).mp h).1

end Expr

end LogConvex
