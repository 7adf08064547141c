import LogConvex.Proofs.Sparse
import LogConvex.Affine

/- What affine forms say. Over the reals evaluation commutes with every operation that builds
   a form, so a form is known by its value wherever it came from. For any scalars, it is known
   which columns occur in a form, and with which coefficient. -/
namespace LogConvex

namespace Affine

/-- The value of a column; a column that is not there counts as zero. -/
def columnValue (y : List ℝ) (c : Nat) : ℝ := y[c]?.getD 0

theorem evaluate_eq (a : Affine ℝ) (y : List ℝ) :
    a.evaluate y = a.coefficients.dot (columnValue y) + a.constant := by
  rw [evaluate, Scalar.total_real]
  rfl

@[simp] theorem evaluate_zero (y : List ℝ) : (zero : Affine ℝ).evaluate y = 0 := by
  simp [evaluate_eq, zero]

@[simp] theorem evaluate_scalar (x : ℝ) (y : List ℝ) : (scalar x).evaluate y = x := by
  simp [evaluate_eq, scalar]

@[simp] theorem evaluate_column (c : Nat) (y : List ℝ) :
    (column c : Affine ℝ).evaluate y = columnValue y c := by
  simp [evaluate_eq, column]

@[simp] theorem evaluate_addTerm (a : Affine ℝ) (c : Nat) (x : ℝ) (y : List ℝ) :
    (a.addTerm c x).evaluate y = a.evaluate y + x * columnValue y c := by
  simp only [evaluate_eq, addTerm, Sparse.dot_add]
  ring

@[simp] theorem evaluate_add (a b : Affine ℝ) (y : List ℝ) :
    (a.add b).evaluate y = a.evaluate y + b.evaluate y := by
  have hdot : (b.coefficients.entries.foldl (fun a e => a.addTerm e.1 e.2) a).coefficients.dot
      (columnValue y) = a.coefficients.dot (columnValue y) + b.coefficients.dot (columnValue y) :=
    view_foldl (fun a : Affine ℝ => a.coefficients.dot (columnValue y)) _ _
      (fun a e => Sparse.dot_add a.coefficients e.1 e.2 _) b.coefficients.entries a
  simp only [evaluate_eq, add, hdot]
  ring

@[simp] theorem evaluate_scale (a : Affine ℝ) (x : ℝ) (y : List ℝ) :
    (a.scale x).evaluate y = a.evaluate y * x := by
  simp only [evaluate_eq, scale, Sparse.dot_map_mul]
  ring

@[simp] theorem evaluate_neg (a : Affine ℝ) (y : List ℝ) :
    a.neg.evaluate y = -a.evaluate y := by
  rw [neg, evaluate_scale, mul_neg_one]

/-! ## Columns -/

section Columns

variable {R : Type} [Scalar R]

/-- The columns that occur, also those whose coefficient became zero. -/
def columns (a : Affine R) : List Nat := a.coefficients.keys

omit [Scalar R] in
theorem get?_eq_none_iff {a : Affine R} {c : Nat} :
    a.coefficients.get? c = none ↔ c ∉ a.columns :=
  Sparse.get?_eq_none_iff

omit [Scalar R] in
@[simp] theorem columns_scalar (x : R) : (scalar x).columns = [] := rfl

@[simp] theorem columns_column (c : Nat) : (column c : Affine R).columns = [c] := rfl

@[simp] theorem columns_neg (a : Affine R) : a.neg.columns = a.columns := by
  simp [neg, scale, columns, Sparse.keys, Sparse.map, Function.comp_def]

theorem mem_columns_addTerm {a : Affine R} {c d : Nat} {x : R} (h : c ∈ (a.addTerm d x).columns) :
    c = d ∨ c ∈ a.columns :=
  Sparse.mem_keys_alter h

theorem mem_columns_add {a b : Affine R} {c : Nat} (h : c ∈ (a.add b).columns) :
    c ∈ a.columns ∨ c ∈ b.columns := by
  have hc := or_of_foldl (S := fun a : Affine R => c ∈ a.columns) (T := fun e : Nat × R => e.1 = c)
    (fun a e hc => (mem_columns_addTerm hc).symm.imp_right Eq.symm) h
  refine hc.imp_right ?_
  rintro ⟨e, he, rfl⟩
  exact List.mem_map_of_mem he

/-- The coefficients of both sides are added up, from zero where there is none yet. -/
theorem get?_add (a b : Affine R) (c : Nat) : (a.add b).coefficients.get? c =
    (b.coefficients.get? c).elim (a.coefficients.get? c) fun w =>
      some ((a.coefficients.get? c).getD 0 + w) := by
  obtain ⟨⟨es, hs⟩, k⟩ := b
  show (es.foldl (fun a e => a.addTerm e.1 e.2) a).coefficients.get? c =
    (Sparse.get? ⟨es, hs⟩ c).elim (a.coefficients.get? c) fun w =>
      some ((a.coefficients.get? c).getD 0 + w)
  induction es generalizing a with
  | nil => rfl
  | cons e es ih =>
    obtain ⟨hlt, hes⟩ := List.pairwise_cons.mp hs
    have hstep : (a.addTerm e.1 e.2).coefficients.get? c =
        if c = e.1 then some ((a.coefficients.get? e.1).getD 0 + e.2)
        else a.coefficients.get? c := by
      rw [addTerm, Sparse.add, Sparse.get?_alter]
      congr
    rw [List.foldl_cons, ih _ hes, hstep, Sparse.get?_cons hs]
    by_cases hc : c = e.1
    · -- the keys that follow are larger
      have hnone : Sparse.get? ⟨es, hes⟩ c = none := by
        rw [Sparse.get?_eq_none_iff]
        intro hmem
        obtain ⟨d, hd, hdc⟩ := List.mem_map.mp hmem
        have := hlt d hd
        omega
      rw [hnone, if_pos hc, if_pos hc.symm, hc]
      rfl
    · rw [if_neg hc, if_neg (Ne.symm hc)]

end Columns

end Affine

end LogConvex
