import LogConvex.Proofs.Affine
import LogConvex.InteriorPoint.LinearSystem
import LogConvex.Matrix

/- Products of sparse matrices and vectors over the reals. A row of a matrix that was made
   of triplets acts on a vector as the triplets of that row do, whatever else is stored
   where (`dot_row_ofTriplets`); triplets outside the matrix do not count, because a column
   that is not there has the value zero. -/
namespace LogConvex

namespace LinearSystem

open Finset

theorem dot_eq_sum (u v : List ℝ) {n : Nat} (hn : min u.length v.length ≤ n) :
    dot u v = ∑ i ∈ range n, u[i]?.getD 0 * v[i]?.getD 0 := by
  rw [dot, Scalar.total_real]
  induction u generalizing v n with
  | nil => simp
  | cons a u ih =>
    cases v with
    | nil => simp
    | cons b v =>
      cases n with
      | zero => simp at hn
      | succ n =>
        have hle : min u.length v.length ≤ n := by
          simp only [List.length_cons] at hn
          omega
        rw [List.zipWith_cons_cons, List.sum_cons, ih v hle, Finset.sum_range_succ']
        simp [add_comm]

end LinearSystem

namespace Matrix

open Finset LinearSystem

/-! ## Triplets -/

theorem sum_map_filter {α : Type} (p : α → Bool) (w : α → ℝ) (as : List α) :
    ((as.filter p).map w).sum = (as.map fun a => if p a then w a else 0).sum := by
  simp [List.sum_map_ite]

/-- Numbers that are put into columns, times a vector. Those outside the vector do not
count. -/
theorem sum_columns {α : Type} (col : α → Nat) (w : α → ℝ) (y : List ℝ) (as : List α) :
    ∑ c ∈ range y.length, (as.map fun a => if col a = c then w a else 0).sum * y[c]?.getD 0 =
      (as.map fun a => w a * Affine.columnValue y (col a)).sum := by
  induction as with
  | nil => simp
  | cons a as ih =>
    have hterm : ∑ c ∈ range y.length, (if col a = c then w a else 0) * y[c]?.getD 0 =
        w a * Affine.columnValue y (col a) := by
      by_cases h : col a < y.length
      · simp [Affine.columnValue, h]
      · simp [Affine.columnValue, h]
    simp only [List.map_cons, List.sum_cons, add_mul, Finset.sum_add_distrib, ih, hterm]

theorem dot_accumulate (m : Sparse Nat ℝ) (t : Triplet ℝ) (f : Nat → ℝ) :
    (accumulate m t).dot f = m.dot f + t.value * f t.row :=
  Sparse.dot_alter (fun old => by cases old <;> simp) t.row m f

theorem weight_foldl_accumulate (ts : List (Triplet ℝ)) (i : Nat) :
    (ts.foldl accumulate .empty).weight i =
      (ts.map fun t => if t.row = i then t.value else 0).sum := by
  have hf : ∀ j, j ≠ i → (if j = i then (1 : ℝ) else 0) = 0 := fun j hj => if_neg hj
  rw [Sparse.weight_eq_dot _ (f := fun j => if j = i then 1 else 0) (if_pos rfl) hf,
    view_foldl (fun m : Sparse Nat ℝ => m.dot _) _ (fun t => if t.row = i then t.value else 0)]
  · simp
  · intro m t
    simp [dot_accumulate]

/-- A row of a matrix of triplets, times a vector: the triplets of that row. -/
theorem dot_row_ofTriplets (ts : List (Triplet ℝ)) {rows i : Nat} (hi : i < rows) (y : List ℝ) :
    dot ((ofTriplets rows y.length ts).row i) y =
      ((ts.filter fun t => t.row == i).map fun t => t.value * Affine.columnValue y t.col).sum := by
  have hrow : ∀ c ∈ range y.length, ((ofTriplets rows y.length ts).row i)[c]?.getD 0 =
      (ts.map fun t => if t.col = c then if t.row = i then t.value else 0 else 0).sum := by
    intro c hc
    simp only [row, ofTriplets, List.map_map, List.getElem?_map, List.getElem?_range,
      mem_range.mp hc, Option.map_some, Option.getD_some, Function.comp_apply,
      weight_foldl_accumulate, sum_map_filter]
    congr 1
    apply List.map_congr_left
    intro t _
    -- a triplet of this row is inside the matrix
    by_cases h : t.row = i
    · simp [h, hi]
    · simp [h]
  rw [dot_eq_sum _ _ (n := y.length) (by simp), sum_map_filter,
    Finset.sum_congr rfl fun c hc => by rw [hrow c hc], sum_columns]
  congr 1
  apply List.map_congr_left
  intro t _
  by_cases h : t.row = i <;> simp [h]

/-! ## Entries -/

section Entries

variable {R : Type}

/-- The numbers of the triplets at a place, of those inside the matrix, in the order of the list. -/
def placed (rows cols : Nat) (ts : List (Triplet R)) (i j : Nat) : List R :=
  (ts.filter fun t => decide ((t.row < rows ∧ t.col < cols) ∧ t.row = i ∧ t.col = j)).map (·.value)

theorem placed_eq_nil {rows cols i j : Nat} (h : ¬ (i < rows ∧ j < cols)) (ts : List (Triplet R)) :
    placed rows cols ts i j = [] := by
  rw [placed, List.map_eq_nil_iff, List.filter_eq_nil_iff]
  rintro t _ ht
  obtain ⟨hin, rfl, rfl⟩ := of_decide_eq_true ht
  exact h hin

variable [Add R]

/-- What triplets leave at a row depends on those of that row only. -/
theorem get?_foldl_accumulate (ts : List (Triplet R)) (m : Sparse Nat R) (i : Nat) :
    (ts.foldl accumulate m).get? i = (ts.filter fun t => t.row == i).foldl
      (fun old t => some (old.elim t.value (· + t.value))) (m.get? i) := by
  induction ts generalizing m with
  | nil => rfl
  | cons t ts ih =>
    rw [List.foldl_cons, ih, accumulate, Sparse.get?_alter]
    by_cases h : t.row = i
    · rw [if_pos h.symm, List.filter_cons_of_pos (by simp [h]), List.foldl_cons, h]
      cases m.get? i <;> rfl
    · rw [if_neg (Ne.symm h), List.filter_cons_of_neg (by simp [h])]

/-- What is stored at a place: the first number there as it is, and then the others added to it. -/
theorem get?_ofTriplets_eq_foldl (rows cols : Nat) (ts : List (Triplet R)) (i j : Nat) :
    get? (ofTriplets rows cols ts) i j = (placed rows cols ts i j).foldl
      (fun old v => some (old.elim v (· + v))) none := by
  by_cases hj : j < cols
  · have hfilter : (((ts.filter fun t => decide (t.row < rows)).filter fun t => t.col == j).filter
        fun t => t.row == i) =
          ts.filter fun t => decide ((t.row < rows ∧ t.col < cols) ∧ t.row = i ∧ t.col = j) := by
      rw [List.filter_filter, List.filter_filter]
      apply List.filter_congr
      intro t _
      rw [Bool.eq_iff_iff]
      simp only [Bool.and_eq_true, beq_iff_eq, decide_eq_true_eq]
      constructor
      · rintro ⟨⟨hi, hc⟩, hr⟩
        exact ⟨⟨hr, hc ▸ hj⟩, hi, hc⟩
      · rintro ⟨⟨hr, -⟩, hi, hc⟩
        exact ⟨⟨hi, hc⟩, hr⟩
    simp only [get?, ofTriplets, List.getElem?_map, List.getElem?_range hj, Option.map_some,
      Option.bind_some, get?_foldl_accumulate, hfilter, placed, List.foldl_map]
    rfl
  · have hnone : (ofTriplets rows cols ts).columns[j]? = none := by
      simp [ofTriplets, hj]
    rw [placed_eq_nil fun h => hj h.2, get?, hnone]
    rfl

/-- A triplet inside the matrix that is the only one at its place is stored as it is. -/
theorem get?_ofTriplets {ts : List (Triplet R)} {rows cols : Nat} {t : Triplet R}
    (hrow : t.row < rows) (hcol : t.col < cols)
    (h : (ts.filter fun u => u.row == t.row).filter (fun u => u.col == t.col) = [t]) :
    get? (ofTriplets rows cols ts) t.row t.col = some t.value := by
  have hplaced : placed rows cols ts t.row t.col = [t.value] := by
    rw [placed, ← List.map_singleton, ← h, List.filter_filter]
    congr 1
    apply List.filter_congr
    intro u _
    rw [Bool.eq_iff_iff]
    simp only [Bool.and_eq_true, beq_iff_eq, decide_eq_true_eq]
    constructor
    · rintro ⟨-, hr, hc⟩
      exact ⟨hc, hr⟩
    · rintro ⟨hc, hr⟩
      exact ⟨⟨hr ▸ hrow, hc ▸ hcol⟩, hr, hc⟩
  rw [get?_ofTriplets_eq_foldl, hplaced]
  rfl

end Entries

/-! ## Transposition -/

/-- A matrix and its transpose give the same bilinear form. -/
theorem dot_apply_toRows (a : Matrix ℝ) {y z : List ℝ} (hy : y.length = a.columns.length)
    (hz : z.length = a.rows) : dot z (apply a.toRows y) = dot (apply a.toColumns z) y := by
  have hrow : ∀ i ∈ range a.rows, (apply a.toRows y)[i]?.getD 0 =
      ∑ c ∈ range y.length, (a.columns[c]?.map fun m => m.weight i).getD 0 * y[c]?.getD 0 := by
    intro i hi
    have hget : (apply a.toRows y)[i]?.getD 0 = dot (a.row i) y := by
      simp [apply, toRows, mem_range.mp hi]
    rw [hget, dot_eq_sum _ _ (n := y.length) (by simp)]
    simp [row]
  have hcolumn : ∀ c ∈ range y.length, (apply a.toColumns z)[c]?.getD 0 =
      ∑ i ∈ range a.rows, (a.columns[c]?.map fun m => m.weight i).getD 0 * z[i]?.getD 0 := by
    intro c hc
    have hlt : c < a.columns.length := hy ▸ mem_range.mp hc
    have hget : (apply a.toColumns z)[c]?.getD 0 =
        dot ((List.range a.rows).map a.columns[c].weight) z := by
      simp [apply, toColumns, hlt]
    rw [hget, dot_eq_sum _ _ (n := a.rows) (by simp)]
    refine Finset.sum_congr rfl fun i hi => ?_
    simp [hlt, mem_range.mp hi]
  calc dot z (apply a.toRows y)
      = ∑ i ∈ range a.rows, z[i]?.getD 0 *
          ∑ c ∈ range y.length, (a.columns[c]?.map fun m => m.weight i).getD 0 * y[c]?.getD 0 := by
        rw [dot_eq_sum _ _ (n := a.rows) (by simp [hz])]
        exact Finset.sum_congr rfl fun i hi => by rw [hrow i hi]
    _ = ∑ c ∈ range y.length,
          (∑ i ∈ range a.rows, (a.columns[c]?.map fun m => m.weight i).getD 0 * z[i]?.getD 0) *
            y[c]?.getD 0 := by
        simp only [Finset.mul_sum, Finset.sum_mul]
        rw [Finset.sum_comm]
        refine Finset.sum_congr rfl fun c _ => Finset.sum_congr rfl fun i _ => ?_
        ring
    _ = dot (apply a.toColumns z) y := by
        rw [dot_eq_sum _ _ (n := y.length) (by simp)]
        exact Finset.sum_congr rfl fun c hc => by rw [hcolumn c hc]

end Matrix
end LogConvex
