import LogConvex.Proofs.Matrix
import LogConvex.InteriorPoint.Iterate
import LogConvex.StandardForm

/- The standard form says what the program says. Row by row the slack `b - A y` is a form of
   the program at `y`, with the sign changed where the form is to be zero (`Row.slack`,
   `slacks_ofProgram`). Hence the slacks lie in the cones exactly where the program allows
   the columns: the rows of the bounds say that the bounds hold, and each constraint owns
   the rows that start where `rowOf` says (`rows_around`). -/
namespace LogConvex

open LinearSystem

/-- The slacks lie in the cones: first come zeros, then numbers that are not negative, then
triples of the exponential cone. -/
def ConeSizes.Contains (d : ConeSizes) (s : List ℝ) : Prop :=
  let v := InteriorPoint.Sections.ofList d s
  (∀ a ∈ v.zero, a = 0) ∧ (∀ a ∈ v.nonneg, 0 ≤ a) ∧
    ∀ t ∈ v.exponential, InExponentialCone t.x t.y t.z

/-- The slacks `b - A y`. -/
noncomputable def StandardForm.slacks (f : StandardForm ℝ) (y : List ℝ) : List ℝ :=
  List.zipWith (· - ·) f.b (apply f.a.toRows y)

/-! ## Rows -/

namespace Row

/-- What the slack of a row is: its form, with the sign changed where it is to be zero. -/
noncomputable def slack (y : List ℝ) (r : Row ℝ) : ℝ :=
  if r.isSlack then r.form.evaluate y else -r.form.evaluate y

/-- The numbers of a row times the columns; what is left out are zeros. -/
theorem sum_triplets (r : Row ℝ) (i : Nat) (y : List ℝ) :
    ((r.triplets i).map fun t => t.value * Affine.columnValue y t.col).sum =
      r.sign * r.form.coefficients.dot (Affine.columnValue y) := by
  rw [triplets, List.map_map, Matrix.sum_map_filter, Sparse.dot, ← List.sum_map_mul_left]
  congr 1
  apply List.map_congr_left
  intro e _
  by_cases h : e.2 = 0
  · simp [h]
  · simp [h]
    ring

theorem slack_eq (r : Row ℝ) (y : List ℝ) :
    r.slack y = r.constant - r.sign * r.form.coefficients.dot (Affine.columnValue y) := by
  rw [slack, constant, sign, Affine.evaluate_eq]
  split <;> ring

theorem row_of_mem_triplets {R : Type} [Scalar R] {r : Row R} {i : Nat} {t : Triplet R} (h : t ∈ r.triplets i) :
    t.row = i := by
  obtain ⟨e, _, rfl⟩ := List.mem_map.mp h
  rfl

/-- Among the triplets of rows that are counted from `first` on, those of one row are the
triplets made from it. -/
theorem filter_triplets {R : Type} [Scalar R] (rows : List (Row R)) (first i : Nat)
    (hi : i < rows.length) :
    (rows.mapIdx fun k r => r.triplets (first + k)).flatten.filter (fun t => t.row == first + i) =
      rows[i].triplets (first + i) := by
  induction rows generalizing first i with
  | nil => exact absurd hi (Nat.not_lt_zero i)
  | cons r rows ih =>
    have hshift : (fun k (r : Row R) => r.triplets (first + (k + 1))) =
        fun k r => r.triplets (first + 1 + k) := by
      funext k r
      rw [Nat.add_right_comm, Nat.add_assoc]
    rw [List.mapIdx_cons, List.flatten_cons, List.filter_append, hshift]
    cases i with
    | zero =>
      have hhead : (r.triplets first).filter (fun t => t.row == first) = r.triplets first :=
        List.filter_eq_self.mpr fun t ht => by simpa using row_of_mem_triplets ht
      have hrest : (rows.mapIdx fun k r => r.triplets (first + 1 + k)).flatten.filter
          (fun t => t.row == first) = [] := by
        rw [List.filter_eq_nil_iff]
        intro t ht
        obtain ⟨ts, hts, ht⟩ := List.mem_flatten.mp ht
        obtain ⟨k, _, rfl⟩ := List.mem_mapIdx.mp hts
        have := row_of_mem_triplets ht
        simp only [beq_iff_eq]
        omega
      simpa [hhead] using hrest
    | succ i =>
      have hhead : (r.triplets first).filter (fun t => t.row == first + (i + 1)) = [] := by
        rw [List.filter_eq_nil_iff]
        intro t ht
        have := row_of_mem_triplets ht
        simp only [beq_iff_eq]
        omega
      have hi : i < rows.length := Nat.lt_of_succ_lt_succ hi
      have hrest := ih (first + 1) i hi
      rw [Nat.add_right_comm, Nat.add_assoc] at hrest
      simpa [hhead] using hrest

end Row

/-! ## Slacks -/

namespace Program

variable {R : Type} [Scalar R]

/-- The rows of the columns that are fixed. -/
def fixedRows (p : Program R) : List (Row R) :=
  (p.bounds.mapIdx fun c b => b.fixedRows c).flatten

/-- The rows of the bounds of all other columns. -/
def boundRows (p : Program R) : List (Row R) :=
  (p.bounds.mapIdx fun c b => b.boundRows c).flatten

def zeroRows (p : Program R) : List (Row R) :=
  p.fixedRows ++ p.constraints.flatMap Cone.zeroRows

def nonnegRows (p : Program R) : List (Row R) :=
  p.boundRows ++ p.constraints.flatMap Cone.nonnegRows

omit [Scalar R] in
def exponentialRows (p : Program R) : List (Row R) := p.constraints.flatMap Cone.exponentialRows

def rows (p : Program R) : List (Row R) :=
  p.zeroRows ++ p.nonnegRows ++ p.exponentialRows

end Program

namespace StandardForm

theorem q_ofProgram (p : Program ℝ) :
    (ofProgram p).q = (List.range p.bounds.length).map p.objective.coefficients.weight := by
  apply List.map_congr_left
  intro c _
  rw [Sparse.weight]
  cases p.objective.coefficients.get? c <;> simp

theorem length_q_ofProgram (p : Program ℝ) : (ofProgram p).q.length = p.bounds.length := by
  simp [ofProgram]

theorem length_columns_ofProgram (p : Program ℝ) :
    (ofProgram p).a.columns.length = p.bounds.length := by
  simp [ofProgram, Matrix.ofTriplets]

theorem rows_ofProgram (p : Program ℝ) : (ofProgram p).a.rows = p.rows.length := rfl

theorem sizes_ofProgram (p : Program ℝ) : (ofProgram p).sizes =
    ⟨p.zeroRows.length, p.nonnegRows.length, p.exponentialRows.length / 3⟩ := rfl

theorem length_b_ofProgram (p : Program ℝ) : (ofProgram p).b.length = p.rows.length :=
  List.length_map ..

/-- The slacks are the forms of the rows. -/
theorem slacks_ofProgram (p : Program ℝ) {y : List ℝ} (hy : y.length = p.bounds.length) :
    (ofProgram p).slacks y = p.rows.map (Row.slack y) := by
  have hb : (ofProgram p).b = p.rows.map Row.constant := rfl
  have ha : (ofProgram p).a =
      .ofTriplets p.rows.length y.length (p.rows.mapIdx Row.triplets).flatten := by
    rw [hy]
    rfl
  apply List.ext_getElem
  · simp [slacks, hb, ha, apply, Matrix.toRows, Matrix.ofTriplets]
  · intro i h₁ h₂
    have hi : i < p.rows.length := by simpa using h₂
    have hrow := Row.filter_triplets p.rows 0 i hi
    simp only [Nat.zero_add] at hrow
    have hdot : dot ((ofProgram p).a.row i) y =
        p.rows[i].sign * p.rows[i].form.coefficients.dot (Affine.columnValue y) := by
      rw [ha, Matrix.dot_row_ofTriplets _ hi, hrow, Row.sum_triplets]
    have hslack : ((ofProgram p).slacks y)[i] =
        p.rows[i].constant - dot ((ofProgram p).a.row i) y := by
      simp [slacks, hb, apply, Matrix.toRows]
    rw [hslack, hdot, ← Row.slack_eq, List.getElem_map]

/-- The objective, up to its constant. -/
theorem dot_q_ofProgram (p : Program ℝ) {y : List ℝ} (hy : y.length = p.bounds.length) :
    dot (ofProgram p).q y + (ofProgram p).offset = p.objective.evaluate y := by
  have hq : ∀ c ∈ Finset.range y.length, (ofProgram p).q[c]?.getD 0 =
      (p.objective.coefficients.entries.map fun e => if e.1 = c then e.2 else 0).sum := by
    intro c hc
    rw [q_ofProgram, ← hy, List.getElem?_map, List.getElem?_range (Finset.mem_range.mp hc),
      Option.map_some, Option.getD_some, Sparse.weight_eq_dot _
      (f := fun j => if j = c then 1 else 0) (if_pos rfl) fun j hj => if_neg hj, Sparse.dot]
    simp
  rw [dot_eq_sum _ _ (n := y.length) (by simp), Finset.sum_congr rfl fun c hc => by rw [hq c hc],
    Matrix.sum_columns, Affine.evaluate_eq]
  rfl

end StandardForm

/-! ## Cones -/

theorem forall_mem_flatten_mapIdx {α β : Type} {P : β → Prop} (f : Nat → α → List β) (as : List α) :
    (∀ b ∈ (as.mapIdx f).flatten, P b) ↔ ∀ i (hi : i < as.length), ∀ b ∈ f i as[i], P b := by
  rw [List.forall_mem_flatten, List.forall_mem_iff_forall_getElem]
  simp

namespace Cone

theorem length_exponentialRows (cs : List (Cone ℝ)) :
    (cs.flatMap exponentialRows).length % 3 = 0 := by
  induction cs with
  | nil => rfl
  | cons c cs ih =>
    have hc : c.exponentialRows.length % 3 = 0 := by cases c <;> simp [exponentialRows]
    rw [List.flatMap_cons, List.length_append]
    omega

/-- A constraint holds where the slacks of its rows lie in its cone. -/
theorem holds_iff_rows (c : Cone ℝ) (y : List ℝ) :
    c.Holds y ↔ (∀ r ∈ c.zeroRows, r.slack y = 0) ∧ (∀ r ∈ c.nonnegRows, 0 ≤ r.slack y) ∧
      ∀ t ∈ InteriorPoint.triples (c.exponentialRows.map (Row.slack y)),
        InExponentialCone t.x t.y t.z := by
  cases c <;>
    simp [Holds, zeroRows, nonnegRows, exponentialRows, InteriorPoint.triples, Row.slack]

theorem triples_flatMap (cs : List (Cone ℝ)) (y : List ℝ) :
    InteriorPoint.triples ((cs.flatMap exponentialRows).map (Row.slack y)) =
      cs.flatMap fun c => InteriorPoint.triples (c.exponentialRows.map (Row.slack y)) := by
  induction cs with
  | nil => rfl
  | cons c cs ih =>
    cases c <;> simp [exponentialRows, InteriorPoint.triples, ih]

/-- Constraints hold where the slacks of their rows, by section, lie in the cones. -/
theorem forall_holds_iff_rows (cs : List (Cone ℝ)) (y : List ℝ) :
    (∀ c ∈ cs, c.Holds y) ↔ (∀ r ∈ cs.flatMap zeroRows, r.slack y = 0) ∧
      (∀ r ∈ cs.flatMap nonnegRows, 0 ≤ r.slack y) ∧
      ∀ t ∈ InteriorPoint.triples ((cs.flatMap exponentialRows).map (Row.slack y)),
        InExponentialCone t.x t.y t.z := by
  simp only [triples_flatMap, List.forall_mem_flatMap, holds_iff_rows, forall_and]

end Cone

namespace ColumnBounds

/-- A value lies within the bounds of its column where the slacks of their rows do. -/
theorem holds_iff_rows (b : ColumnBounds ℝ) {y : List ℝ} {c : Nat} {v : ℝ} (hv : y[c]? = some v) :
    b.Holds v ↔ (∀ r ∈ b.fixedRows c, r.slack y = 0) ∧ ∀ r ∈ b.boundRows c, 0 ≤ r.slack y := by
  obtain ⟨lower, upper⟩ := b
  cases lower with
  | none =>
    cases upper with
    | none => simp [Holds, fixedRows, boundRows, lowerRows, upperRows, isFixed]
    | some u => simp [Holds, fixedRows, boundRows, lowerRows, upperRows, isFixed, Row.slack,
        Affine.columnValue, hv]
  | some l =>
    cases upper with
    | none => simp [Holds, fixedRows, boundRows, lowerRows, upperRows, isFixed, Row.slack,
        Affine.columnValue, hv]
    | some u =>
      by_cases h : l = u
      · subst h
        have hzero : l ≤ v ∧ v ≤ l ↔ l + -v = 0 := by
          rw [← sub_eq_add_neg, sub_eq_zero, ← le_antisymm_iff]
        simpa [Holds, fixedRows, boundRows, isFixed, Row.slack, Affine.columnValue, hv] using hzero
      · simp [Holds, fixedRows, boundRows, lowerRows, upperRows, isFixed, Row.slack,
          Affine.columnValue, hv, h]

end ColumnBounds

namespace Program

variable (p : Program ℝ) {y : List ℝ} (hy : y.length = p.bounds.length)
include hy

/-- The bounds hold where the slacks of their rows, by section, lie in the cones. -/
theorem forall_bounds_iff_rows : (∀ e ∈ p.bounds.zip y, e.1.Holds e.2) ↔
    (∀ r ∈ p.fixedRows, r.slack y = 0) ∧ ∀ r ∈ p.boundRows, 0 ≤ r.slack y := by
  have hcol : ∀ c (hc : c < p.bounds.length), p.bounds[c].Holds (y.get ⟨c, hy ▸ hc⟩) ↔
      (∀ r ∈ p.bounds[c].fixedRows c, r.slack y = 0) ∧
        ∀ r ∈ p.bounds[c].boundRows c, 0 ≤ r.slack y := fun c hc =>
    ColumnBounds.holds_iff_rows _ (List.getElem?_eq_getElem (hy ▸ hc))
  rw [fixedRows, boundRows, forall_mem_flatten_mapIdx, forall_mem_flatten_mapIdx, ← forall₂_and]
  simp only [← hcol]
  rw [List.forall_mem_iff_forall_getElem]
  simp [hy]

/-- Columns are allowed where the slacks, by section, lie in the cones. -/
theorem feasible_iff_rows :
    p.Feasible y ↔ (∀ r ∈ p.zeroRows, r.slack y = 0) ∧ (∀ r ∈ p.nonnegRows, 0 ≤ r.slack y) ∧
      ∀ t ∈ InteriorPoint.triples (p.exponentialRows.map (Row.slack y)),
        InExponentialCone t.x t.y t.z := by
  rw [Feasible, p.forall_bounds_iff_rows hy, Cone.forall_holds_iff_rows, zeroRows, nonnegRows,
    exponentialRows]
  simp only [List.forall_mem_append, hy, true_and]
  tauto

end Program

namespace StandardForm

theorem total_sizes (p : Program ℝ) : (ofProgram p).sizes.total = p.rows.length := by
  have hexp : p.exponentialRows.length % 3 = 0 := Cone.length_exponentialRows p.constraints
  rw [sizes_ofProgram, ConeSizes.total, Program.rows]
  simp only [List.length_append]
  omega

/-- The cones allow the slacks that the program allows. -/
theorem contains_slacks_iff (p : Program ℝ) {y : List ℝ} (hy : y.length = p.bounds.length) :
    (ofProgram p).sizes.Contains ((ofProgram p).slacks y) ↔ p.Feasible y := by
  have hsections : InteriorPoint.Sections.ofList (ofProgram p).sizes (p.rows.map (Row.slack y)) =
      ⟨p.zeroRows.map (Row.slack y), p.nonnegRows.map (Row.slack y),
        InteriorPoint.triples (p.exponentialRows.map (Row.slack y))⟩ := by
    simp only [InteriorPoint.Sections.ofList, sizes_ofProgram, Program.rows, List.map_append,
      List.append_assoc]
    rw [List.take_left' (by simp), List.drop_left' (by simp), List.take_left' (by simp),
      ← List.drop_drop, List.drop_left' (by simp), List.drop_left' (by simp)]
  rw [slacks_ofProgram p hy, Program.feasible_iff_rows p hy, ConeSizes.Contains, hsections]
  simp only [List.forall_mem_map]

end StandardForm

/-! ## Places of constraints -/

namespace Cone

variable {R : Type}

/-- All rows of a constraint; only one section has any. -/
def rows (c : Cone R) : List (Row R) := c.zeroRows ++ c.nonnegRows ++ c.exponentialRows

theorem firstRows_append (i j k : Nat) (pre cs : List (Cone R)) :
    firstRows i j k (pre ++ cs) = firstRows i j k pre ++
      firstRows (i + (pre.flatMap zeroRows).length) (j + (pre.flatMap nonnegRows).length)
        (k + (pre.flatMap exponentialRows).length) cs := by
  induction pre generalizing i j k with
  | nil => rfl
  | cons c pre ih =>
    rw [List.cons_append]
    cases c <;>
      simp [firstRows, ih, zeroRows, nonnegRows, exponentialRows, ← Nat.add_assoc,
        Nat.add_right_comm, -List.length_flatMap]

@[simp] theorem length_firstRows (i j k : Nat) (cs : List (Cone R)) :
    (firstRows i j k cs).length = cs.length := by
  induction cs generalizing i j k with
  | nil => rfl
  | cons c cs ih => cases c <;> simp [firstRows, ih]

/-- First rows lie in the sections. -/
theorem of_mem_firstRows {i j k r : Nat} {cs : List (Cone ℝ)} (h : r ∈ firstRows i j k cs) :
    (i ≤ r ∧ r < i + (cs.flatMap zeroRows).length) ∨
      (j ≤ r ∧ r < j + (cs.flatMap nonnegRows).length) ∨ k ≤ r := by
  induction cs generalizing i j k with
  | nil => exact absurd h List.not_mem_nil
  | cons c cs ih =>
    cases c <;>
    · simp only [firstRows, List.mem_cons] at h
      simp only [List.flatMap_cons, zeroRows, nonnegRows, List.length_append, List.length_cons,
        List.length_nil]
      rcases h with rfl | h
      · omega
      · have := ih h
        omega

/-- Sections that do not overlap give each constraint a row of its own. -/
theorem nodup_firstRows {i j k : Nat} {cs : List (Cone ℝ)}
    (hij : i + (cs.flatMap zeroRows).length ≤ j) (hjk : j + (cs.flatMap nonnegRows).length ≤ k) :
    (firstRows i j k cs).Nodup := by
  induction cs generalizing i j k with
  | nil => exact List.nodup_nil
  | cons c cs ih =>
    cases c <;>
    · simp only [List.flatMap_cons, zeroRows, nonnegRows, List.length_append, List.length_cons,
        List.length_nil] at hij hjk
      rw [firstRows, List.nodup_cons]
      refine ⟨fun hmem => ?_, ih (by omega) (by omega)⟩
      have := of_mem_firstRows hmem
      omega

end Cone

namespace Program

section Around

variable {R : Type} [Scalar R]

/-- The rows before those of a constraint between `pre` and `post`. -/
def frontRows (p : Program R) (pre post : List (Cone R)) : Cone R → List (Row R)
  | .zero _ => p.fixedRows ++ pre.flatMap Cone.zeroRows
  | .nonneg _ => p.fixedRows ++ (pre ++ post).flatMap Cone.zeroRows ++
      (p.boundRows ++ pre.flatMap Cone.nonnegRows)
  | .exponential .. => p.fixedRows ++ (pre ++ post).flatMap Cone.zeroRows ++
      (p.boundRows ++ (pre ++ post).flatMap Cone.nonnegRows) ++ pre.flatMap Cone.exponentialRows

/-- The rows after those of a constraint between `pre` and `post`. -/
def backRows (p : Program R) (pre post : List (Cone R)) : Cone R → List (Row R)
  | .zero _ => post.flatMap Cone.zeroRows ++
      (p.boundRows ++ (pre ++ post).flatMap Cone.nonnegRows) ++
      (pre ++ post).flatMap Cone.exponentialRows
  | .nonneg _ => post.flatMap Cone.nonnegRows ++ (pre ++ post).flatMap Cone.exponentialRows
  | .exponential .. => post.flatMap Cone.exponentialRows

variable {p : Program R} {pre post : List (Cone R)} {c : Cone R}
  (h : p.constraints = pre ++ c :: post)
include h

theorem rows_around : p.rows = p.frontRows pre post c ++ (c.rows ++ p.backRows pre post c) := by
  cases c <;>
    simp [rows, zeroRows, nonnegRows, exponentialRows, h, frontRows, backRows, Cone.rows,
      Cone.zeroRows, Cone.nonnegRows, Cone.exponentialRows]

theorem rowOf_around :
    (StandardForm.ofProgram p).rowOf[pre.length]? = some (p.frontRows pre post c).length := by
  have hrowOf : (StandardForm.ofProgram p).rowOf = Cone.firstRows p.fixedRows.length
    (p.zeroRows.length + p.boundRows.length) (p.zeroRows.length + p.nonnegRows.length)
    p.constraints := rfl
  rw [hrowOf, h, Cone.firstRows_append, List.getElem?_append_right (by simp)]
  cases c <;>
    simp [Cone.firstRows, zeroRows, nonnegRows, h, frontRows, Cone.zeroRows, Cone.nonnegRows,
      Nat.add_assoc]

end Around

variable {p : Program ℝ} {pre post : List (Cone ℝ)} {c : Cone ℝ}
  (h : p.constraints = pre ++ c :: post)
include h

theorem slack_around {y : List ℝ} (hy : y.length = p.bounds.length) {j : Nat}
    {r : Row ℝ} (hr : c.rows[j]? = some r) :
    ((StandardForm.ofProgram p).slacks y)[(p.frontRows pre post c).length + j]? =
      some (r.slack y) := by
  have hj : j < c.rows.length := (List.getElem?_eq_some_iff.mp hr).1
  rw [StandardForm.slacks_ofProgram p hy, rows_around h, List.getElem?_map,
    List.getElem?_append_right (by omega), Nat.add_sub_cancel_left, List.getElem?_append_left hj,
    hr, Option.map_some]

/-- The block of a constraint starts at a row: it lies in the section of its cone, behind the
rows of bounds, and the slacks of its rows are the forms of the constraint, that of a form
which is to be zero with the sign changed. -/
def Starts (p : Program ℝ) (y : List ℝ) : Cone ℝ → Nat → Prop :=
  let d := (StandardForm.ofProgram p).sizes
  let s := (StandardForm.ofProgram p).slacks y
  fun
  | .zero a, i => p.fixedRows.length ≤ i ∧ i < d.zero ∧ s[i]? = some (-a.evaluate y)
  | .nonneg a, i => d.zero + p.boundRows.length ≤ i ∧ i < d.zero + d.nonneg ∧
      s[i]? = some (a.evaluate y)
  | .exponential a b c, i => d.zero + d.nonneg ≤ i ∧ 3 ∣ i - (d.zero + d.nonneg) ∧
      s[i]? = some (a.evaluate y) ∧ s[i + 1]? = some (b.evaluate y) ∧
      s[i + 2]? = some (c.evaluate y)

theorem starts_around {y : List ℝ} (hy : y.length = p.bounds.length) :
    p.Starts y c (p.frontRows pre post c).length := by
  rw [Starts, StandardForm.sizes_ofProgram]
  cases c with
  | zero a =>
    refine ⟨?_, ?_, slack_around h hy (j := 0) (r := ⟨a, false⟩) rfl⟩
    · simp [frontRows]
    · rw [zeroRows, h]
      simp [frontRows, Cone.zeroRows]
  | nonneg a =>
    refine ⟨?_, ?_, slack_around h hy (j := 0) (r := ⟨a, true⟩) rfl⟩
    · rw [zeroRows, h]
      simp [frontRows, Cone.zeroRows, Nat.add_assoc]
    · rw [zeroRows, nonnegRows, h]
      simp [frontRows, Cone.zeroRows, Cone.nonnegRows, Nat.add_assoc]
  | exponential e f g =>
    have hfront : (p.frontRows pre post (.exponential e f g)).length =
        p.zeroRows.length + p.nonnegRows.length +
          (pre.flatMap Cone.exponentialRows).length := by
      rw [zeroRows, nonnegRows, h]
      simp [frontRows, Cone.zeroRows, Cone.nonnegRows, Nat.add_assoc]
    refine ⟨?_, ?_, slack_around h hy (j := 0) (r := ⟨e, true⟩) rfl,
      slack_around h hy (j := 1) (r := ⟨f, true⟩) rfl,
      slack_around h hy (j := 2) (r := ⟨g, true⟩) rfl⟩
    · rw [hfront]
      exact Nat.le_add_right _ _
    · rw [hfront, Nat.add_sub_cancel_left]
      exact Nat.dvd_of_mod_eq_zero (Cone.length_exponentialRows pre)

omit h

theorem forall₂_starts (p : Program ℝ) {y : List ℝ} (hy : y.length = p.bounds.length) :
    List.Forall₂ (p.Starts y) p.constraints (StandardForm.ofProgram p).rowOf := by
  rw [List.forall₂_iff_get]
  refine ⟨(Cone.length_firstRows _ _ _ _).symm, fun i h₁ h₂ => ?_⟩
  have h : p.constraints =
      p.constraints.take i ++ p.constraints[i] :: p.constraints.drop (i + 1) := by
    rw [← List.drop_eq_getElem_cons, List.take_append_drop]
  have hrow := rowOf_around h
  rw [List.length_take, Nat.min_eq_left (Nat.le_of_lt h₁), List.getElem?_eq_getElem h₂,
    Option.some.injEq] at hrow
  rw [List.get_eq_getElem, List.get_eq_getElem, hrow]
  exact starts_around h hy

end Program

/-! ## Coefficients -/

section Coefficients

variable {R : Type} [Scalar R]

omit [Scalar R] in
/-- The columns that a constraint mentions. -/
def Cone.columns : Cone R → List Nat
  | zero a => a.columns
  | nonneg a => a.columns
  | exponential x y z => x.columns ++ y.columns ++ z.columns

omit [Scalar R] in
theorem Cone.mem_columns_of_rows {c : Cone R} {r : Row R} (hr : r ∈ c.rows) {e : Nat × R}
    (he : e ∈ r.form.coefficients.entries) : e.1 ∈ c.columns := by
  have hform : e.1 ∈ r.form.columns := List.mem_map_of_mem he
  cases c with
  | zero a | nonneg a =>
    obtain rfl := List.mem_singleton.mp hr
    exact hform
  | exponential x y z =>
    have hr : r ∈ [⟨x, true⟩, ⟨y, true⟩, ⟨z, true⟩] := hr
    simp only [List.mem_cons, List.not_mem_nil, or_false] at hr
    rcases hr with rfl | rfl | rfl <;> simp [columns, hform]

/-- A program has all columns that its objective and its constraints mention. -/
def Program.Closed (p : Program R) : Prop :=
  (∀ c ∈ p.objective.columns, c < p.bounds.length) ∧
    ∀ k ∈ p.constraints, ∀ c ∈ k.columns, c < p.bounds.length

namespace StandardForm

/-- The standard form keeps all coefficients of a program: those of the objective, and in the
rows of each constraint, which start where `rowOf` says, those that are not zero. -/
def KeepsAll (p : Program R) : Prop :=
  (∀ e ∈ p.objective.coefficients.entries, (ofProgram p).q[e.1]? = some (0 + e.2)) ∧
    List.Forall₂ (fun (c : Cone R) i => ∀ j r, c.rows[j]? = some r →
      ∀ e ∈ r.form.coefficients.entries, (e.2 == 0) = false →
        Matrix.get? (ofProgram p).a (i + j) e.1 = some (e.2 * r.sign))
      p.constraints (ofProgram p).rowOf

/-- A row has at most one entry for a column, and it is stored if there is such a column. -/
theorem get?_ofProgram (p : Program R) {i : Nat} {r : Row R} (hr : p.rows[i]? = some r)
    {e : Nat × R} (he : e ∈ r.form.coefficients.entries) (hcol : e.1 < p.bounds.length)
    (hne : (e.2 == 0) = false) :
    Matrix.get? (ofProgram p).a i e.1 = some (e.2 * r.sign) := by
  obtain ⟨hi, rfl⟩ := List.getElem?_eq_some_iff.mp hr
  have hrow := Row.filter_triplets p.rows 0 i hi
  simp only [Nat.zero_add] at hrow
  refine Matrix.get?_ofTriplets (t := ⟨i, e.1, e.2 * p.rows[i].sign⟩) hi hcol ?_
  show (List.filter (fun u : Triplet R => u.row == i) (p.rows.mapIdx Row.triplets).flatten).filter
    (fun u => u.col == e.1) = _
  have hentry : (p.rows[i].form.coefficients.entries.filter fun d =>
      d.1 == e.1 && !(d.2 == 0)) = [e] :=
    Sparse.filter_eq_singleton he (by simp [hne]) fun d hd =>
      eq_of_beq (Bool.and_eq_true_iff.mp hd).1
  rw [hrow, Row.triplets, List.filter_map, List.filter_filter]
  exact congrArg (List.map _) hentry

/-- What a closed program says is in its standard form. -/
theorem keepsAll_of_closed {p : Program R} (h : p.Closed) : KeepsAll p := by
  obtain ⟨hobjective, hconstraints⟩ := h
  constructor
  · intro e he
    have hcol : e.1 < p.bounds.length := hobjective _ (List.mem_map_of_mem he)
    simp [ofProgram, hcol, Sparse.get?_of_mem he]
  · rw [List.forall₂_iff_get]
    refine ⟨(Cone.length_firstRows _ _ _ _).symm, fun k h₁ h₂ j r hr e he hne => ?_⟩
    have hsplit : p.constraints =
        p.constraints.take k ++ p.constraints[k] :: p.constraints.drop (k + 1) := by
      rw [← List.drop_eq_getElem_cons, List.take_append_drop]
    have hstart := Program.rowOf_around hsplit
    rw [List.length_take, Nat.min_eq_left (Nat.le_of_lt h₁), List.getElem?_eq_getElem h₂,
      Option.some.injEq] at hstart
    have hr : p.constraints[k].rows[j]? = some r := hr
    have hrow : p.rows[(ofProgram p).rowOf[k] + j]? = some r := by
      have hj : j < p.constraints[k].rows.length := (List.getElem?_eq_some_iff.mp hr).1
      rw [Program.rows_around hsplit, hstart, List.getElem?_append_right (by omega),
        Nat.add_sub_cancel_left, List.getElem?_append_left hj, hr]
    have hcol : e.1 < p.bounds.length :=
      hconstraints _ (List.getElem_mem h₁) _
        (Cone.mem_columns_of_rows (List.mem_of_getElem? hr) he)
    exact get?_ofProgram p hrow he hcol hne

end StandardForm

end Coefficients

namespace StandardForm

/-- The standard form of a program is exact. Its slacks lie in the cones where the program
allows the columns, its objective is that of the program, its vectors have as many entries
as it has rows, and each constraint has a block of rows of its own, in the section of its
cone, that starts where `rowOf` says and holds the forms of the constraint. -/
theorem ofProgram_exact (p : Program ℝ) (y : List ℝ) (hy : y.length = p.bounds.length) :
    let f := ofProgram p
    (p.Feasible y ↔ f.sizes.Contains (f.slacks y)) ∧
      dot f.q y + f.offset = p.objective.evaluate y ∧
      (f.b.length = f.a.rows ∧ f.a.rows = f.sizes.total) ∧
      List.Forall₂ (p.Starts y) p.constraints f.rowOf ∧ f.rowOf.Nodup := by
  refine ⟨(contains_slacks_iff p hy).symm, dot_q_ofProgram p hy,
    ⟨length_b_ofProgram p, (total_sizes p).symm⟩, Program.forall₂_starts p hy,
    Cone.nodup_firstRows ?_ ?_⟩
  all_goals
    simp only [List.length_append]
    omega

/-- A fixed column, one bound from below and one from above; a constraint for each cone, one
of which mentions a column that is not there. -/
noncomputable def mixedProgram : Program ℝ :=
  { bounds := [.fixed 1, .nonneg, ⟨none, some 1⟩]
    objective := .column 1
    constraints := [.exponential (.column 1) (.scalar 1) (.column 0),
      .zero ((Affine.column 0).add (.scalar (-1))),
      .nonneg ((Affine.column 0).add (.column 7))] }

/-- The constraints start at the rows five, one and four. -/
theorem ofProgram_exact_mixedProgram :
    (ofProgram mixedProgram).sizes.Contains ((ofProgram mixedProgram).slacks [1, 0, 1]) ∧
      List.Forall₂ (mixedProgram.Starts [1, 0, 1]) mixedProgram.constraints [5, 1, 4] := by
  have hy : [(1 : ℝ), 0, 1].length = mixedProgram.bounds.length := rfl
  have hfeasible : mixedProgram.Feasible [1, 0, 1] := by
    simp [Program.Feasible, mixedProgram, ColumnBounds.fixed, ColumnBounds.nonneg,
      ColumnBounds.Holds, Cone.Holds, Affine.columnValue, InExponentialCone]
  have hrowOf : (ofProgram mixedProgram).rowOf = [5, 1, 4] := by
    simp [ofProgram, mixedProgram, Cone.firstRows, Cone.zeroRows, Cone.nonnegRows,
      ColumnBounds.fixed, ColumnBounds.nonneg, ColumnBounds.fixedRows, ColumnBounds.boundRows,
      ColumnBounds.lowerRows, ColumnBounds.upperRows, ColumnBounds.isFixed]
  obtain ⟨hcontains, -, -, hstarts, -⟩ := ofProgram_exact mixedProgram [1, 0, 1] hy
  rw [hrowOf] at hstarts
  exact ⟨hcontains.mp hfeasible, hstarts⟩

end StandardForm

end LogConvex
