import LogConvex.Proofs.StandardForm
import LogConvex.InteriorPoint.Method

/- Dual values of a program in standard form. Columns and dual values that prove each other
   optimal form a primal-dual pair (`StandardForm.PrimalDual`). At any other columns the
   objective exceeds the optimum by the product of the dual values and the slacks
   (`PrimalDual.dot_q_eq`), which is not negative where the constraints hold. Leaving out one
   constraint with a single row, the product is still at least the dual value of the row times
   its slack (`PrimalDual.le_dot_q`). So the dual value of a row says what it costs to keep
   the constraint. -/
namespace LogConvex

open LinearSystem

/-! ## Products of vectors -/

namespace LinearSystem

@[simp] theorem dot_cons (a b : ℝ) (u v : List ℝ) : dot (a :: u) (b :: v) = a * b + dot u v := by
  simp [dot]

theorem dot_comm (u v : List ℝ) : dot u v = dot v u := by
  rw [dot, dot, List.zipWith_comm_of_comm mul_comm]

theorem dot_zipWith_sub (z u v : List ℝ) (h : u.length = v.length) :
    dot z (List.zipWith (· - ·) u v) = dot z u - dot z v := by
  induction z generalizing u v with
  | nil => simp [dot]
  | cons c z ih =>
    cases u with
    | nil =>
      rw [List.length_eq_zero_iff.mp h.symm]
      simp [dot]
    | cons a u =>
      obtain ⟨b, v, rfl⟩ := List.exists_cons_of_length_eq_add_one h.symm
      simp only [List.zipWith_cons_cons, dot_cons, ih u v (Nat.succ.inj h)]
      ring

/-- A vector that cancels another one has the opposite products. -/
theorem dot_eq_neg (u v y : List ℝ) (hlen : u.length = v.length)
    (h : ∀ e ∈ List.zipWith (· + ·) u v, e = 0) : dot u y = -dot v y := by
  induction u generalizing v y with
  | nil =>
    rw [List.length_eq_zero_iff.mp hlen.symm]
    simp [dot]
  | cons a u ih =>
    obtain ⟨b, v, rfl⟩ := List.exists_cons_of_length_eq_add_one hlen.symm
    rw [List.zipWith_cons_cons, List.forall_mem_cons] at h
    cases y with
    | nil => simp [dot]
    | cons c y =>
      rw [dot_cons, dot_cons, ih v y (Nat.succ.inj hlen) h.2, eq_neg_of_add_eq_zero_left h.1]
      ring

/-- One entry of a vector changes. -/
theorem dot_append_cons (z u v : List ℝ) (a b : ℝ) :
    dot z (u ++ a :: v) = dot z (u ++ b :: v) + z[u.length]?.getD 0 * (a - b) := by
  induction u generalizing z with
  | nil =>
    cases z with
    | nil => simp [dot]
    | cons c z =>
      simp
      ring
  | cons d u ih =>
    cases z with
    | nil => simp [dot]
    | cons c z =>
      simp [ih z]
      ring

end LinearSystem

/-! ## Primal-dual pairs -/

/-- The dual cone: the products with all slacks in the cones are not negative. -/
def ConeSizes.ContainsDual (d : ConeSizes) (z : List ℝ) : Prop :=
  ∀ s : List ℝ, s.length = d.total → d.Contains s → 0 ≤ dot z s

namespace StandardForm

/-- Columns and dual values that prove each other optimal. -/
structure PrimalDual (f : StandardForm ℝ) (y z : List ℝ) : Prop where
  length_columns : y.length = f.q.length
  length_rows : z.length = f.sizes.total
  feasible : f.sizes.Contains (f.slacks y)
  dual_feasible : f.sizes.ContainsDual z
  /-- The condition `Aᵀ z + q = 0`. -/
  stationary : ∀ e ∈ List.zipWith (· + ·) (apply f.a.toColumns z) f.q, e = 0
  /-- The two objectives agree. -/
  tight : dot f.q y = -dot f.b z

/-- The answer that hands back columns and dual values: for each constraint, the dual value
of its first row. -/
def answer {R : Type} [Scalar R] (f : StandardForm R) (status : Status) (y z : List R)
    (time : R) : Answer R :=
  { status := status
    primal := y
    duals := f.rowOf.map fun i => z[i]?.getD Scalar.missing
    objective := dot f.q y + f.offset
    time := time }

/-- The interior point method hands back the columns and dual values of its last iterate. -/
theorem exists_solveStandardForm_eq (s : Settings ℝ) (f : StandardForm ℝ) :
    ∃ status y z, InteriorPoint.solveStandardForm s f = f.answer status y z 0 := by
  unfold InteriorPoint.solveStandardForm
  extract_lets T timeUp r p primal zs
  -- an entry that is not there is zero, and stays zero when it is divided
  have hentry : ∀ i : Nat, zs[i]?.getD Scalar.missing / p.tau =
      (zs.map (· / p.tau))[i]?.getD Scalar.missing := by
    intro i
    cases h : zs[i]? <;> simp [h]
  refine ⟨r.1.status, primal, zs.map (· / p.tau), ?_⟩
  simp only [answer, ← hentry]

variable {p : Program ℝ} {y z : List ℝ}

/-- Allowed columns have slacks whose product with dual values is not negative. -/
theorem dot_slacks_nonneg (hz : (ofProgram p).sizes.ContainsDual z) (hy : p.Feasible y) :
    0 ≤ dot z ((ofProgram p).slacks y) := by
  refine hz _ ?_ ((contains_slacks_iff p hy.1).mpr hy)
  rw [slacks_ofProgram p hy.1, List.length_map, total_sizes]

/-- Elsewhere the objective is larger by the product of the dual values and the slacks. -/
theorem PrimalDual.dot_q_eq (h : (ofProgram p).PrimalDual y z) {y' : List ℝ}
    (hy' : y'.length = p.bounds.length) :
    dot (ofProgram p).q y' = dot (ofProgram p).q y + dot z ((ofProgram p).slacks y') := by
  have hb : (ofProgram p).b.length = (apply (ofProgram p).a.toRows y').length := by
    simp [length_b_ofProgram, apply, Matrix.toRows, rows_ofProgram]
  have htranspose : dot z (apply (ofProgram p).a.toRows y') = -dot (ofProgram p).q y' := by
    rw [Matrix.dot_apply_toRows _ (hy'.trans (length_columns_ofProgram p).symm)
      (h.length_rows.trans (total_sizes p))]
    refine dot_eq_neg _ _ y' ?_ h.stationary
    simp [length_q_ofProgram, apply, Matrix.toColumns, length_columns_ofProgram]
  calc dot (ofProgram p).q y'
      = -dot z (apply (ofProgram p).a.toRows y') := by rw [htranspose, neg_neg]
    _ = -dot (ofProgram p).b z +
          (dot z (ofProgram p).b - dot z (apply (ofProgram p).a.toRows y')) := by
        rw [dot_comm (ofProgram p).b z]
        ring
    _ = dot (ofProgram p).q y + dot z ((ofProgram p).slacks y') := by
        rw [h.tight, slacks, dot_zipWith_sub z _ _ hb]

/-- A pair is an optimum. -/
theorem PrimalDual.optimal (h : (ofProgram p).PrimalDual y z) : p.Optimal y := by
  have hy : y.length = p.bounds.length := h.length_columns.trans (length_q_ofProgram p)
  refine ⟨(contains_slacks_iff p hy).mp h.feasible, fun y' hy' => ?_⟩
  have hpos := dot_slacks_nonneg h.dual_feasible hy'
  rw [← dot_q_ofProgram p hy, ← dot_q_ofProgram p hy'.1, h.dot_q_eq hy'.1]
  linarith

end StandardForm

/-! ## Constraints with one row -/

/-- A factor is not negative if products with arbitrarily small numbers are bounded. -/
theorem nonneg_of_mul_sub_le {m v d : ℝ} (h : ∀ t : ℝ, 0 ≤ t → m * (v - t) ≤ d) : 0 ≤ m := by
  by_contra hneg
  rw [not_le] at hneg
  have hm : m ≠ 0 := hneg.ne
  have hzero : m * v ≤ d := by simpa using h 0 le_rfl
  -- this number makes the product exceed the bound by one
  have ht : 0 ≤ (d - m * v + 1) / -m := div_nonneg (by linarith) (by linarith)
  have hlarge := h _ ht
  have hcancel : m * ((d - m * v + 1) / -m) = -(d - m * v + 1) := by field_simp
  rw [mul_sub, hcancel] at hlarge
  linarith

/-- A constraint with a single row, whose form is the slack or is to be zero. -/
def Cone.single (isSlack : Bool) (a : Affine ℝ) : Cone ℝ :=
  if isSlack then .nonneg a else .zero a

namespace Cone

theorem rows_single (isSlack : Bool) (a : Affine ℝ) : (single isSlack a).rows = [⟨a, isSlack⟩] := by
  cases isSlack <;> rfl

theorem holds_single_scalar {isSlack : Bool} {t : ℝ} (ht : if isSlack then 0 ≤ t else t = 0)
    (y : List ℝ) : (single isSlack (.scalar t)).Holds y := by
  cases isSlack <;> simpa [single, Holds] using ht

end Cone

section Single

variable {p : Program ℝ} {isSlack : Bool} {a : Affine ℝ} {pre post : List (Cone ℝ)}
  (hp : p.constraints = pre ++ Cone.single isSlack a :: post)
include hp

/-- Two programs that differ in the form of a single row differ in one slack. -/
theorem Program.slacks_single {y : List ℝ} (hy : y.length = p.bounds.length) :
    ∃ front back : List ℝ,
      (StandardForm.ofProgram p).rowOf[pre.length]? = some front.length ∧
      ∀ (p' : Program ℝ) (b : Affine ℝ), p'.bounds = p.bounds →
        p'.constraints = pre ++ Cone.single isSlack b :: post →
        (StandardForm.ofProgram p').sizes = (StandardForm.ofProgram p).sizes ∧
        (StandardForm.ofProgram p').slacks y = front ++ Row.slack y ⟨b, isSlack⟩ :: back := by
  refine ⟨(p.frontRows pre post (Cone.single isSlack a)).map (Row.slack y),
    (p.backRows pre post (Cone.single isSlack a)).map (Row.slack y), ?_,
    fun p' b hbounds hp' => ⟨?_, ?_⟩⟩
  · rw [List.length_map]
    exact rowOf_around hp
  · cases isSlack <;>
      simp [StandardForm.ofProgram, hp, hp', hbounds, Cone.single, Cone.zeroRows, Cone.nonnegRows,
        Cone.exponentialRows]
  · rw [StandardForm.slacks_ofProgram p' (hy.trans (congrArg _ hbounds.symm)), rows_around hp',
      Cone.rows_single]
    cases isSlack <;> simp [frontRows, backRows, Cone.single, fixedRows, boundRows, hbounds]

/-- A constraint with a single row may be replaced by any other that holds: its slack is
then a free number, of the right sign. -/
theorem StandardForm.le_dot_slacks {z : List ℝ} (hz : (ofProgram p).sizes.ContainsDual z) {i : Nat}
    (hi : (ofProgram p).rowOf[pre.length]? = some i) {y : List ℝ}
    (hy : y.length = p.bounds.length) (hbounds : ∀ e ∈ p.bounds.zip y, e.1.Holds e.2)
    (hrest : ∀ c ∈ pre ++ post, c.Holds y) {t : ℝ} (ht : if isSlack then 0 ≤ t else t = 0) :
    z[i]?.getD 0 * (Row.slack y ⟨a, isSlack⟩ - t) ≤ dot z ((ofProgram p).slacks y) := by
  obtain ⟨front, back, hfront, hslacks⟩ := Program.slacks_single hp hy
  obtain rfl : i = front.length := Option.some.inj (hi.symm.trans hfront)
  obtain ⟨-, hslacks_p⟩ := hslacks p a rfl hp
  let p' : Program ℝ := { p with constraints := pre ++ Cone.single isSlack (.scalar t) :: post }
  obtain ⟨hsizes, hslacks_p'⟩ := hslacks p' (.scalar t) rfl rfl
  have hrow : Row.slack y ⟨.scalar t, isSlack⟩ = t := by
    cases isSlack with
    | true => simp [Row.slack]
    | false =>
      obtain rfl : t = 0 := by simpa using ht
      simp [Row.slack]
  have hfeasible : p'.Feasible y := by
    rw [List.forall_mem_append] at hrest
    refine ⟨hy, hbounds, ?_⟩
    rw [List.forall_mem_append, List.forall_mem_cons]
    exact ⟨hrest.1, Cone.holds_single_scalar ht y, hrest.2⟩
  have hpos : 0 ≤ dot z ((ofProgram p').slacks y) := dot_slacks_nonneg (hsizes ▸ hz) hfeasible
  rw [hslacks_p', hrow, dot_append_cons _ _ _ t (Row.slack y ⟨a, isSlack⟩), ← hslacks_p] at hpos
  linarith

namespace StandardForm.PrimalDual

variable {y z : List ℝ} (h : (ofProgram p).PrimalDual y z) {i : Nat}
  (hi : (ofProgram p).rowOf[pre.length]? = some i)
include h hi

/-- The dual value of a row whose slack may be any positive number is not negative. -/
theorem nonneg_of_slack (hslack : isSlack = true) : 0 ≤ z[i]?.getD 0 := by
  have hy : y.length = p.bounds.length := h.length_columns.trans (length_q_ofProgram p)
  obtain ⟨-, hbounds, hcones⟩ := (contains_slacks_iff p hy).mp h.feasible
  rw [hp, List.forall_mem_append, List.forall_mem_cons] at hcones
  have hrest : ∀ c ∈ pre ++ post, c.Holds y :=
    List.forall_mem_append.mpr ⟨hcones.1, hcones.2.2⟩
  refine nonneg_of_mul_sub_le (v := Row.slack y ⟨a, isSlack⟩)
    (d := dot z ((ofProgram p).slacks y)) fun t ht => ?_
  exact le_dot_slacks hp h.dual_feasible hi hy hbounds hrest (by simpa [hslack] using ht)

/-- Columns that satisfy all other constraints cost at least the dual value of the row times
its slack. -/
theorem le_dot_q {y' : List ℝ} (hy' : y'.length = p.bounds.length)
    (hbounds : ∀ e ∈ p.bounds.zip y', e.1.Holds e.2) (hrest : ∀ c ∈ pre ++ post, c.Holds y') :
    dot (ofProgram p).q y + z[i]?.getD 0 * Row.slack y' ⟨a, isSlack⟩ ≤ dot (ofProgram p).q y' := by
  have hle := le_dot_slacks hp h.dual_feasible hi hy' hbounds hrest (t := 0) (by simp)
  rw [sub_zero] at hle
  rw [h.dot_q_eq hy']
  exact add_le_add_right hle _

end StandardForm.PrimalDual

end Single

end LogConvex
