import Mathlib.Analysis.SpecialFunctions.Pow.Real
import LogConvex.Scalar

/- The exact reals as scalars. Theorems about what a definition means are theorems
   about it at this type: the power, logarithm and exponential are the real functions,
   nothing is rounded, and every number is finite. There is no undefined number among
   the reals, so a value that is absent is zero here; statements about values speak of
   points that have one for every variable that occurs. -/
namespace LogConvex

noncomputable instance : Scalar ℝ where
  decLt := inferInstance
  decLe := inferInstance
  pow x p := x ^ p
  exp := Real.exp
  log := Real.log
  sqrt := Real.sqrt
  isFinite _ := true
  isWhole x := decide (x - ⌊x⌋ = 0)
  missing := 0

namespace Scalar

@[simp] theorem pow_real (x p : ℝ) : Scalar.pow x p = x ^ p := rfl

@[simp] theorem exp_real (x : ℝ) : Scalar.exp x = Real.exp x := rfl

@[simp] theorem log_real (x : ℝ) : Scalar.log x = Real.log x := rfl

@[simp] theorem isFinite_real (x : ℝ) : Scalar.isFinite x = true := rfl

theorem isWhole_real {x : ℝ} : Scalar.isWhole x = true ↔ ∃ n : ℤ, x = n := by
  show decide (x - ⌊x⌋ = 0) = true ↔ _
  rw [decide_eq_true_iff, sub_eq_zero]
  constructor
  · exact fun h => ⟨⌊x⌋, h⟩
  · rintro ⟨n, rfl⟩
    rw [Int.floor_intCast]

@[simp] theorem missing_real : (Scalar.missing : ℝ) = 0 := rfl

/-- Where nothing is rounded, the order of a sum does not show. -/
@[simp] theorem total_real (xs : List ℝ) : Scalar.total xs = xs.sum := by
  rw [Scalar.total, neg_zero, List.sum_eq_foldl]

@[simp] theorem product_real (xs : List ℝ) : Scalar.product xs = xs.prod := by
  rw [Scalar.product, List.prod_eq_foldl]

theorem norm_nonneg (xs : List ℝ) : 0 ≤ norm xs := Real.sqrt_nonneg _

theorem norm_singleton (x : ℝ) : norm [x] = |x| := by
  show Real.sqrt (laneTotal [x * x]) = |x|
  rw [← Real.sqrt_mul_self_eq_abs]
  simp [laneTotal, lane, List.range_succ]

end Scalar

end LogConvex
