import LogConvex.Declaration
import LogConvex.Proofs.Real

/- Laws of numbers. Most of what programs, models and their histories are made of says nothing
   about arithmetic, so it holds for any type of scalars. What is left needs a few laws that
   rounding does not break: minus one is what it seems to be, and finite numbers can be
   compared. They hold of the exact reals and of the doubles alike. For the doubles the first
   ones are computed, and the comparison is read off signs, exponents and mantissas. -/
namespace LogConvex

/-- Laws that no rounding breaks. -/
class LawfulScalar (R : Type) [Scalar R] : Prop where
  zero_add_one : (0 + 1 : R) = 1
  one_mul_neg_one : (1 * -1 : R) = -1
  zero_add_neg_one : (0 + -1 : R) = -1
  le_of_not_lt : ∀ {a b : R}, Scalar.isFinite a = true → Scalar.isFinite b = true →
    ¬ b < a → a ≤ b
  isFinite_defaultLower : Scalar.isFinite (Declaration.defaultLower : R) = true

instance : LawfulScalar ℝ where
  zero_add_one := zero_add 1
  one_mul_neg_one := one_mul (-1)
  zero_add_neg_one := zero_add (-1)
  le_of_not_lt _ _ h := not_lt.mp h
  isFinite_defaultLower := rfl

/-! ## Doubles -/

open Float.Model

/-- Finite doubles are comparable, and it does not matter which of them comes first. -/
theorem exists_compare {a b : UnpackedFloat} (ha : a.isFinite = true) (hb : b.isFinite = true) :
    ∃ o, a.compare b = some o ∧ b.compare a = some o.swap := by
  cases a with
  | notANumber | infinity s => cases ha
  | zero s =>
    cases b with
    | notANumber | infinity t => cases hb
    | zero t => exact ⟨.eq, rfl, rfl⟩
    | finite t n f hn => cases t <;> exact ⟨_, rfl, rfl⟩
  | finite s m e hm =>
    cases b with
    | notANumber | infinity t => cases hb
    | zero t => cases s <;> exact ⟨_, rfl, rfl⟩
    | finite t n f hn =>
      have hswap : (compare f e).then (compare n m) =
          ((compare e f).then (compare m n)).swap := by
        have hexponents : compare f e = (compare e f).swap := Std.OrientedCmp.eq_swap
        have hmantissas : compare n m = (compare m n).swap := Std.OrientedCmp.eq_swap
        rw [Ordering.swap_then, hexponents, hmantissas]
      -- only numbers of the same sign are compared by size, negative ones the other way round
      cases s <;> cases t
      · exact ⟨_, rfl, congrArg (fun o : Ordering => some o.swap) hswap⟩
      · exact ⟨_, rfl, rfl⟩
      · exact ⟨_, rfl, rfl⟩
      · exact ⟨_, rfl, congrArg some hswap⟩

theorem le_of_not_lt_float {a b : Float} (ha : a.isFinite = true) (hb : b.isFinite = true)
    (h : ¬ b < a) : a ≤ b := by
  obtain ⟨o, hab, hba⟩ := exists_compare (a := a.toModel.unpack) (b := b.toModel.unpack) ha hb
  have hlt : ¬ b.toModel.unpack.lt a.toModel.unpack = true := by
    intro hlt
    exact h (decide_eq_true hlt)
  have hle : a.toModel.unpack.le b.toModel.unpack = true := by
    rw [UnpackedFloat.lt, hba] at hlt
    rw [UnpackedFloat.le, hab]
    cases o with
    | lt | eq => rfl
    | gt => exact absurd rfl hlt
  exact decide_eq_true hle

instance : LawfulScalar Float where
  zero_add_one := by decide +kernel
  one_mul_neg_one := by decide +kernel
  zero_add_neg_one := by decide +kernel
  le_of_not_lt := le_of_not_lt_float
  isFinite_defaultLower := by decide +kernel

end LogConvex
