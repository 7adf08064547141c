import Mathlib
import LogConvex.Proofs.Laws

/- What arithmetic does to the finiteness of doubles. Adding a zero and changing the sign are
   the only operations on the way of a number into a form, and neither makes it finite or
   infinite (`ExactScalar`).

   For doubles this is about rounding. An operation computes a number with more bits than there
   is room for and rounds it. A double has its exponent already where rounding would put it
   (`Double.targetExponent_eq`), so a product with `-1`, which is the number times a power of two,
   is rounded back to it (`Double.roundWithAccuracy_mul_two_pow`). -/
namespace LogConvex

/-- Adding zero and changing the sign make no number finite or infinite. -/
class ExactScalar (R : Type) [Scalar R] : Prop where
  isFinite_zero : Scalar.isFinite (0 : R) = true
  isFinite_one : Scalar.isFinite (1 : R) = true
  zero_add_zero : (0 + 0 : R) = 0
  isFinite_zero_add : ∀ x : R, Scalar.isFinite (0 + x) = Scalar.isFinite x
  isFinite_add_zero : ∀ x : R, Scalar.isFinite (x + 0) = Scalar.isFinite x
  /-- The other zero of the doubles. -/
  isFinite_add_neg_zero : ∀ x : R, Scalar.isFinite (x + 0 * -1) = Scalar.isFinite x
  isFinite_mul_neg_one : ∀ x : R, Scalar.isFinite (x * -1) = Scalar.isFinite x

instance : ExactScalar ℝ where
  isFinite_zero := rfl
  isFinite_one := rfl
  zero_add_zero := add_zero 0
  isFinite_zero_add _ := rfl
  isFinite_add_zero _ := rfl
  isFinite_add_neg_zero _ := rfl
  isFinite_mul_neg_one _ := rfl

open Float.Model.UnpackedFloat
open Float.Model (UnpackedFloat Format totalExponent)

namespace Double

/-- The numbers that doubles unpack to. A finite one has as many bits in its mantissa as there is
room for, unless it has the least exponent. -/
inductive Representable : UnpackedFloat → Prop where
  | infinity (s : Sign) : Representable (.infinity s)
  | notANumber : Representable .notANumber
  | zero (s : Sign) : Representable (.zero s)
  | finite (s : Sign) {m : Nat} {e : Int} (hpos : 0 < m) (hm : m < 2 ^ 53) (hlow : -1074 ≤ e)
      (hhigh : e ≤ 971) (hfull : 2 ^ 52 ≤ m ∨ e = -1074) : Representable (.finite s m e hpos)

theorem representable_unpack (b : BitVec Format.binary64.numBits) :
    Representable (unpack Format.binary64 b) := by
  have hbias : Format.binary64.exponentBias = 1023 := rfl
  unfold unpack
  dsimp only
  split_ifs with hones hmantissa hzero hmantissa
  · exact .infinity _
  · exact .notANumber
  · exact .zero _
  · have hlt : (unpackMantissa b).toNat < 2 ^ 52 := (unpackMantissa b).isLt
    have hexponent : (unpackExponent b).toNat = 0 := by
      rw [hzero]
      rfl
    rw [hexponent, hbias]
    exact .finite _ _ (by omega) (by omega) (by omega) (.inr (by omega))
  · have hlt : (1#1 ++ unpackMantissa b).toNat < 2 ^ 53 := (1#1 ++ unpackMantissa b).isLt
    have hexponent : (unpackExponent b).toNat < 2048 := (unpackExponent b).isLt
    have hne0 : (unpackExponent b).toNat ≠ 0 := by
      intro h
      exact hzero (BitVec.eq_of_toNat_eq h)
    have hne1 : (unpackExponent b).toNat ≠ 2047 := by
      intro h
      exact hones (BitVec.eq_of_toNat_eq h)
    have hfull : 2 ^ 52 ≤ (1#1 ++ unpackMantissa b).toNat := by
      rw [BitVec.toNat_append]
      exact Nat.left_le_or
    rw [hbias]
    exact .finite _ _ hlt (by omega) (by omega) (.inl hfull)

/-! ## Finite numbers -/

/-- The number has a place among the doubles, not beyond the largest of them. -/
def Fits : UnpackedFloat → Prop
  | .finite _ _ e _ => e ≤ 971
  | .zero _ => True
  | .infinity _ | .notANumber => False

theorem Representable.fits_iff {u : UnpackedFloat} (h : Representable u) :
    Fits u ↔ u.isFinite = true := by
  cases h with
  | infinity | notANumber | zero => simp [Fits, UnpackedFloat.isFinite]
  | finite s hpos hm hlow hhigh hfull => simp [Fits, UnpackedFloat.isFinite, hhigh]

/-- What does not fit becomes infinite. -/
theorem isFinite_unpack_pack (u : UnpackedFloat) :
    (unpack Format.binary64 (pack Format.binary64 u)).isFinite = true ↔ Fits u := by
  have hfinite : ∀ b : BitVec Format.binary64.numBits,
      (unpack Format.binary64 b).isFinite = true ↔ unpackExponent b ≠ -1#_ := by
    intro b
    unfold unpack
    dsimp only
    split_ifs <;> simp_all [UnpackedFloat.isFinite]
  have hbias : Format.binary64.exponentBias = 1023 := rfl
  rw [hfinite]
  cases u with
  | infinity s => simp [pack, packedInfinity, Fits]
  | notANumber => simp [pack, packedNaN, Fits]
  | zero s => simp [pack, packedZero, Fits]
  | finite s m e h =>
    simp only [pack, Fits, hbias]
    split_ifs with hbig hnormal
    · rw [packedInfinity, unpackExponent_packComponents]
      simp
      omega
    · rw [unpackExponent_packComponents]
      simp [← BitVec.toNat_inj]
      omega
    · rw [unpackExponent_packComponents]
      simp
      omega

/-! ## Changing the sign -/

theorem shiftRight_exact (m k : Nat) :
    (⟨m * 2 ^ k, false, false⟩ : ExtendedMantissa) >>> k = ⟨m, false, false⟩ := by
  show k.repeat ExtendedMantissa.shiftRightOne _ = _
  induction k generalizing m with
  | zero => simp [Nat.repeat]
  | succ k ih =>
    have hstep : m * 2 ^ (k + 1) = m * 2 * 2 ^ k := by ring
    rw [Nat.repeat, hstep, ih]
    simp [ExtendedMantissa.shiftRightOne]

theorem totalExponent_mul_two_pow {m : Nat} (hpos : 0 < m) (e : Int) (k : Nat) :
    totalExponent (m * 2 ^ k) (e - k) = totalExponent m e := by
  have hlog : (m * 2 ^ k).log2 = m.log2 + k := by
    induction k with
    | zero => simp
    | succ k ih =>
      have hstep : m * 2 ^ (k + 1) = 2 * (m * 2 ^ k) := by ring
      rw [hstep, Nat.log2_two_mul (by positivity), ih, Nat.add_assoc]
  rw [totalExponent, totalExponent, hlog]
  omega

section Exact

variable {m : Nat} {e : Int} (hpos : 0 < m) (hm : m < 2 ^ 53) (hlow : -1074 ≤ e)
  (hfull : 2 ^ 52 ≤ m ∨ e = -1074)
include hpos hm hlow hfull

/-- Rounding would choose the exponent that a double has. -/
theorem targetExponent_eq : Format.binary64.targetExponent (totalExponent m e) = e := by
  have hbits : m.log2 < 53 := (Nat.log2_lt hpos.ne').mpr hm
  have hleast : Format.binary64.minExponent = -1074 := rfl
  have hsize : Format.binary64.mantissaBits = 53 := rfl
  rw [Format.targetExponent, totalExponent, hleast, hsize]
  rcases hfull with hfull | rfl
  · have hlog : 52 ≤ m.log2 := (Nat.le_log2 hpos.ne').mpr hfull
    omega
  · omega

/-- Rounding takes back a factor that is a power of two. -/
theorem roundWithAccuracy_mul_two_pow (s : Sign) (k : Nat) :
    roundWithAccuracy Format.binary64 s (m * 2 ^ k) (e - k) .exact = .finite s m e hpos := by
  have hshift : ∀ j : Nat, shiftToTargetExponent Format.binary64 (m * 2 ^ j) (e - j) .exact =
      (⟨m, false, false⟩, e) := by
    intro j
    have hcount : (e - (e - (j : Int))).toNat = j := by omega
    rw [shiftToTargetExponent, totalExponent_mul_two_pow hpos,
      targetExponent_eq hpos hm hlow hfull, shiftToExponent, hcount]
    refine Prod.ext (shiftRight_exact m j) ?_
    show e - (j : Int) + (j : Int) = e
    omega
  have hround : (⟨m, false, false⟩ : ExtendedMantissa).roundedMantissa = m := rfl
  have hagain : shiftToTargetExponent Format.binary64 m e .exact = (⟨m, false, false⟩, e) := by
    simpa using hshift 0
  simp [roundWithAccuracy, hshift, hround, hagain, hpos.ne']

end Exact

theorem Representable.fits_mul_neg_one {u : UnpackedFloat} (h : Representable u) :
    Fits (u.mul Format.binary64 (.finite .negative (2 ^ 52) (-52) (by decide))) ↔ Fits u := by
  cases h with
  | infinity | notANumber | zero => simp [Fits, UnpackedFloat.mul]
  | finite s hpos hm hlow hhigh hfull =>
    have hround := roundWithAccuracy_mul_two_pow hpos hm hlow hfull (s * .negative) 52
    rw [UnpackedFloat.mul]
    rw [Nat.cast_ofNat, ← Int.add_neg_eq_sub] at hround
    rw [hround]
    rfl

theorem fits_zero_add (s : Sign) (u : UnpackedFloat) :
    Fits (UnpackedFloat.add Format.binary64 (.zero s) u) ↔ Fits u := by
  cases u with
  | infinity | notANumber | finite => rfl
  | zero s' => cases s <;> cases s' <;> rfl

theorem fits_add_zero (s : Sign) (u : UnpackedFloat) :
    Fits (UnpackedFloat.add Format.binary64 u (.zero s)) ↔ Fits u := by
  cases u with
  | infinity | notANumber | finite => rfl
  | zero s' => cases s <;> cases s' <;> rfl

/-! ## Laws of doubles -/

theorem isFinite_iff_fits (x : Float) : x.isFinite = true ↔ Fits x.toModel.unpack :=
  (representable_unpack _).fits_iff.symm

/-- A result is finite if the number that is computed has a place among the doubles. -/
theorem isFinite_ofModel_pack (u : UnpackedFloat) :
    (Float.ofModel (.pack u)).isFinite = true ↔ Fits u :=
  isFinite_unpack_pack u

theorem isFinite_zero_add {z : Float} {s : Sign} (hz : z.toModel.unpack = .zero s) (x : Float) :
    (z + x).isFinite = x.isFinite := by
  rw [Bool.eq_iff_iff, isFinite_iff_fits x]
  refine (isFinite_ofModel_pack _).trans ?_
  rw [hz]
  exact fits_zero_add s _

theorem isFinite_add_zero {z : Float} {s : Sign} (hz : z.toModel.unpack = .zero s) (x : Float) :
    (x + z).isFinite = x.isFinite := by
  rw [Bool.eq_iff_iff, isFinite_iff_fits x]
  refine (isFinite_ofModel_pack _).trans ?_
  rw [hz]
  exact fits_add_zero s _

theorem isFinite_mul_neg_one {z : Float}
    (hz : z.toModel.unpack = .finite .negative (2 ^ 52) (-52) (by decide)) (x : Float) :
    (x * z).isFinite = x.isFinite := by
  rw [Bool.eq_iff_iff, isFinite_iff_fits x]
  refine (isFinite_ofModel_pack _).trans ?_
  rw [hz]
  exact (representable_unpack _).fits_mul_neg_one

end Double

instance : ExactScalar Float where
  isFinite_zero := by decide +kernel
  isFinite_one := by decide +kernel
  zero_add_zero := by decide +kernel
  isFinite_zero_add := Double.isFinite_zero_add (s := .positive) rfl
  isFinite_add_zero := Double.isFinite_add_zero (s := .positive) rfl
  isFinite_add_neg_zero := Double.isFinite_add_zero (s := .negative) rfl
  isFinite_mul_neg_one := Double.isFinite_mul_neg_one rfl

end LogConvex
