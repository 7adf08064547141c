import LogConvex.Proofs.Real
import LogConvex.Lowering

/- Accepted declarations over the reals. Every number in one is positive, and so is the
   default lower bound; hence whatever a declaration admits is positive, and the bounds of
   a logarithm say exactly what the declaration says (`Declaration.holds_logBounds`). -/
namespace LogConvex

namespace Declaration

theorem defaultLower_pos : (0 : ℝ) < defaultLower := by
  unfold defaultLower
  norm_num

section Accepted

variable {R : Type} [Scalar R] {d : Declaration R} (hd : d.fault? = none)
include hd

/-- Every number that an accepted declaration gives is finite and positive. -/
theorem admissible {x : R} (hx : d.lower = some x ∨ d.upper = some x ∨ d.fixed = some x ∨
    d.start = some x) : Scalar.isFinite x = true ∧ 0 < x := by
  obtain ⟨which, hmem⟩ : ∃ which, (which, x) ∈ d.given := by
    rcases hx with h | h | h | h
    · exact ⟨.lower, by simp [given, h]⟩
    · exact ⟨.upper, by simp [given, h]⟩
    · exact ⟨.fixed, by simp [given, h]⟩
    · exact ⟨.start, by simp [given, h]⟩
  unfold fault? at hd
  split_ifs at hd
  split at hd
  · simp at hd
  · next hfind =>
    have h := List.find?_eq_none.mp hfind _ hmem
    simpa [isAdmissible] using h

theorem bounds_of_fixed (hfixed : d.fixed.isSome = true) : d.lower = none ∧ d.upper = none := by
  unfold fault? at hd
  split at hd
  · cases hd
  · next h =>
    simp only [hfixed, Bool.true_and, Bool.or_eq_true, not_or, Bool.not_eq_true,
      Option.isSome_eq_false_iff, Option.isNone_iff_eq_none] at h
    exact h

theorem not_lt_effectiveLower {u : R} (hu : d.upper = some u) : ¬ u < d.effectiveLower := by
  unfold fault? at hd
  split at hd
  · cases hd
  · split at hd
    · cases hd
    · simpa [hu] using hd

end Accepted

variable {d : Declaration ℝ}

theorem fixed_pos (hd : d.fault? = none) {v : ℝ} (h : d.fixed = some v) : 0 < v :=
  (admissible hd (.inr (.inr (.inl h)))).2

theorem start_pos (hd : d.fault? = none) {v : ℝ} (h : d.start = some v) : 0 < v :=
  (admissible hd (.inr (.inr (.inr h)))).2

theorem lower_pos (hd : d.fault? = none) {l : ℝ} (h : d.lower = some l) : 0 < l :=
  (admissible hd (.inl h)).2

theorem upper_pos (hd : d.fault? = none) {u : ℝ} (h : d.upper = some u) : 0 < u :=
  (admissible hd (.inr (.inl h))).2

theorem effectiveLower_pos (hd : d.fault? = none) : 0 < d.effectiveLower := by
  unfold effectiveLower
  cases h : d.lower with
  | none => exact defaultLower_pos
  | some l => exact lower_pos hd h

/-- An accepted declaration admits positive values only. -/
theorem pos_of_admits (hd : d.fault? = none) {a : ℝ} (h : d.Admits a) : 0 < a := by
  unfold Admits at h
  split at h
  · next v hv =>
    rw [h]
    exact fixed_pos hd hv
  · exact (effectiveLower_pos hd).trans_le h.1

/-- A first linearization point is positive. -/
theorem seed_pos (hd : d.fault? = none) : 0 < d.seed := by
  unfold seed
  cases hf : d.fixed with
  | some v => exact fixed_pos hd hf
  | none =>
    cases hs : d.start with
    | some v => exact start_pos hd hs
    | none =>
      cases hl : d.lower with
      | none =>
        cases hu : d.upper with
        | none => exact one_pos
        | some u => exact upper_pos hd hu
      | some l =>
        cases hu : d.upper with
        | none => exact lower_pos hd hl
        | some u =>
          have half : (0 : ℝ) < 0.5 := by norm_num
          exact mul_pos half (add_pos (lower_pos hd hl) (upper_pos hd hu))

/-- The bounds of the logarithm of a variable are those of the variable. -/
theorem holds_logBounds (hd : d.fault? = none) (b : ℝ) :
    d.logBounds.Holds b ↔ d.Admits (Real.exp b) := by
  unfold logBounds Admits
  cases hf : d.fixed with
  | some v =>
    have hv : 0 < v := fixed_pos hd hf
    have he : b = Real.log v ↔ Real.exp b = v := by
      constructor
      · rintro rfl
        exact Real.exp_log hv
      · rintro rfl
        exact (Real.log_exp b).symm
    simp only [ColumnBounds.fixed, ColumnBounds.Holds, Option.mem_def, Option.some.injEq,
      forall_eq', Scalar.log_real]
    rw [← he, ← le_antisymm_iff, eq_comm]
  | none =>
    have hl : Real.log d.effectiveLower ≤ b ↔ d.effectiveLower ≤ Real.exp b :=
      Real.log_le_iff_le_exp (effectiveLower_pos hd)
    have hu : ∀ u ∈ d.upper, b ≤ Real.log u ↔ Real.exp b ≤ u :=
      fun u hu => Real.le_log_iff_exp_le (upper_pos hd hu)
    simp only [ColumnBounds.Holds, effectiveUpper, Option.mem_def, Option.some.injEq, forall_eq',
      Scalar.log_real, hl]
    refine and_congr_right fun _ => ?_
    cases h : d.upper with
    | none => simp
    | some u => simpa using hu u h

/-! ## Lists of declarations -/

/-- The point has a value for each declaration, which admits it, and no others. -/
def AdmitsAll (ds : List (Declaration ℝ)) (x : List ℝ) : Prop :=
  List.Forall₂ Admits ds x

variable {ds : List (Declaration ℝ)} (hds : ∀ d ∈ ds, d.fault? = none)
include hds

theorem AdmitsAll.pos {x : List ℝ} (h : AdmitsAll ds x) : ∀ a ∈ x, 0 < a := by
  induction h with
  | nil => simp
  | cons ha _ ih =>
    rw [List.forall_mem_cons] at hds ⊢
    exact ⟨pos_of_admits hds.1 ha, ih hds.2⟩

/-- Logarithms within their bounds are those of values that the declarations admit. -/
theorem admitsAll_exp_iff {ys : List ℝ} (hlen : ys.length = ds.length) :
    AdmitsAll ds (ys.map Real.exp) ↔
      ∀ e ∈ (ds.map (·.logBounds)).zip ys, e.1.Holds e.2 := by
  induction ds generalizing ys with
  | nil => simp [AdmitsAll, List.length_eq_zero_iff.mp hlen]
  | cons d ds ih =>
    obtain ⟨b, ys, rfl⟩ := List.exists_cons_of_length_eq_add_one hlen
    rw [List.forall_mem_cons] at hds
    simp only [AdmitsAll, List.map_cons, List.forall₂_cons, List.zip_cons_cons,
      List.forall_mem_cons, holds_logBounds hds.1]
    exact and_congr_right fun _ => ih hds.2 (by simpa using hlen)

end Declaration

end LogConvex
