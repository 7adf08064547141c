import LogConvex.Lowering
import LogConvex.Proofs.Laws
import LogConvex.Proofs.StandardForm

/- Which columns the cones of a bound by one mention, and how. A term brings in the columns of
   its variables. A bound of several terms has a new column for each term, which is bounded
   below by the exponential of the term and is a summand of the last cone; no other cone of
   the bound mentions it (`auxiliary_atMostOne`). This is not about the values of numbers, so
   it holds for any scalars. -/
namespace LogConvex

variable {R : Type} [Scalar R]

/-! ## Columns of forms -/

theorem Term.mem_columns_logAffine {t : Term R} {c : Nat} (h : c ∈ t.logAffine.columns) :
    ∃ v ∈ t.exponents.keys, v.index = c := by
  have hc := or_of_foldl (S := fun a : Affine R => c ∈ a.columns)
    (T := fun e : Variable × R => e.1.index = c)
    (fun a e hc => (Affine.mem_columns_addTerm hc).symm.imp_right Eq.symm) h
  obtain ⟨e, he, hindex⟩ := hc.resolve_left (by simp)
  exact ⟨e.1, List.mem_map_of_mem he, hindex⟩

/-- Each column of a sum has been added to zero once. -/
theorem Block.get?_columnSum (first count c : Nat) :
    (columnSum first count : Affine R).coefficients.get? c =
      if first ≤ c ∧ c < first + count then some (0 + 1) else none := by
  induction count with
  | zero =>
    rw [if_neg (by omega)]
    rfl
  | succ count ih =>
    have hstep : (columnSum first (count + 1) : Affine R) =
        (columnSum first count).add (.column (first + count)) := by
      rw [columnSum, List.range_succ, List.foldl_append]
      rfl
    have hcolumn : (Affine.column (first + count) : Affine R).coefficients.get? c =
        if first + count = c then some 1 else none := by
      by_cases h : first + count = c <;> simp [Affine.column, Sparse.single, Sparse.get?, h]
    rw [hstep, Affine.get?_add, ih, hcolumn]
    by_cases h : first + count = c
    · rw [if_pos h, if_neg (by omega), if_pos (by omega)]
      rfl
    · rw [if_neg h]
      by_cases hc : first ≤ c ∧ c < first + count
      · rw [if_pos hc, if_pos (by omega)]
        rfl
      · rw [if_neg hc, if_neg (by omega)]
        rfl

namespace Cone

/-- The constraints that mention a column. -/
def mentioning (u : Nat) (cs : List (Cone R)) : List (Cone R) :=
  cs.filter fun c => decide (u ∈ c.columns)

/-- Two of the constraints mention the column: an exponential cone of which it is the third
form, and a form in which it has the coefficient minus one. -/
def Auxiliary (u : Nat) (cs : List (Cone R)) : Prop :=
  ∃ x y a w, mentioning u cs = [.exponential x y (.column u), .nonneg a] ∧
    u ∉ x.columns ∧ u ∉ y.columns ∧
    a.coefficients.get? u = some w ∧ (LawfulScalar R → w = -1)

end Cone

/-! ## Bounds by one -/

namespace Block

/-- The cones of a bound by one that are for one term each. -/
def exponentials (first : Nat) (shift : Affine R) (ts : Terms R) : List (Cone R) :=
  ts.mapIdx fun k t => .exponential (t.logAffine.add shift) (.scalar 1) (.column (first + k))

/-- What is left of one when the new columns are taken away. -/
def remainder (first count : Nat) : Affine R :=
  (Affine.scalar 1).add (columnSum first count).neg

theorem atMostOne_cases (first : Nat) (shift : Affine R) (ts : Terms R) :
    (∃ t, ts = [t] ∧ atMostOne first shift ts = ⟨0, [.nonneg (t.logAffine.add shift).neg]⟩) ∨
      atMostOne first shift ts =
        ⟨ts.length, exponentials first shift ts ++ [.nonneg (remainder first ts.length)]⟩ := by
  unfold atMostOne
  split
  · next t => exact .inl ⟨t, rfl, rfl⟩
  · exact .inr rfl

theorem exponentials_cons (first : Nat) (shift : Affine R) (t : Term R) (ts : Terms R) :
    exponentials first shift (t :: ts) =
      .exponential (t.logAffine.add shift) (.scalar 1) (.column first) ::
        exponentials (first + 1) shift ts := by
  rw [exponentials, List.mapIdx_cons, exponentials]
  congr 2
  funext k u
  rw [Nat.add_right_comm, Nat.add_assoc]

theorem get?_remainder (first count c : Nat) :
    (remainder first count : Affine R).coefficients.get? c =
      if first ≤ c ∧ c < first + count then some (0 + (0 + 1) * -1) else none := by
  have hneg : (columnSum first count : Affine R).neg.coefficients.get? c =
      ((columnSum first count : Affine R).coefficients.get? c).map (· * -1) :=
    Sparse.get?_map _ _ _
  rw [remainder, Affine.get?_add, hneg, get?_columnSum]
  split <;> rfl

theorem mem_columns_remainder {first count c : Nat} :
    c ∈ (remainder first count : Affine R).columns ↔ first ≤ c ∧ c < first + count := by
  rw [← not_iff_not, ← Affine.get?_eq_none_iff, get?_remainder]
  simp

/-- The coefficient of a new column in the remainder. -/
theorem minusOne_eq [LawfulScalar R] : (0 + (0 + 1) * -1 : R) = -1 := by
  rw [LawfulScalar.zero_add_one, LawfulScalar.one_mul_neg_one, LawfulScalar.zero_add_neg_one]

section Mentioned

variable {first : Nat} {shift : Affine R} {ts : Terms R}

theorem mem_columns_shifted {t : Term R} (ht : t ∈ ts) {c : Nat}
    (hc : c ∈ (t.logAffine.add shift).columns) :
    (∃ v ∈ Terms.occurrences ts, v.index = c) ∨ c ∈ shift.columns := by
  refine (Affine.mem_columns_add hc).imp_left fun h => ?_
  obtain ⟨v, hv, hindex⟩ := Term.mem_columns_logAffine h
  exact ⟨v, List.mem_flatMap.mpr ⟨t, ht, hv⟩, hindex⟩

/-- The cones of a bound by one mention columns of the variables, those that are in the shift,
and the new ones. -/
theorem mem_columns_atMostOne {k : Cone R} (hk : k ∈ (atMostOne first shift ts).cones) {c : Nat}
    (hc : c ∈ k.columns) : (∃ v ∈ Terms.occurrences ts, v.index = c) ∨ c ∈ shift.columns ∨
      c ∈ List.range' first (atMostOne first shift ts).columns := by
  rw [← or_assoc]
  rcases atMostOne_cases first shift ts with ⟨t, rfl, hblock⟩ | hblock
  · rw [hblock] at hk
    obtain rfl := List.mem_singleton.mp hk
    left
    apply mem_columns_shifted List.mem_cons_self
    simpa [Cone.columns] using hc
  · rw [hblock] at hk ⊢
    rcases List.mem_append.mp hk with hk | hk
    · obtain ⟨i, hi, rfl⟩ := List.mem_mapIdx.mp hk
      simp only [Cone.columns, Affine.columns_scalar, Affine.columns_column, List.append_nil,
        List.mem_append, List.mem_singleton] at hc
      refine hc.imp (mem_columns_shifted (List.getElem_mem hi)) ?_
      rintro rfl
      show first + i ∈ List.range' first ts.length
      rw [List.mem_range'_1]
      omega
    · obtain rfl := List.mem_singleton.mp hk
      right
      exact List.mem_range'_1.mpr (mem_columns_remainder.mp hc)

/-- A column behind those of the variables is in the cone of one term, if it is one of the new
columns. -/
theorem mentioning_exponentials {u : Nat} (hvars : ∀ v ∈ Terms.occurrences ts, v.index ≠ u)
    (hshift : u ∉ shift.columns) :
    (u < first → Cone.mentioning u (exponentials first shift ts) = []) ∧
      (first ≤ u ∧ u < first + ts.length → ∃ x, u ∉ x.columns ∧
        Cone.mentioning u (exponentials first shift ts) =
          [.exponential x (.scalar 1) (.column u)]) := by
  induction ts generalizing first with
  | nil =>
    refine ⟨fun _ => rfl, fun h => ?_⟩
    rw [List.length_nil] at h
    omega
  | cons t ts ih =>
    have hx : u ∉ (t.logAffine.add shift).columns := by
      intro hu
      rcases mem_columns_shifted List.mem_cons_self hu with ⟨v, hv, hindex⟩ | hu
      · exact hvars v hv hindex
      · exact hshift hu
    have hrest : ∀ v ∈ Terms.occurrences ts, v.index ≠ u := by
      intro v hv
      exact hvars v (by
        rw [Terms.occurrences, List.flatMap_cons]
        exact List.mem_append_right _ hv)
    obtain ⟨hbelow, hamong⟩ := @ih (first + 1) hrest
    -- the cone of `t` mentions the first of the new columns
    have hhead : decide (u ∈ (Cone.exponential (t.logAffine.add shift) (.scalar 1)
        (.column first)).columns) = decide (u = first) := by
      simp [Cone.columns, hx]
    rw [exponentials_cons, Cone.mentioning, List.filter_cons, hhead]
    constructor
    · intro h
      rw [if_neg (by simp; omega)]
      exact hbelow (by omega)
    · rintro ⟨hle, hlt⟩
      rw [List.length_cons] at hlt
      by_cases hu : u = first
      · refine ⟨_, hx, ?_⟩
        rw [if_pos (by simp [hu]), hu]
        exact congrArg _ (hu ▸ hbelow (by omega))
      · rw [if_neg (by simp [hu])]
        exact hamong (by omega)

/-- A new column is an auxiliary column of its block. -/
theorem auxiliary_atMostOne {u : Nat} (hvars : ∀ v ∈ Terms.occurrences ts, v.index ≠ u)
    (hshift : u ∉ shift.columns)
    (hu : u ∈ List.range' first (atMostOne first shift ts).columns) :
    Cone.Auxiliary u (atMostOne first shift ts).cones := by
  rcases atMostOne_cases first shift ts with ⟨t, rfl, hblock⟩ | hblock
  · rw [hblock] at hu
    cases hu
  · rw [hblock] at hu ⊢
    have hrange := List.mem_range'_1.mp hu
    have hget := get?_remainder (R := R) first ts.length u
    rw [if_pos hrange] at hget
    have hmem : u ∈ (remainder first ts.length : Affine R).columns :=
      mem_columns_remainder.mpr hrange
    obtain ⟨x, hx, hcones⟩ := (mentioning_exponentials hvars hshift).2 hrange
    refine ⟨x, .scalar 1, _, _, ?_, hx, List.not_mem_nil, hget, fun _ => minusOne_eq⟩
    rw [Cone.mentioning, List.filter_append]
    have hlast : decide (u ∈ (Cone.nonneg (remainder first ts.length : Affine R)).columns) = true :=
      decide_eq_true hmem
    rw [List.filter_cons, hlast]
    exact congrArg (· ++ _) hcones

end Mentioned

end Block

end LogConvex
