import Mathlib.LinearAlgebra.LinearIndependent.Basic
import LogConvex.Proofs.CanonicalForm
import LogConvex.Proofs.Reduced

/- Sums of terms as functions. Merging collects what a sum says about each product of powers:
   its coefficient there (`Terms.coefficientAt`), which does not depend on how the sum was
   written. So the two parts of a split are determined by these coefficients, up to the order
   of their terms (`Terms.parts_perm`). Over the reals the coefficients are determined by the
   values at positive points (`Terms.coefficientAt_eq_of_evaluate_eq`): in the logarithms of
   the variables, products of powers are different characters, and these are linearly
   independent. -/
namespace LogConvex

instance {κ : Type} [Key κ] : LawfulBEq (Sparse κ ℝ) where
  eq_of_beq := Sparse.eq_of_beq
  rfl {m} := beq_self_eq_true m.entries

namespace Terms

/-! ## Coefficients of products of powers -/

/-- What a term adds to the coefficient of a product of powers. -/
noncomputable def share (e : Sparse Variable ℝ) (t : Term ℝ) : ℝ :=
  if t.exponents == e then t.coefficient else 0

/-- The coefficient of a product of powers in a sum, in which it may occur several times. -/
noncomputable def coefficientAt (ts : Terms ℝ) (e : Sparse Variable ℝ) : ℝ :=
  (List.map (share e) ts).sum

theorem share_self (t : Term ℝ) : share t.exponents t = t.coefficient :=
  if_pos (beq_self_eq_true _)

theorem share_of_ne {e : Sparse Variable ℝ} {t : Term ℝ} (h : t.exponents ≠ e) : share e t = 0 :=
  if_neg fun hbeq => h (eq_of_beq hbeq)

@[simp] theorem coefficientAt_cons (t : Term ℝ) (ts : Terms ℝ) (e : Sparse Variable ℝ) :
    coefficientAt (t :: ts) e = share e t + coefficientAt ts e := by
  simp [coefficientAt]

@[simp] theorem coefficientAt_append (ts us : Terms ℝ) (e : Sparse Variable ℝ) :
    coefficientAt (ts ++ us) e = coefficientAt ts e + coefficientAt us e := by
  simp [coefficientAt]

@[simp] theorem coefficientAt_neg (ts : Terms ℝ) (e : Sparse Variable ℝ) :
    coefficientAt (neg ts) e = -coefficientAt ts e := by
  have hshare : ∀ t : Term ℝ, share e t.neg = -share e t := by
    intro t
    by_cases h : t.exponents == e <;> simp [share, Term.neg, Term.scale, h]
  simp [coefficientAt, neg, Function.comp_def, hshare, List.sum_neg]

theorem coefficientAt_eq_zero {ts : Terms ℝ} {e : Sparse Variable ℝ}
    (h : ∀ t ∈ ts, share e t = 0) : coefficientAt ts e = 0 := by
  apply List.sum_eq_zero
  intro a ha
  obtain ⟨t, ht, rfl⟩ := List.mem_map.mp ha
  exact h t ht

/-- A product of powers that does not occur has the coefficient zero. -/
theorem exists_of_coefficientAt_ne_zero {ts : Terms ℝ} {e : Sparse Variable ℝ}
    (h : coefficientAt ts e ≠ 0) : ∃ t ∈ ts, t.exponents = e := by
  by_contra hnone
  push Not at hnone
  exact h (coefficientAt_eq_zero fun t ht => share_of_ne (hnone t ht))

/-! ## Merging -/

theorem coefficientAt_merge (t : Term ℝ) (us : Terms ℝ) (e : Sparse Variable ℝ) :
    coefficientAt (merge t us) e = coefficientAt us e + share e t := by
  induction us with
  | nil => simp [merge, coefficientAt]
  | cons u us ih =>
    rw [merge]
    split
    · next h =>
      have hexponents : u.exponents = t.exponents := Sparse.eq_of_beq h
      rw [coefficientAt_cons, coefficientAt_cons]
      simp only [share, hexponents]
      split_ifs <;> ring
    · rw [coefficientAt_cons, ih, coefficientAt_cons, add_assoc]

/-- Merging like terms keeps every coefficient. -/
theorem coefficientAt_combine (ts : Terms ℝ) (e : Sparse Variable ℝ) :
    coefficientAt (combine ts) e = coefficientAt ts e := by
  rw [combine, view_foldl (fun us => coefficientAt us e) _ (share e)
    fun us t => coefficientAt_merge t us e]
  simp [coefficientAt]

theorem exists_of_mem_merge {t u : Term ℝ} {us : Terms ℝ} (h : u ∈ merge t us) :
    u.exponents = t.exponents ∨ ∃ u' ∈ us, u'.exponents = u.exponents := by
  induction us with
  | nil =>
    obtain rfl : u = t := by simpa [merge] using h
    exact .inl rfl
  | cons w us ih =>
    rw [merge] at h
    split at h
    · rcases List.mem_cons.mp h with rfl | h
      · exact .inr ⟨w, List.mem_cons_self, rfl⟩
      · exact .inr ⟨u, List.mem_cons_of_mem w h, rfl⟩
    · rcases List.mem_cons.mp h with rfl | h
      · exact .inr ⟨u, List.mem_cons_self, rfl⟩
      · rcases ih h with he | ⟨u', hu', he⟩
        · exact .inl he
        · exact .inr ⟨u', List.mem_cons_of_mem w hu', he⟩

/-- Merging brings in no exponents. -/
theorem exists_of_mem_combine {u : Term ℝ} {ts : Terms ℝ} (h : u ∈ combine ts) :
    ∃ t ∈ ts, t.exponents = u.exponents := by
  have hu := or_of_foldl (S := fun us : Terms ℝ => ∃ u' ∈ us, u'.exponents = u.exponents)
    (T := fun t : Term ℝ => t.exponents = u.exponents) (fun us t ⟨u', hu', he⟩ => by
      rcases exists_of_mem_merge hu' with hu' | ⟨u'', hu'', he''⟩
      · exact .inr (hu'.symm.trans he)
      · exact .inl ⟨u'', hu'', he''.trans he⟩) ⟨u, h, rfl⟩
  exact hu.resolve_left (by simp)

theorem reduced_neg {ts : Terms ℝ} (hts : ∀ t ∈ ts, t.Reduced) : ∀ t ∈ neg ts, t.Reduced :=
  List.forall_mem_map.mpr fun t ht => (hts t ht).scale (-1)

theorem reduced_merge {t : Term ℝ} (ht : t.Reduced) {us : Terms ℝ} (hus : ∀ u ∈ us, u.Reduced) :
    ∀ w ∈ merge t us, w.Reduced := by
  intro w hw
  rw [Term.Reduced]
  rcases exists_of_mem_merge hw with he | ⟨u, hu, he⟩
  · exact he ▸ ht
  · exact he ▸ hus u hu

theorem reduced_combine {ts : Terms ℝ} (hts : ∀ t ∈ ts, t.Reduced) :
    ∀ w ∈ combine ts, w.Reduced := by
  intro w hw
  rw [Term.Reduced]
  obtain ⟨t, ht, he⟩ := exists_of_mem_combine hw
  exact he ▸ hts t ht

/-- No two terms are alike. -/
def Distinct (ts : Terms ℝ) : Prop := ts.Pairwise fun t u => t.exponents ≠ u.exponents

theorem Distinct.merge {us : Terms ℝ} (h : Distinct us) (t : Term ℝ) : Distinct (merge t us) := by
  induction us with
  | nil => exact List.pairwise_singleton _ _
  | cons u us ih =>
    obtain ⟨hu, hus⟩ := List.pairwise_cons.mp h
    rw [Terms.merge]
    split
    · exact List.pairwise_cons.mpr ⟨hu, hus⟩
    · next hne =>
      refine List.pairwise_cons.mpr ⟨fun w hw he => ?_, ih hus⟩
      rcases exists_of_mem_merge hw with hw | ⟨w', hw', he'⟩
      · exact hne (beq_iff_eq.mpr (he.trans hw))
      · exact hu w' hw' (he.trans he'.symm)

theorem distinct_combine (ts : Terms ℝ) : Distinct (combine ts) :=
  List.foldlRecOn (motive := Distinct) ts _ .nil fun _ h t _ => h.merge t

namespace Distinct

variable {us : Terms ℝ} (h : Distinct us)
include h

theorem nodup : us.Nodup := h.imp fun hne he => hne (congrArg Term.exponents he)

theorem coefficientAt_of_mem {u : Term ℝ} (hu : u ∈ us) :
    coefficientAt us u.exponents = u.coefficient := by
  induction us with
  | nil => cases hu
  | cons w us ih =>
    obtain ⟨hw, hus⟩ := List.pairwise_cons.mp h
    rw [coefficientAt_cons]
    rcases List.mem_cons.mp hu with rfl | hu
    · rw [share_self, coefficientAt_eq_zero fun t ht => share_of_ne (hw t ht).symm, add_zero]
    · rw [share_of_ne (hw u hu), ih hus hu, zero_add]

end Distinct

/-- A term that is not zero is left by merging exactly if it has the whole coefficient of its
product of powers. -/
theorem mem_combine_iff {ts : Terms ℝ} {t : Term ℝ} (ht : t.coefficient ≠ 0) :
    t ∈ combine ts ↔ coefficientAt ts t.exponents = t.coefficient := by
  rw [← coefficientAt_combine]
  constructor
  · exact (distinct_combine ts).coefficientAt_of_mem
  · intro h
    obtain ⟨u, hu, he⟩ := exists_of_coefficientAt_ne_zero (h ▸ ht)
    have hcoefficient := (distinct_combine ts).coefficientAt_of_mem hu
    rw [he, h] at hcoefficient
    rwa [Term.ext hcoefficient he.symm]

/-! ## The parts of a split -/

theorem mem_positivePart_combine {ts : Terms ℝ} {t : Term ℝ} : t ∈ positivePart (combine ts) ↔
    0 < t.coefficient ∧ coefficientAt ts t.exponents = t.coefficient := by
  rw [positivePart, List.mem_filter, decide_eq_true_iff, and_comm]
  exact and_congr_right fun ht => mem_combine_iff ht.ne'

theorem mem_negativePart_combine {ts : Terms ℝ} {t : Term ℝ} : t ∈ negativePart (combine ts) ↔
    0 < t.coefficient ∧ coefficientAt ts t.exponents = -t.coefficient := by
  rw [negativePart_eq, positivePart, List.mem_filter, decide_eq_true_iff, mem_neg, and_comm]
  refine and_congr_right fun ht => ?_
  have hne : t.neg.coefficient ≠ 0 := by
    rw [Term.coefficient_neg]
    exact neg_ne_zero.mpr ht.ne'
  rw [mem_combine_iff hne, Term.coefficient_neg]
  rfl

/-- No part of a split has like terms. -/
theorem distinct_parts (ts : Terms ℝ) :
    Distinct (positivePart (combine ts)) ∧ Distinct (negativePart (combine ts)) :=
  ⟨(distinct_combine ts).filter _, List.pairwise_map.mpr ((distinct_combine ts).filter _)⟩

/-- No two terms of a split are alike, on whichever sides they are. -/
theorem distinct_split {ts p q : Terms ℝ} (h : split ts = .ok (p, q)) : Distinct (p ++ q) := by
  obtain ⟨rfl, rfl⟩ := split_cases h
  obtain ⟨hp, hq⟩ := distinct_parts ts
  refine List.pairwise_append.mpr ⟨hp, hq, fun t ht d hd => ?_⟩
  obtain ⟨ht, hpos⟩ := List.mem_filter.mp ht
  obtain ⟨u, hu, rfl⟩ := List.mem_map.mp hd
  obtain ⟨hu, hneg⟩ := List.mem_filter.mp hu
  -- the terms of both sides were merged, and these two have different signs
  have hne : t ≠ u := by
    rintro rfl
    simp [hpos] at hneg
  have hsymm : Std.Symm fun t u : Term ℝ => t.exponents ≠ u.exponents := ⟨fun _ _ => Ne.symm⟩
  show t.exponents ≠ u.exponents
  exact (distinct_combine ts).forall ht hu hne

/-- Sums with the same coefficients split into the same terms. -/
theorem parts_perm {ts us : Terms ℝ} (h : ∀ e, coefficientAt ts e = coefficientAt us e) :
    (positivePart (combine ts)).Perm (positivePart (combine us)) ∧
      (negativePart (combine ts)).Perm (negativePart (combine us)) := by
  constructor
  · rw [List.perm_ext_iff_of_nodup (distinct_parts ts).1.nodup (distinct_parts us).1.nodup]
    intro t
    rw [mem_positivePart_combine, mem_positivePart_combine, h]
  · rw [List.perm_ext_iff_of_nodup (distinct_parts ts).2.nodup (distinct_parts us).2.nodup]
    intro t
    rw [mem_negativePart_combine, mem_negativePart_combine, h]

end Terms

/-! ## Products of powers as characters

A product of powers turns sums of logarithms into products. Only the positions of the
variables show, so variables of one model are compared. -/

theorem Sparse.dot_fun_add {κ : Type} [Key κ] (m : Sparse κ ℝ) (f g : κ → ℝ) :
    (m.dot fun k => f k + g k) = m.dot f + m.dot g := by
  have h := m.dot_sub (fun k => f k + g k) g
  simp only [add_sub_cancel_right] at h
  linarith

/-- A product of powers, as a function of the logarithms of the variables. -/
noncomputable def Sparse.character (e : Sparse Variable ℝ) : Multiplicative (ℕ → ℝ) →* ℝ where
  toFun y := Real.exp (e.dot fun v => y.toAdd v.index)
  map_one' := by
    have hzero := e.dot_sub (fun _ => 0) fun _ => 0
    simp only [sub_zero] at hzero
    show Real.exp (e.dot fun _ => 0) = 1
    rw [Real.exp_eq_one_iff]
    linarith
  map_mul' y z := by
    show Real.exp (e.dot fun v => y.toAdd v.index + z.toAdd v.index) = _
    rw [Sparse.dot_fun_add, Real.exp_add]

/-- The exponents can be read off the function, one variable at a time. -/
theorem Sparse.Reduced.eq_of_character_eq {d e : Sparse Variable ℝ} (hd : d.Reduced)
    (he : e.Reduced) {id : ModelId} (hdo : ∀ v ∈ d.keys, v.owner = id)
    (heo : ∀ v ∈ e.keys, v.owner = id) (h : d.character = e.character) : d = e := by
  apply hd.ext he
  intro v
  -- the logarithm of the variable is one, those of all others are zero
  let y : ℕ → ℝ := fun i => if (⟨id, i⟩ : Variable) = v then 1 else 0
  have observe : ∀ m : Sparse Variable ℝ, (∀ w ∈ m.keys, w.owner = id) →
      m.weight v = m.dot fun w => y w.index := by
    intro m hm
    rw [m.weight_eq_dot (f := fun w => if w = v then 1 else 0) (if_pos rfl) fun _ hw => if_neg hw]
    apply dot_congr
    intro w hw
    have hw' : (⟨id, w.index⟩ : Variable) = w := by rw [← hm w hw]
    simp only [y, hw']
  rw [observe d hdo, observe e heo]
  exact Real.exp_injective (DFunLike.congr_fun h (Multiplicative.ofAdd y))

/-- The first variables at exponentials of given logarithms. -/
noncomputable def Point.ofLogarithms (n : ℕ) (y : ℕ → ℝ) : Point ℝ :=
  (List.range n).map fun i => Real.exp (y i)

theorem Point.positive_ofLogarithms (n : ℕ) (y : ℕ → ℝ) : (ofLogarithms n y).Positive := by
  intro a ha
  obtain ⟨i, _, rfl⟩ := List.mem_map.mp ha
  exact Real.exp_pos _

theorem Point.logValue_ofLogarithms {n : ℕ} (y : ℕ → ℝ) {v : Variable} (hv : v.index < n) :
    (ofLogarithms n y).logValue v = y v.index := by
  rw [logValue, value_eq (by simpa [ofLogarithms] using hv)]
  simp [ofLogarithms]

theorem Term.evaluate_ofLogarithms {n : ℕ} {t : Term ℝ}
    (ht : ∀ v ∈ t.exponents.keys, v.index < n) (y : ℕ → ℝ) :
    t.evaluate (Point.ofLogarithms n y) =
      t.coefficient * t.exponents.character (Multiplicative.ofAdd y) := by
  rw [t.evaluate_eq_exp (Point.positive_ofLogarithms n y)
    fun v hv => by simpa [Point.ofLogarithms] using ht v hv]
  congr 2
  exact Sparse.dot_congr fun v hv => Point.logValue_ofLogarithms y (ht v hv)

theorem Variable.exists_index_lt (vs : List Variable) : ∃ n, ∀ v ∈ vs, v.index < n := by
  induction vs with
  | nil => exact ⟨0, by simp⟩
  | cons u us ih =>
    obtain ⟨n, hn⟩ := ih
    refine ⟨max (u.index + 1) n, List.forall_mem_cons.mpr ⟨by omega, fun v hv => ?_⟩⟩
    have := hn v hv
    omega

namespace Terms

/-- Different products of powers are linearly independent: a sum that is zero at every positive
point of some length has no coefficient but zero. -/
theorem Distinct.coefficient_eq_zero {us : Terms ℝ} (h : Distinct us) {id : ModelId}
    (hreduced : ∀ t ∈ us, t.Reduced) (howner : ∀ v ∈ occurrences us, v.owner = id) {n : ℕ}
    (hn : ∀ v ∈ occurrences us, v.index < n)
    (hzero : ∀ x : Point ℝ, x.Positive → x.length = n → evaluate us x = 0) :
    ∀ t ∈ us, t.coefficient = 0 := by
  have hmem : ∀ i : Fin us.length, us[i] ∈ us := fun i => List.getElem_mem i.isLt
  have hkeys : ∀ t ∈ us, ∀ v ∈ t.exponents.keys, v ∈ occurrences us :=
    fun t ht v hv => mem_occurrences.mpr ⟨t, ht, hv⟩
  have hinjective : Function.Injective fun i : Fin us.length => us[i].exponents.character := by
    intro i j hij
    by_contra hne
    have hexponents : us[i].exponents = us[j].exponents :=
      Sparse.Reduced.eq_of_character_eq (hreduced _ (hmem i)) (hreduced _ (hmem j))
        (fun v hv => howner v (hkeys _ (hmem i) v hv))
        (fun v hv => howner v (hkeys _ (hmem j) v hv)) hij
    rcases Nat.lt_or_gt_of_ne (fun hval => hne (Fin.ext hval)) with hlt | hlt
    · exact List.pairwise_iff_getElem.mp h i j i.isLt j.isLt hlt hexponents
    · exact List.pairwise_iff_getElem.mp h j i j.isLt i.isLt hlt hexponents.symm
  have hindependent := (linearIndependent_monoidHom (Multiplicative (ℕ → ℝ)) ℝ).comp _ hinjective
  have hsum : ∑ i : Fin us.length, us[i].coefficient •
      (us[i].exponents.character : Multiplicative (ℕ → ℝ) → ℝ) = 0 := by
    funext y
    have hy := hzero (Point.ofLogarithms n y.toAdd) (Point.positive_ofLogarithms n _)
      (by simp [Point.ofLogarithms])
    rw [evaluate, Scalar.total_real, ← Fin.sum_univ_fun_getElem] at hy
    rw [Finset.sum_apply, Pi.zero_apply, ← hy]
    refine Finset.sum_congr rfl fun i _ => ?_
    exact (Term.evaluate_ofLogarithms (fun v hv => hn v (hkeys _ (hmem i) v hv)) y.toAdd).symm
  intro t ht
  obtain ⟨i, hi, rfl⟩ := List.getElem_of_mem ht
  exact Fintype.linearIndependent_iff.mp hindependent _ hsum ⟨i, hi⟩

/-- The coefficients of a sum are determined by its values at positive points, which may be long
enough for other variables as well. -/
theorem coefficientAt_eq_of_evaluate_eq {ts us : Terms ℝ} {id : ModelId}
    (hts : ∀ t ∈ ts, t.Reduced) (hus : ∀ u ∈ us, u.Reduced)
    (htso : ∀ v ∈ occurrences ts, v.owner = id) (huso : ∀ v ∈ occurrences us, v.owner = id)
    (vs : List Variable) (h : ∀ x : Point ℝ, x.Positive → x.Covers vs →
      evaluate ts x = evaluate us x) (e : Sparse Variable ℝ) :
    coefficientAt ts e = coefficientAt us e := by
  -- the difference vanishes, so nothing is left of it when like terms are merged
  have hreduced : ∀ w ∈ combine (ts ++ neg us), w.Reduced :=
    reduced_combine (List.forall_mem_append.mpr ⟨hts, reduced_neg hus⟩)
  have hoccurrences : ∀ v ∈ occurrences (combine (ts ++ neg us)),
      v ∈ occurrences ts ∨ v ∈ occurrences us := by
    intro v hv
    have hv := mem_occurrences_combine hv
    rw [occurrences, List.flatMap_append, List.mem_append] at hv
    exact hv.imp_right fun hv => occurrences_neg us ▸ hv
  obtain ⟨n, hn⟩ := Variable.exists_index_lt (vs ++ (occurrences ts ++ occurrences us))
  obtain ⟨hnv, hn⟩ := List.forall_mem_append.mp hn
  obtain ⟨hnt, hnu⟩ := List.forall_mem_append.mp hn
  have hzero : ∀ w ∈ combine (ts ++ neg us), w.coefficient = 0 := by
    refine (distinct_combine _).coefficient_eq_zero hreduced
      (fun v hv => (hoccurrences v hv).elim (htso v) (huso v))
      (fun v hv => (hoccurrences v hv).elim (hnt v) (hnu v)) fun x hx hlen => ?_
    rw [evaluate_combine, evaluate_append, evaluate_neg,
      h x hx fun v hv => (hnv v hv).trans_eq hlen.symm, add_neg_cancel]
  have hsum : coefficientAt (ts ++ neg us) e = 0 := by
    by_contra hne
    rw [← coefficientAt_combine] at hne
    obtain ⟨w, hw, rfl⟩ := exists_of_coefficientAt_ne_zero hne
    rw [(distinct_combine _).coefficientAt_of_mem hw] at hne
    exact hne (hzero w hw)
  rw [coefficientAt_append, coefficientAt_neg] at hsum
  linarith

end Terms

end LogConvex
