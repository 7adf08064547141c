import LogConvex.Proofs.Uniqueness

/- What a split is. Merging keeps one term for each product of powers, at the place where the
   product occurs first (`Terms.exponents_combine`), with all that the sum says about it
   (`Terms.combine_eq`), whatever the partial sums were on the way. So each part of a split is
   read off the input: which products it has, in which order, with which coefficients
   (`Terms.Gathers`). A sum that is a split already is split into itself. -/
namespace LogConvex

namespace Terms

/-! ## Products of powers in the order of a sum -/

/-- The products of powers that occur in a sum, each at the place where it occurs first. -/
noncomputable def products (ts : Terms ℝ) : List (Sparse Variable ℝ) :=
  (List.map Term.exponents ts).eraseDups

theorem mem_products {ts : Terms ℝ} {e : Sparse Variable ℝ} :
    e ∈ products ts ↔ ∃ t ∈ ts, t.exponents = e := by
  rw [products, List.mem_eraseDups, List.mem_map]

/-- A product that is there already keeps its place. -/
theorem exponents_merge_of_mem {t : Term ℝ} {us : Terms ℝ}
    (h : t.exponents ∈ List.map Term.exponents us) :
    List.map Term.exponents (merge t us) = List.map Term.exponents us := by
  induction us with
  | nil => simp at h
  | cons u us ih =>
    rw [merge]
    split
    · rfl
    · next hne =>
      have hu : u.exponents ≠ t.exponents := fun he => hne (beq_iff_eq.mpr he)
      have hus : t.exponents ∈ List.map Term.exponents us :=
        (List.mem_cons.mp h).resolve_left hu.symm
      rw [List.map_cons, ih hus, List.map_cons]

/-- A new product comes last. -/
theorem merge_of_not_mem {t : Term ℝ} {us : Terms ℝ}
    (h : t.exponents ∉ List.map Term.exponents us) : merge t us = us ++ [t] := by
  induction us with
  | nil => rfl
  | cons u us ih =>
    rw [List.map_cons, List.mem_cons, not_or] at h
    have hne : ¬ (u.exponents == t.exponents) = true := fun he => h.1 (beq_iff_eq.mp he).symm
    rw [merge, if_neg hne, ih h.2, List.cons_append]

theorem combine_concat (ts : Terms ℝ) (t : Term ℝ) :
    combine (ts ++ [t]) = merge t (combine ts) := by
  rw [combine, List.foldl_append, combine, List.foldl_cons, List.foldl_nil]

/-- Merging keeps the products of powers in the order in which they occur first. -/
theorem exponents_combine (ts : Terms ℝ) :
    List.map Term.exponents (combine ts) = products ts := by
  induction ts using List.reverseRecOn with
  | nil => simp [combine, products]
  | append_singleton ts t ih =>
    have hmem : t.exponents ∈ List.map Term.exponents (combine ts) ↔
        t.exponents ∈ List.map Term.exponents ts := by
      rw [ih, products, List.mem_eraseDups]
    rw [combine_concat, products, List.map_append, List.eraseDups_append, ← products, ← ih]
    by_cases h : t.exponents ∈ List.map Term.exponents (combine ts)
    · rw [exponents_merge_of_mem h]
      simp [List.removeAll, hmem.mp h]
    · rw [merge_of_not_mem h]
      have hnone : t.exponents ∉ List.map Term.exponents ts := fun ht => h (hmem.mpr ht)
      simp [List.removeAll, hnone, List.eraseDups_cons]

/-- A product of powers with all that a sum says about it. -/
noncomputable def gathered (w : Sparse Variable ℝ → ℝ) (e : Sparse Variable ℝ) : Term ℝ := ⟨w e, e⟩

/-- What merging leaves, from the coefficients alone. -/
theorem combine_eq (ts : Terms ℝ) :
    combine ts = List.map (gathered (coefficientAt ts)) (products ts) := by
  have hself : ∀ u ∈ combine ts, gathered (coefficientAt ts) u.exponents = u := by
    intro u hu
    rw [gathered, ← coefficientAt_combine, (distinct_combine ts).coefficientAt_of_mem hu]
  rw [← exponents_combine, List.map_map]
  exact ((List.map_congr_left hself).trans (List.map_id _)).symm

theorem nodup_products (ts : Terms ℝ) : (products ts).Nodup := by
  rw [← exponents_combine]
  exact List.pairwise_map.mpr (distinct_combine ts)

/-- Where no two terms are alike there is nothing to merge. -/
theorem Distinct.combine_eq {us : Terms ℝ} (h : Distinct us) : combine us = us := by
  induction us using List.reverseRecOn with
  | nil => rfl
  | append_singleton us t ih =>
    obtain ⟨hus, -, hcross⟩ := List.pairwise_append.mp h
    have hnone : t.exponents ∉ List.map Term.exponents us := by
      intro hmem
      obtain ⟨u, hu, he⟩ := List.mem_map.mp hmem
      exact hcross u hu t (List.mem_singleton_self t) he
    rw [combine_concat, ih hus, merge_of_not_mem hnone]

/-! ## What a part gathers -/

/-- A part gathers a sum by weight: it has the products of powers whose weight is positive, each
once, with the weight as its coefficient, in the order in which the sum has them first. -/
structure Gathers (ts : Terms ℝ) (w : Sparse Variable ℝ → ℝ) (p : Terms ℝ) : Prop where
  positive : ∀ t ∈ p, 0 < t.coefficient
  occurs : ∀ e, (∃ t ∈ p, t.exponents = e) ↔ 0 < w e
  once : ∀ e, 0 < w e → List.filter (fun t : Term ℝ => t.exponents == e) p = [⟨w e, e⟩]
  ordered : (List.map Term.exponents p).Sublist (List.map Term.exponents ts).eraseDups

/-- Where only what occurs in the sum has a weight, the part is found by looking at each product
of powers once. -/
theorem gathers_products {ts : Terms ℝ} {w : Sparse Variable ℝ → ℝ}
    (hw : ∀ e, 0 < w e → e ∈ products ts) :
    Gathers ts w (List.map (gathered w) ((products ts).filter fun e => decide (0 < w e))) := by
  have hmem : ∀ e, e ∈ (products ts).filter (fun e => decide (0 < w e)) ↔ 0 < w e := by
    intro e
    rw [List.mem_filter, decide_eq_true_iff]
    exact ⟨fun h => h.2, fun h => ⟨hw e h, h⟩⟩
  have hexponents : List.map Term.exponents
      (List.map (gathered w) ((products ts).filter fun e => decide (0 < w e))) =
        (products ts).filter fun e => decide (0 < w e) := by
    rw [List.map_map]
    exact List.map_id _
  refine ⟨?_, fun e => ?_, fun e he => ?_, ?_⟩
  · exact List.forall_mem_map.mpr fun e he => (hmem e).mp he
  · rw [← List.mem_map, hexponents, hmem]
  · have hcount : ((products ts).filter fun e => decide (0 < w e)).count e = 1 :=
      List.count_eq_one_of_mem ((nodup_products ts).filter _) ((hmem e).mpr he)
    rw [List.filter_map]
    show List.map (gathered w) (List.filter (fun d => d == e) _) = _
    rw [List.filter_beq, hcount]
    rfl
  · rw [hexponents]
    exact List.filter_sublist

theorem positivePart_gathered (w : Sparse Variable ℝ → ℝ) (es : List (Sparse Variable ℝ)) :
    positivePart (List.map (gathered w) es) =
      List.map (gathered w) (es.filter fun e => decide (0 < w e)) := by
  rw [positivePart, List.filter_map]
  rfl

theorem neg_gathered (w : Sparse Variable ℝ → ℝ) (es : List (Sparse Variable ℝ)) :
    neg (List.map (gathered w) es) = List.map (gathered fun e => -w e) es := by
  rw [neg, List.map_map]
  exact List.map_congr_left fun e _ => Term.ext (Term.coefficient_neg _) rfl

theorem mem_products_of_coefficientAt_ne_zero {ts : Terms ℝ} {e : Sparse Variable ℝ}
    (h : coefficientAt ts e ≠ 0) : e ∈ products ts :=
  mem_products.mpr (exists_of_coefficientAt_ne_zero h)

theorem gathers_positivePart (ts : Terms ℝ) :
    Gathers ts (coefficientAt ts) (positivePart (combine ts)) := by
  rw [combine_eq, positivePart_gathered]
  exact gathers_products fun _ he => mem_products_of_coefficientAt_ne_zero he.ne'

theorem gathers_negativePart (ts : Terms ℝ) :
    Gathers ts (fun e => -coefficientAt ts e) (negativePart (combine ts)) := by
  rw [negativePart_eq, combine_eq, neg_gathered, positivePart_gathered]
  exact gathers_products fun _ he => mem_products_of_coefficientAt_ne_zero (neg_pos.mp he).ne

/-! ## Splitting again -/

/-- The order of a sum does not show in its coefficients. -/
theorem coefficientAt_perm {ts us : Terms ℝ} (h : ts.Perm us) (e : Sparse Variable ℝ) :
    coefficientAt ts e = coefficientAt us e :=
  (h.map (share e)).sum_eq

theorem positivePart_of_pos {ts : Terms ℝ} (h : ∀ t ∈ ts, 0 < t.coefficient) :
    positivePart ts = ts :=
  List.filter_eq_self.mpr fun t ht => decide_eq_true (h t ht)

theorem positivePart_neg_of_pos {ts : Terms ℝ} (h : ∀ t ∈ ts, 0 < t.coefficient) :
    positivePart (neg ts) = [] := by
  refine List.filter_eq_nil_iff.mpr fun t ht => ?_
  have hneg : 0 < -t.coefficient := t.coefficient_neg ▸ h t.neg (mem_neg.mp ht)
  simpa using (neg_pos.mp hneg).le

/-- Two posynomials are the parts of their difference. -/
theorem parts_append_neg {p q : Terms ℝ} (hp : ∀ t ∈ p, 0 < t.coefficient)
    (hq : ∀ t ∈ q, 0 < t.coefficient) :
    positivePart (p ++ neg q) = p ∧ negativePart (p ++ neg q) = q := by
  have happend : ∀ ts us : Terms ℝ, positivePart (ts ++ us) = positivePart ts ++ positivePart us :=
    fun _ _ => List.filter_append _ _
  have hopposite : neg (p ++ neg q) = neg p ++ q := by
    rw [neg, List.map_append, ← neg, ← neg, Terms.neg_neg]
  constructor
  · rw [happend, positivePart_of_pos hp, positivePart_neg_of_pos hq, List.append_nil]
  · rw [negativePart_eq, hopposite, happend, positivePart_neg_of_pos hp, positivePart_of_pos hq,
      List.nil_append]

/-- A split is split into itself. -/
theorem split_append_neg {ts p q : Terms ℝ} (h : split ts = .ok (p, q)) :
    split (p ++ neg q) = .ok (p, q) := by
  have hdistinct : Distinct (p ++ neg q) := by
    obtain ⟨hp, hq, hcross⟩ := List.pairwise_append.mp (distinct_split h)
    exact List.pairwise_append.mpr ⟨hp, List.pairwise_map.mpr hq, fun t ht =>
      List.forall_mem_map.mpr fun u hu => hcross t ht u hu⟩
  obtain ⟨hp, hq⟩ := coefficient_pos_of_split h
  obtain ⟨hpositive, hnegative⟩ := parts_append_neg hp hq
  rw [split_eq, hdistinct.combine_eq, hpositive, hnegative]

/-- A sum splits into two reduced parts, whatever cancels or changes its sign on the way. Their
difference is the sum; the first has the products of powers whose coefficients add up to a
positive number, the second those with a negative one, each once and in the order in which they
occur first. So the order of the sum shows in that of the parts only, and the parts, put together
again, split into themselves. -/
theorem split_gathers (ts : Terms ℝ) : ∃ p q, split ts = .ok (p, q) ∧
    (∀ x : Point ℝ, evaluate p x - evaluate q x = evaluate ts x) ∧
    Gathers ts (coefficientAt ts) p ∧ Gathers ts (fun e => -coefficientAt ts e) q ∧
    (∀ us, ts.Perm us → ∃ p' q', split us = .ok (p', q') ∧ p.Perm p' ∧ q.Perm q') ∧
    split (p ++ neg q) = .ok (p, q) := by
  refine ⟨_, _, split_eq ts, evaluate_split (split_eq ts), gathers_positivePart ts,
    gathers_negativePart ts, fun us hperm => ?_, split_append_neg (split_eq ts)⟩
  obtain ⟨hp, hq⟩ := parts_perm (coefficientAt_perm hperm)
  exact ⟨_, _, split_eq us, hp, hq⟩

/-- The sum `x + 1 - x - x + y - 1 + x + x`. The coefficient of `x` changes its sign twice and the
number cancels. -/
noncomputable def swinging : Terms ℝ :=
  [⟨1, .single ⟨0, 0⟩ 1⟩, .constant 1, ⟨-1, .single ⟨0, 0⟩ 1⟩, ⟨-1, .single ⟨0, 0⟩ 1⟩,
    ⟨1, .single ⟨0, 1⟩ 1⟩, .constant (-1), ⟨1, .single ⟨0, 0⟩ 1⟩, ⟨1, .single ⟨0, 0⟩ 1⟩]

theorem split_swinging : split swinging =
    .ok ([⟨1, .single ⟨0, 0⟩ 1⟩, ⟨1, .single ⟨0, 1⟩ 1⟩], []) := by
  have h1 : ((.single ⟨0, 0⟩ 1 : Sparse Variable ℝ) == .empty) = false := rfl
  have h2 : ((.single ⟨0, 0⟩ 1 : Sparse Variable ℝ) == .single ⟨0, 1⟩ 1) = false := by
    rw [beq_eq_false_iff_ne]
    intro h
    simpa [Sparse.keys, Sparse.single] using congrArg Sparse.keys h
  have h3 : ((.empty : Sparse Variable ℝ) == .single ⟨0, 0⟩ 1) = false := rfl
  have h4 : ((.empty : Sparse Variable ℝ) == .single ⟨0, 1⟩ 1) = false := rfl
  norm_num [split_eq, swinging, combine, merge, Term.constant, h1, h2, h3, h4, positivePart,
    negativePart]

/-- Both products of powers that are left are in the first part, also of the sum in reverse. -/
theorem split_gathers_swinging :
    split swinging = .ok ([⟨1, .single ⟨0, 0⟩ 1⟩, ⟨1, .single ⟨0, 1⟩ 1⟩], []) ∧
      Gathers swinging (coefficientAt swinging)
        [⟨1, .single ⟨0, 0⟩ 1⟩, ⟨1, .single ⟨0, 1⟩ 1⟩] ∧
      ∃ p', split swinging.reverse = .ok (p', []) ∧
        [⟨1, .single ⟨0, 0⟩ 1⟩, ⟨1, .single ⟨0, 1⟩ 1⟩].Perm p' := by
  obtain ⟨p, q, hsplit, _, hp, _, hperm, _⟩ := split_gathers swinging
  rw [split_swinging] at hsplit
  obtain ⟨rfl, rfl⟩ := Prod.mk.inj (Except.ok.inj hsplit)
  obtain ⟨p', q', hsplit', hp', hq'⟩ := hperm swinging.reverse swinging.reverse_perm.symm
  obtain rfl := List.Perm.nil_eq hq'
  exact ⟨split_swinging, hp, p', hsplit', hp'⟩

end Terms

end LogConvex
