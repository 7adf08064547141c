import LogConvex.Proofs.Real
import LogConvex.Sparse

/- What a sparse family says to a linear observer: `dot m f` adds up the weights of `m`,
   each times the number that `f` gives to its key. The logarithm of a term and the value
   of an affine form are both a constant and such a sum. An update that adds to a weight
   adds to the sum (`dot_add`), whether or not it drops entries that become zero
   (`dot_addReduced`), so observers do not see which of the two was used. -/
namespace LogConvex

/-- What each step of a fold adds to a number, the fold adds in total. -/
theorem view_foldl {α β : Type} (view : α → ℝ) (step : α → β → α) (w : β → ℝ)
    (h : ∀ a b, view (step a b) = view a + w b) (bs : List β) (a : α) :
    view (bs.foldl step a) = view a + (bs.map w).sum := by
  induction bs generalizing a with
  | nil => simp
  | cons b bs ih => rw [List.foldl_cons, ih, h, List.map_cons, List.sum_cons, add_assoc]

/-- What shows at the end of a fold was there from the start, or came with an element. -/
theorem or_of_foldl {α β : Type} {S : α → Prop} {T : β → Prop} {step : α → β → α}
    (h : ∀ a b, S (step a b) → S a ∨ T b) {bs : List β} {a : α} (hS : S (bs.foldl step a)) :
    S a ∨ ∃ b ∈ bs, T b := by
  induction bs generalizing a with
  | nil => exact .inl hS
  | cons b bs ih =>
    rcases ih hS with hS | ⟨b', hb', hT⟩
    · exact (h a b hS).imp_right fun hT => ⟨b, List.mem_cons_self, hT⟩
    · exact .inr ⟨b', List.mem_cons_of_mem b hb', hT⟩

namespace Sparse

variable {κ : Type} [Key κ]

/-- The sum of the weights, each times the number that `f` gives to its key. -/
noncomputable def dot (m : Sparse κ ℝ) (f : κ → ℝ) : ℝ :=
  (m.entries.map fun e => e.2 * f e.1).sum

@[simp] theorem dot_empty (f : κ → ℝ) : (empty : Sparse κ ℝ).dot f = 0 := rfl

@[simp] theorem dot_single (k : κ) (w : ℝ) (f : κ → ℝ) : (single k w).dot f = w * f k := by
  simp [dot, single]

theorem dot_congr {m : Sparse κ ℝ} {f g : κ → ℝ} (h : ∀ k ∈ m.keys, f k = g k) :
    m.dot f = m.dot g := by
  unfold dot
  congr 1
  apply List.map_congr_left
  intro e he
  rw [h e.1 (List.mem_map_of_mem he)]

omit [Key κ] in
theorem sum_consEntry (k : κ) (w : Option ℝ) (es : List (κ × ℝ)) (f : κ → ℝ) :
    ((consEntry k w es).map fun e => e.2 * f e.1).sum =
      w.getD 0 * f k + (es.map fun e => e.2 * f e.1).sum := by
  cases w with
  | none => simp [consEntry]
  | some w => simp [consEntry]

/-- An update that adds `w` to the weight at `k`, an absent one counting as zero. -/
theorem dot_alter {u : Option ℝ → Option ℝ} {w : ℝ}
    (hu : ∀ old, (u old).getD 0 = old.getD 0 + w) (k : κ) (m : Sparse κ ℝ) (f : κ → ℝ) :
    (m.alter u k).dot f = m.dot f + w * f k := by
  show ((alterEntries u k m.entries).map _).sum = (m.entries.map _).sum + _
  induction m.entries with
  | nil => simp [alterEntries, sum_consEntry, hu]
  | cons e es ih =>
    obtain ⟨j, a⟩ := e
    rw [alterEntries]
    split
    · rw [sum_consEntry, hu]
      simp only [Option.getD_none, zero_add]
      ring
    · next hkj =>
      split
      · rw [List.map_cons, List.sum_cons, ih, List.map_cons, List.sum_cons, add_assoc]
      · next hjk =>
        -- neither key is below the other, so the entry found is the one at `k`
        have hk : k = j := Key.eq_of_not_lt hkj hjk
        rw [sum_consEntry, hu, List.map_cons, List.sum_cons, hk]
        simp only [Option.getD_some]
        ring

@[simp] theorem dot_add (m : Sparse κ ℝ) (k : κ) (w : ℝ) (f : κ → ℝ) :
    (m.add k w).dot f = m.dot f + w * f k :=
  dot_alter (fun _ => rfl) k m f

@[simp] theorem dot_addReduced (m : Sparse κ ℝ) (k : κ) (w : ℝ) (f : κ → ℝ) :
    (m.addReduced k w).dot f = m.dot f + w * f k := by
  refine dot_alter (fun old => ?_) k m f
  by_cases h : old.getD 0 + w = 0 <;> simp [h]

theorem dot_sub (m : Sparse κ ℝ) (f g : κ → ℝ) :
    (m.dot fun k => f k - g k) = m.dot f - m.dot g := by
  unfold dot
  induction m.entries with
  | nil => simp
  | cons e es ih =>
    simp only [List.map_cons, List.sum_cons, ih]
    ring

theorem dot_mul_right (m : Sparse κ ℝ) (f : κ → ℝ) (c : ℝ) :
    (m.dot fun k => f k * c) = m.dot f * c := by
  unfold dot
  rw [← List.sum_map_mul_right]
  simp only [mul_assoc]

theorem dot_map_mul (m : Sparse κ ℝ) (c : ℝ) (f : κ → ℝ) :
    (m.map (· * c)).dot f = m.dot f * c := by
  simp only [dot, map, List.map_map]
  rw [← List.sum_map_mul_right]
  congr 1
  apply List.map_congr_left
  intro e _
  simp only [Function.comp]
  ring

/-- A weight is what an observer sees that looks at one key only. -/
theorem weight_eq_dot (m : Sparse κ ℝ) {k : κ} {f : κ → ℝ}
    (hk : f k = 1) (hne : ∀ j, j ≠ k → f j = 0) : m.weight k = m.dot f := by
  obtain ⟨es, hs⟩ := m
  unfold weight get? dot
  induction es with
  | nil => rfl
  | cons e es ih =>
    obtain ⟨hlt, hs⟩ := List.pairwise_cons.mp hs
    by_cases he : e.1 = k
    · have hrest : (es.map fun e => e.2 * f e.1).sum = 0 := by
        apply List.sum_eq_zero
        intro a ha
        obtain ⟨d, hd, rfl⟩ := List.mem_map.mp ha
        have hdk : d.1 ≠ k := fun hdk => Key.irrefl k (by simpa [he, hdk] using hlt d hd)
        rw [hne d.1 hdk, mul_zero]
      simp [he, hk, hrest]
    · simpa [List.find?_cons, he, hne e.1 he] using ih hs

/-! ## Keys -/

/-- An update of one key brings in no other. -/
theorem mem_keys_alter {R : Type} {u : Option R → Option R} {j k : κ} {m : Sparse κ R}
    (h : k ∈ (m.alter u j).keys) : k = j ∨ k ∈ m.keys := by
  obtain ⟨e, he, rfl⟩ := List.mem_map.mp h
  exact (mem_alterEntries he).imp_right List.mem_map_of_mem

/-! ## Entries -/

section Entries

variable {R : Type}

theorem ext_entries {m n : Sparse κ R} (h : m.entries = n.entries) : m = n := by
  obtain ⟨es, hs⟩ := m
  obtain ⟨es', hs'⟩ := n
  obtain rfl : es = es' := h
  rfl

/-- An entry is what is stored at its key. -/
theorem get?_of_mem {m : Sparse κ R} {e : κ × R} (he : e ∈ m.entries) : m.get? e.1 = some e.2 := by
  obtain ⟨es, hs⟩ := m
  unfold get?
  induction es with
  | nil => cases he
  | cons d es ih =>
    obtain ⟨hlt, hs⟩ := List.pairwise_cons.mp hs
    rcases List.mem_cons.mp he with rfl | he
    · simp
    · have hne : d.1 ≠ e.1 := by
        intro h
        have hself := hlt e he
        rw [h] at hself
        exact Key.irrefl _ hself
      simpa [List.find?_cons, hne] using ih hs he

theorem mem_of_get? {m : Sparse κ R} {k : κ} {w : R} (h : m.get? k = some w) :
    (k, w) ∈ m.entries := by
  obtain ⟨e, he, rfl⟩ := Option.map_eq_some_iff.mp h
  obtain rfl : e.1 = k := by simpa using List.find?_some he
  exact List.mem_of_find?_eq_some he

theorem get?_eq_none_iff {m : Sparse κ R} {k : κ} : m.get? k = none ↔ k ∉ m.keys := by
  constructor
  · intro h hk
    obtain ⟨e, he, rfl⟩ := List.mem_map.mp hk
    rw [get?_of_mem he] at h
    cases h
  · intro hk
    cases h : m.get? k with
    | none => rfl
    | some w => exact absurd (List.mem_map_of_mem (mem_of_get? h)) hk

theorem get?_cons {e : κ × R} {es : List (κ × R)}
    (hs : (e :: es).Pairwise fun a b => a.1 < b.1) (k : κ) :
    (⟨e :: es, hs⟩ : Sparse κ R).get? k =
      if e.1 = k then some e.2 else (⟨es, (List.pairwise_cons.mp hs).2⟩ : Sparse κ R).get? k := by
  by_cases h : e.1 = k <;> simp [get?, h]

/-- An entry is the only one at its key. -/
theorem filter_eq_singleton {m : Sparse κ R} {e : κ × R} (he : e ∈ m.entries)
    {p : κ × R → Bool} (hp : p e = true) (hkey : ∀ d, p d = true → d.1 = e.1) :
    m.entries.filter p = [e] := by
  obtain ⟨pre, post, h⟩ := List.append_of_mem he
  have hs := m.sorted
  rw [h, List.pairwise_append, List.pairwise_cons] at hs
  obtain ⟨-, ⟨hpost, -⟩, hpre⟩ := hs
  have hne : ∀ d : κ × R, d.1 < e.1 ∨ e.1 < d.1 → ¬ p d = true := by
    intro d hd hpd
    rw [hkey d hpd, or_self] at hd
    exact Key.irrefl _ hd
  rw [h, List.filter_append, List.filter_cons_of_pos hp,
    List.filter_eq_nil_iff.mpr fun d hd => hne d (.inl (hpre d hd e List.mem_cons_self)),
    List.filter_eq_nil_iff.mpr fun d hd => hne d (.inr (hpost d hd)), List.nil_append]

theorem get?_consEntry {k : κ} {es : List (κ × R)} (hk : ∀ e ∈ es, k < e.1) (w : Option R)
    (j : κ) : ((consEntry k w es).find? fun e => decide (e.1 = j)).map (·.2) =
      if j = k then w else (es.find? fun e => decide (e.1 = j)).map (·.2) := by
  have hnone : (es.find? fun e => decide (e.1 = k)) = none := by
    rw [List.find?_eq_none]
    intro e he heq
    have hlt := hk e he
    rw [of_decide_eq_true heq] at hlt
    exact Key.irrefl _ hlt
  by_cases hj : j = k
  · subst hj
    cases w <;> simp [consEntry, hnone]
  · cases w <;> simp [consEntry, hj, Ne.symm hj]

/-- What an update stores, at its own key and elsewhere. -/
theorem get?_alter (f : Option R → Option R) (k j : κ) (m : Sparse κ R) :
    (m.alter f k).get? j = if j = k then f (m.get? k) else m.get? j := by
  obtain ⟨es, hs⟩ := m
  show ((alterEntries f k es).find? _).map _ =
    if j = k then f ((es.find? _).map _) else (es.find? _).map _
  induction es with
  | nil => exact get?_consEntry (by simp) (f none) j
  | cons e es ih =>
    obtain ⟨i, v⟩ := e
    obtain ⟨hlt, hs⟩ := List.pairwise_cons.mp hs
    rw [alterEntries]
    split
    · next hki =>
      have hall : ∀ e ∈ (i, v) :: es, k < e.1 :=
        List.forall_mem_cons.mpr ⟨hki, fun e he => Key.trans hki (hlt e he)⟩
      -- nothing is stored at `k` yet
      have hnone := get?_consEntry hall none k
      rw [if_pos rfl] at hnone
      rw [get?_consEntry hall]
      exact (congrArg (fun w => if j = k then f w else _) hnone).symm
    · next hki =>
      split
      · next hik =>
        have hne : i ≠ k := by
          rintro rfl
          exact hki hik
        by_cases hj : i = j
        · subst hj
          simp [hne]
        · simp [hj, hne, ih hs]
      · next hik =>
        obtain rfl : k = i := Key.eq_of_not_lt hki hik
        rw [get?_consEntry hlt]
        by_cases hj : j = k
        · simp [hj]
        · simp [hj, Ne.symm hj]

theorem get?_map {S : Type} (f : R → S) (k : κ) (m : Sparse κ R) :
    (m.map f).get? k = (m.get? k).map f := by
  simp [get?, map, List.find?_map, Function.comp_def]

end Entries

/-- A key beyond all others is updated at the end. -/
theorem alterEntries_of_forall_lt {κ R : Type} [Key κ] {f : Option R → Option R} {k : κ}
    {es : List (κ × R)} (h : ∀ e ∈ es, e.1 < k) :
    alterEntries f k es = es ++ consEntry k (f none) [] := by
  induction es with
  | nil => rfl
  | cons e es ih =>
    obtain ⟨he, hes⟩ := List.forall_mem_cons.mp h
    have hnot : ¬ k < e.1 := fun hlt => Key.irrefl _ (Key.trans he hlt)
    rw [alterEntries, if_neg hnot, if_pos he, ih hes, List.cons_append]

/-- Updates at keys that go up are made at the end, one behind the other. -/
theorem entries_foldl_alter {κ κ' R S : Type} [Key κ'] {f : κ → κ'}
    {u : κ × R → Option S → Option S} {g : κ × R → S} (hu : ∀ e, u e none = some (g e))
    (acc : Sparse κ' S) {es : List (κ × R)} (hes : es.Pairwise fun a b => f a.1 < f b.1)
    (hacc : ∀ d ∈ acc.entries, ∀ e ∈ es, d.1 < f e.1) :
    (es.foldl (fun acc e => acc.alter (u e) (f e.1)) acc).entries =
      acc.entries ++ es.map fun e => (f e.1, g e) := by
  induction es generalizing acc with
  | nil => simp
  | cons e es ih =>
    obtain ⟨he, hes⟩ := List.pairwise_cons.mp hes
    have hstep : (acc.alter (u e) (f e.1)).entries = acc.entries ++ [(f e.1, g e)] := by
      refine (alterEntries_of_forall_lt fun d hd => hacc d hd e List.mem_cons_self).trans ?_
      rw [hu]
      rfl
    rw [List.foldl_cons, ih _ hes, hstep, List.map_cons, List.append_assoc, List.singleton_append]
    intro d hd e' he'
    rw [hstep] at hd
    rcases List.mem_append.mp hd with hd | hd
    · exact hacc d hd e' (List.mem_cons_of_mem e he')
    · obtain rfl := List.mem_singleton.mp hd
      exact he e' he'

/-- Families that are found equal store the same. -/
theorem eq_of_beq {m n : Sparse κ ℝ} (h : (m == n) = true) : m = n := by
  obtain ⟨es, hs⟩ := m
  obtain ⟨es', hs'⟩ := n
  have : es = es' := LawfulBEq.eq_of_beq (α := List (κ × ℝ)) h
  subst this
  rfl

end Sparse

end LogConvex
