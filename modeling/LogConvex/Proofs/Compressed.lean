import LogConvex.Proofs.Matrix
import LogConvex.Proofs.Reduced

/- Matrices of triplets and their compressed form. Assembling drops what lies outside, and what is
   stored at a place is the sum of the triplets there, if there are any
   (`Matrix.get?_ofTriplets_eq`). A matrix is known by what it stores (`Matrix.ext_get?`), so
   the order of the triplets does not show, nor does it show whether an empty list was treated
   apart (`Matrix.ofLists_eq`).

   The compressed form lays the columns one behind the other. Column `j` lies between two
   neighbouring offsets (`Matrix.slice_stored`), so the lists of rows and numbers, cut there, are
   the rows and numbers of the columns. -/
namespace LogConvex

namespace Matrix

variable {R : Type}

/-! ## What is stored -/

theorem foldl_elim_add (vs : List ℝ) (old : Option ℝ) :
    vs.foldl (fun old v => some (old.elim v (· + v))) old =
      if vs = [] then old else some (old.getD 0 + vs.sum) := by
  induction vs generalizing old with
  | nil => rfl
  | cons v vs ih =>
    have hfirst : old.elim v (· + v) = old.getD 0 + v := by cases old <;> simp
    rw [List.foldl_cons, ih, hfirst, if_neg (List.cons_ne_nil v vs), List.sum_cons, ← add_assoc]
    by_cases hvs : vs = []
    · simp [hvs]
    · rw [if_neg hvs, Option.getD_some]

/-- A place stores the sum of its triplets, and nothing if it has none. -/
theorem get?_ofTriplets_eq (rows cols : Nat) (ts : List (Triplet ℝ)) (i j : Nat) :
    get? (ofTriplets rows cols ts) i j = if placed rows cols ts i j = [] then none
      else some (placed rows cols ts i j).sum := by
  rw [get?_ofTriplets_eq_foldl, foldl_elim_add, Option.getD_none, zero_add]

/-- Matrices of the same shape that store the same are equal. -/
theorem ext_get? {a b : Matrix R} (hrows : a.rows = b.rows)
    (hcolumns : a.columns.length = b.columns.length)
    (h : ∀ i j, a.get? i j = b.get? i j) : a = b := by
  obtain ⟨rows, as⟩ := a
  obtain ⟨_, bs⟩ := b
  obtain rfl : rows = _ := hrows
  congr 1
  apply List.ext_getElem hcolumns
  intro j ha hb
  apply Sparse.ext_get?
  intro i
  simpa [get?, ha, hb] using h i j

/-! ## The compressed form -/

/-- Everything that is stored, column by column. -/
def stored (a : Matrix R) : List (Nat × R) := a.columns.flatMap (·.entries)

/-- How much is stored before a column. -/
def start (a : Matrix R) (j : Nat) : Nat := ((a.columns.take j).flatMap (·.entries)).length

theorem rowIndices_eq (a : Matrix R) : a.rowIndices = a.stored.map (·.1) := by
  simp [rowIndices, stored, Sparse.keys, List.map_flatMap]

theorem values_eq (a : Matrix R) : a.values = a.stored.map (·.2) := by
  simp [values, stored, List.map_flatMap]

theorem offsets_eq (a : Matrix R) :
    a.offsets = (List.range (a.columns.length + 1)).map a.start := by
  have hfold : ∀ (cs : List (Sparse Nat R)) (n : Nat),
      cs.foldl (fun n c => n + c.entries.length) n = n + (cs.flatMap (·.entries)).length := by
    intro cs
    induction cs with
    | nil => simp
    | cons c cs ih =>
      intro n
      rw [List.foldl_cons, ih, List.flatMap_cons, List.length_append, Nat.add_assoc]
  apply List.ext_getElem
  · simp [offsets]
  · intro j hj _
    simp [offsets, List.getElem_scanl, hfold, start]

theorem start_le (a : Matrix R) {j k : Nat} (h : j ≤ k) : a.start j ≤ a.start k :=
  ((List.take_sublist_take_left h).flatMap _).length_le

theorem offsets_eq_some_iff {a : Matrix R} {j n : Nat} :
    a.offsets[j]? = some n ↔ j ≤ a.columns.length ∧ a.start j = n := by
  rw [List.getElem?_eq_some_iff]
  simp only [offsets_eq, List.length_map, List.length_range, List.getElem_map, List.getElem_range,
    exists_prop, Nat.lt_succ_iff]

/-- The entries of a column lie where the offsets say. -/
theorem slice_stored {a : Matrix R} {j : Nat} {c : Sparse Nat R} (h : a.columns[j]? = some c) :
    a.start (j + 1) = a.start j + c.entries.length ∧
      (a.stored.drop (a.start j)).take c.entries.length = c.entries := by
  obtain ⟨hj, rfl⟩ := List.getElem?_eq_some_iff.mp h
  constructor
  · rw [start, List.take_succ_eq_append_getElem hj, List.flatMap_append, List.length_append, start]
    simp
  · have hsplit : a.stored = (a.columns.take j).flatMap (·.entries) ++
        (a.columns[j].entries ++ (a.columns.drop (j + 1)).flatMap (·.entries)) := by
      rw [← List.flatMap_cons, ← List.drop_eq_getElem_cons hj, ← List.flatMap_append,
        List.take_append_drop, stored]
    rw [hsplit, start, List.drop_left, List.take_left]

theorem getElem?_stored {a : Matrix R} {j : Nat} {c : Sparse Nat R} (h : a.columns[j]? = some c)
    {m : Nat} (hm : m < c.entries.length) : a.stored[a.start j + m]? = c.entries[m]? := by
  conv_rhs => rw [← (slice_stored h).2]
  rw [List.getElem?_take_of_lt hm, List.getElem?_drop]

/-- The compressed form of a matrix: where the columns start and end, counted from zero to the
number of what is stored, rows that go up within a column, and what is stored at a place, read off
the three lists. -/
structure Compressed (a : Matrix R) (rows cols : Nat) : Prop where
  rows_eq : a.rows = rows
  length_columns : a.columns.length = cols
  length_offsets : a.offsets.length = cols + 1
  first_offset : a.offsets[0]? = some 0
  last_offset : a.offsets[cols]? = some a.values.length
  offsets_le : a.offsets.Pairwise (· ≤ ·)
  length_rowIndices : a.rowIndices.length = a.values.length
  rowIndices_lt : ∀ i ∈ a.rowIndices, i < rows
  ascending : ∀ j lo hi, a.offsets[j]? = some lo → a.offsets[j + 1]? = some hi →
    ((a.rowIndices.drop lo).take (hi - lo)).Pairwise (· < ·)
  get?_iff : ∀ i j v, a.get? i j = some v ↔ ∃ lo hi k, a.offsets[j]? = some lo ∧
    a.offsets[j + 1]? = some hi ∧ lo ≤ k ∧ k < hi ∧ a.rowIndices[k]? = some i ∧
      a.values[k]? = some v

theorem get?_eq_some_iff {a : Matrix R} {i j : Nat} {v : R} : a.get? i j = some v ↔
    ∃ c, a.columns[j]? = some c ∧ (i, v) ∈ c.entries := by
  rw [get?, Option.bind_eq_some_iff]
  constructor
  · rintro ⟨c, hc, hv⟩
    exact ⟨c, hc, Sparse.mem_of_get? hv⟩
  · rintro ⟨c, hc, hv⟩
    exact ⟨c, hc, Sparse.get?_of_mem hv⟩

/-- A matrix whose columns keep to its rows has a compressed form. -/
theorem compressed_of_lt {a : Matrix R} (h : ∀ c ∈ a.columns, ∀ i ∈ c.keys, i < a.rows) :
    a.Compressed a.rows a.columns.length where
  rows_eq := rfl
  length_columns := rfl
  length_offsets := by rw [offsets_eq, List.length_map, List.length_range]
  first_offset := offsets_eq_some_iff.mpr ⟨Nat.zero_le _, rfl⟩
  last_offset := by
    rw [offsets_eq_some_iff, start, List.take_length, values_eq, List.length_map, stored]
    exact ⟨le_rfl, rfl⟩
  offsets_le := by
    rw [offsets_eq, List.pairwise_map]
    exact List.pairwise_lt_range.imp fun hlt => a.start_le hlt.le
  length_rowIndices := by rw [rowIndices_eq, values_eq, List.length_map, List.length_map]
  rowIndices_lt := by
    intro i hi
    obtain ⟨c, hc, hi⟩ := List.mem_flatMap.mp hi
    exact h c hc i hi
  ascending := by
    intro j lo hi hlo hhi
    obtain ⟨-, rfl⟩ := offsets_eq_some_iff.mp hlo
    obtain ⟨hj, rfl⟩ := offsets_eq_some_iff.mp hhi
    have hc : a.columns[j]? = some a.columns[j] := List.getElem?_eq_getElem hj
    obtain ⟨hnext, hslice⟩ := slice_stored hc
    rw [rowIndices_eq, ← List.map_drop, ← List.map_take, hnext, Nat.add_sub_cancel_left, hslice,
      List.pairwise_map]
    exact (a.columns[j]).sorted
  get?_iff := by
    intro i j v
    rw [get?_eq_some_iff]
    constructor
    · rintro ⟨c, hc, hv⟩
      obtain ⟨hj, -⟩ := List.getElem?_eq_some_iff.mp hc
      obtain ⟨m, hm, hget⟩ := List.getElem_of_mem hv
      have hstored : a.stored[a.start j + m]? = some (i, v) := by
        rw [getElem?_stored hc hm, List.getElem?_eq_getElem hm, hget]
      refine ⟨a.start j, a.start (j + 1), a.start j + m, offsets_eq_some_iff.mpr ⟨hj.le, rfl⟩,
        offsets_eq_some_iff.mpr ⟨hj, rfl⟩, Nat.le_add_right _ _, ?_, ?_, ?_⟩
      · rw [(slice_stored hc).1]
        omega
      · rw [rowIndices_eq, List.getElem?_map, hstored, Option.map_some]
      · rw [values_eq, List.getElem?_map, hstored, Option.map_some]
    · rintro ⟨lo, hi, k, hlo, hhi, hle, hlt, hrow, hvalue⟩
      obtain ⟨-, rfl⟩ := offsets_eq_some_iff.mp hlo
      obtain ⟨hj, rfl⟩ := offsets_eq_some_iff.mp hhi
      have hc : a.columns[j]? = some a.columns[j] := List.getElem?_eq_getElem hj
      obtain ⟨m, rfl⟩ := Nat.exists_eq_add_of_le hle
      have hm : m < a.columns[j].entries.length := by
        have := (slice_stored hc).1
        omega
      have hget := (getElem?_stored hc hm).trans (List.getElem?_eq_getElem hm)
      rw [rowIndices_eq, List.getElem?_map, hget, Option.map_some, Option.some.injEq] at hrow
      rw [values_eq, List.getElem?_map, hget, Option.map_some, Option.some.injEq] at hvalue
      have hentry : a.columns[j].entries[m] = (i, v) := Prod.ext hrow hvalue
      exact ⟨_, hc, hentry ▸ List.getElem_mem hm⟩

/-! ## Assembling -/

theorem compressed_ofTriplets [Add R] (rows cols : Nat) (ts : List (Triplet R)) :
    (ofTriplets rows cols ts).Compressed rows cols := by
  have hlt : ∀ c ∈ (ofTriplets rows cols ts).columns, ∀ i ∈ c.keys, i < rows := by
    intro c hc i hi
    obtain ⟨j, -, rfl⟩ := List.mem_map.mp hc
    have hrow := or_of_foldl (S := fun m : Sparse Nat R => i ∈ m.keys)
      (T := fun t : Triplet R => i = t.row) (fun m t h => (Sparse.mem_keys_alter h).symm) hi
    obtain ⟨t, ht, rfl⟩ := hrow.resolve_left List.not_mem_nil
    exact of_decide_eq_true (List.mem_filter.mp (List.mem_filter.mp ht).1).2
  have h := compressed_of_lt hlt
  rw [show (ofTriplets rows cols ts).columns.length = cols by simp [ofTriplets]] at h
  exact h

/-- The order of triplets does not show in what they add up to. -/
theorem ofTriplets_perm {ts us : List (Triplet ℝ)} (h : ts.Perm us) (rows cols : Nat) :
    ofTriplets rows cols ts = ofTriplets rows cols us := by
  refine ext_get? rfl (by simp [ofTriplets]) fun i j => ?_
  have hplaced : (placed rows cols ts i j).Perm (placed rows cols us i j) :=
    (h.filter _).map _
  rw [get?_ofTriplets_eq, get?_ofTriplets_eq, hplaced.sum_eq]
  simp only [List.eq_nil_iff_length_eq_zero, hplaced.length_eq]

theorem apply_ofTriplets (rows : Nat) (ts : List (Triplet ℝ)) (x : List ℝ) :
    LinearSystem.apply (ofTriplets rows x.length ts).toRows x = (List.range rows).map fun i =>
      ((ts.filter fun t => decide ((t.row < rows ∧ t.col < x.length) ∧ t.row = i)).map fun t =>
        t.value * x[t.col]?.getD 0).sum := by
  rw [LinearSystem.apply, toRows, List.map_map]
  apply List.map_congr_left
  intro i hi
  have hi : i < rows := List.mem_range.mp hi
  rw [Function.comp_apply, dot_row_ofTriplets ts hi, sum_map_filter, sum_map_filter]
  congr 1
  apply List.map_congr_left
  intro t _
  -- a triplet beyond the last column meets a number that counts as zero
  by_cases ht : t.row = i
  · by_cases hc : t.col < x.length
    · simp [ht, hi, hc, Affine.columnValue]
    · simp [ht, hc, Affine.columnValue]
  · simp [ht]

theorem ofTriplets_nil [Add R] (rows cols : Nat) :
    ofTriplets rows cols ([] : List (Triplet R)) = zeros rows cols := by
  simp [ofTriplets, zeros, List.map_const']

/-- Where the first list is empty, there are no triplets that could be put in order. -/
theorem ofLists_eq [Add R] (rows cols : Nat) (is js : List Nat) (vs : List R) :
    ofLists rows cols is js vs = ofTriplets rows cols (triplets is js vs) := by
  unfold ofLists
  split
  · next h =>
    obtain rfl := List.isEmpty_iff.mp h
    exact (ofTriplets_nil rows cols).symm
  · rfl

/-- Assembling a matrix from three lists loses and invents nothing. The result has a compressed
form of the given shape, whatever the lengths of the lists; what it stores at a place is the sum of
the triplets inside the matrix that are there, and it stores nothing where there are none; times a
vector it gives what the triplets give, row by row. The order of the triplets does not show, and
the result is that of the triplets also if there are none. -/
theorem ofLists_exact (rows cols : Nat) (is js : List Nat) (vs : List ℝ) :
    (ofLists rows cols is js vs).Compressed rows cols ∧
      (∀ i j, get? (ofLists rows cols is js vs) i j =
        if placed rows cols (triplets is js vs) i j = [] then none
        else some (placed rows cols (triplets is js vs) i j).sum) ∧
      (∀ x : List ℝ, x.length = cols →
        LinearSystem.apply (ofLists rows cols is js vs).toRows x =
          (List.range rows).map fun i => (((triplets is js vs).filter fun t =>
            decide ((t.row < rows ∧ t.col < cols) ∧ t.row = i)).map fun t =>
              t.value * x[t.col]?.getD 0).sum) ∧
      (∀ is' js' vs', (triplets is' js' vs').Perm (triplets is js vs) →
        ofLists rows cols is' js' vs' = ofLists rows cols is js vs) ∧
      ofLists rows cols is js vs = ofTriplets rows cols (triplets is js vs) := by
  refine ⟨?_, ?_, ?_, ?_, ofLists_eq rows cols is js vs⟩
  all_goals simp only [ofLists_eq]
  · exact compressed_ofTriplets rows cols _
  · exact get?_ofTriplets_eq rows cols _
  · rintro x rfl
    exact apply_ofTriplets rows _ x
  · exact fun _ _ _ h => ofTriplets_perm h rows cols

/-- Four triplets and a column number too many, for a matrix with two rows and columns: two of the
triplets cancel, and one is outside. -/
theorem ofLists_exact_cancelling :
    let a := ofLists 2 2 [1, 0, 1, 5] [1, 0, 1, 0, 9] [(2 : ℝ), 3, -2, 1]
    get? a 1 1 = some 0 ∧ get? a 0 1 = none ∧ LinearSystem.apply a.toRows [1, 1] = [3, 0] ∧
      ofLists 2 2 [5, 1, 0, 1] [0, 1, 0, 1] [1, -2, 3, 2] = a ∧
      ofLists 2 2 [] [1] [(7 : ℝ)] = ofTriplets 2 2 [] := by
  intro a
  obtain ⟨_, hentry, happly, hperm, _⟩ :=
    ofLists_exact 2 2 [1, 0, 1, 5] [1, 0, 1, 0, 9] [2, 3, -2, 1]
  obtain ⟨_, _, _, _, hempty⟩ := ofLists_exact 2 2 [] [1] [7]
  have hreverse : (triplets [5, 1, 0, 1] [0, 1, 0, 1] [(1 : ℝ), -2, 3, 2]).Perm
      (triplets [1, 0, 1, 5] [1, 0, 1, 0, 9] [2, 3, -2, 1]) :=
    List.reverse_perm (triplets [1, 0, 1, 5] [1, 0, 1, 0, 9] [2, 3, -2, 1])
  refine ⟨?_, ?_, ?_, hperm _ _ _ hreverse, hempty⟩
  · rw [hentry]
    simp [placed, triplets]
  · rw [hentry]
    simp [placed, triplets]
  · rw [happly [1, 1] rfl]
    simp [triplets, List.range_succ]

end Matrix

end LogConvex
