/- Finitely supported families of numbers: the exponents of a term, by variable,
   and the coefficients of an affine form, by column. The entries are kept in
   strictly increasing order of their keys, and the type carries that fact, so a
   family has one representation and two families that agree at every key are
   equal entry by entry.

   A key with the weight zero is not the same as a key without a weight. Which of
   the two an update leaves behind is the caller's decision: `alter` hands it the
   old weight, if there is one, and stores what it returns, if it returns one. -/
namespace LogConvex

/-- Linearly ordered keys. -/
class Key (κ : Type) extends LT κ where
  decLt : DecidableLT κ
  irrefl : ∀ a : κ, ¬ a < a
  trans : ∀ {a b c : κ}, a < b → b < c → a < c
  eq_of_not_lt : ∀ {a b : κ}, ¬ a < b → ¬ b < a → a = b

namespace Key

variable {κ : Type} [Key κ]

instance (priority := low) : DecidableLT κ := Key.decLt

instance (priority := low) : DecidableEq κ := fun a b =>
  if h : a < b then isFalse (fun e => irrefl a (by rw [← e] at h; exact h))
  else if h' : b < a then isFalse (fun e => irrefl a (by rw [← e] at h'; exact h'))
  else isTrue (eq_of_not_lt h h')

end Key

instance : Key Nat where
  decLt := inferInstance
  irrefl := Nat.lt_irrefl
  trans := Nat.lt_trans
  eq_of_not_lt h h' := Nat.le_antisymm (Nat.le_of_not_lt h') (Nat.le_of_not_lt h)

/-- A family of weights, with its entries in strictly increasing order of key. -/
structure Sparse (κ R : Type) [Key κ] where
  entries : List (κ × R)
  sorted : entries.Pairwise fun a b => a.1 < b.1

namespace Sparse

variable {κ R : Type} [Key κ]

/-- The family without entries. -/
def empty : Sparse κ R := ⟨[], .nil⟩

/-- The family with one entry. -/
def single (k : κ) (w : R) : Sparse κ R := ⟨[(k, w)], by simp⟩

def isEmpty (m : Sparse κ R) : Bool := m.entries.isEmpty

/-- The keys, in increasing order. -/
def keys (m : Sparse κ R) : List κ := m.entries.map (·.1)

/-- The weight stored at a key. -/
def get? (m : Sparse κ R) (k : κ) : Option R :=
  (m.entries.find? fun e => decide (e.1 = k)).map (·.2)

/-- The weight at a key, zero when there is no entry. -/
def weight [Zero R] (m : Sparse κ R) (k : κ) : R := (m.get? k).getD 0

/-! ## Updating one key -/

/-- Puts an entry in front, if there is a weight for it. -/
def consEntry (k : κ) (w : Option R) (es : List (κ × R)) : List (κ × R) :=
  match w with
  | some w => (k, w) :: es
  | none => es

/-- Replaces the weight at `k` by what `f` makes of it; the other entries stay. -/
def alterEntries (f : Option R → Option R) (k : κ) : List (κ × R) → List (κ × R)
  | [] => consEntry k (f none) []
  | (j, w) :: rest =>
    if k < j then consEntry k (f none) ((j, w) :: rest)
    else if j < k then (j, w) :: alterEntries f k rest
    else consEntry k (f (some w)) rest

omit [Key κ] in
theorem mem_consEntry {k : κ} {w : Option R} {es : List (κ × R)} {e : κ × R}
    (h : e ∈ consEntry k w es) : e.1 = k ∨ e ∈ es := by
  cases w with
  | none => exact .inr h
  | some w =>
    rcases List.mem_cons.mp h with rfl | h
    · exact .inl rfl
    · exact .inr h

theorem mem_alterEntries {f : Option R → Option R} {k : κ} {es : List (κ × R)} {e : κ × R}
    (h : e ∈ alterEntries f k es) : e.1 = k ∨ e ∈ es := by
  induction es with
  | nil => exact mem_consEntry h
  | cons d rest ih =>
    obtain ⟨j, w⟩ := d
    rw [alterEntries] at h
    split at h
    · exact mem_consEntry h
    · split at h
      · rcases List.mem_cons.mp h with rfl | h
        · exact .inr (by simp)
        · exact (ih h).imp_right fun h => by simp [h]
      · exact (mem_consEntry h).imp_right fun h => by simp [h]

theorem pairwise_consEntry {k : κ} {w : Option R} {es : List (κ × R)}
    (hk : ∀ e ∈ es, k < e.1) (hs : es.Pairwise fun a b => a.1 < b.1) :
    (consEntry k w es).Pairwise fun a b => a.1 < b.1 := by
  cases w with
  | none => exact hs
  | some w => exact List.pairwise_cons.mpr ⟨fun e he => hk e he, hs⟩

theorem pairwise_alterEntries (f : Option R → Option R) (k : κ) {es : List (κ × R)}
    (hs : es.Pairwise fun a b => a.1 < b.1) :
    (alterEntries f k es).Pairwise fun a b => a.1 < b.1 := by
  induction es with
  | nil => exact pairwise_consEntry (by simp) .nil
  | cons d rest ih =>
    obtain ⟨j, w⟩ := d
    have ⟨hj, hr⟩ := List.pairwise_cons.mp hs
    rw [alterEntries]
    split
    · rename_i hkj
      refine pairwise_consEntry (fun e he => ?_) hs
      rcases List.mem_cons.mp he with rfl | he
      · exact hkj
      · exact Key.trans hkj (hj e he)
    · rename_i hkj
      split
      · rename_i hjk
        refine List.pairwise_cons.mpr ⟨fun e he => ?_, ih hr⟩
        rcases mem_alterEntries he with h | h
        · exact h ▸ hjk
        · exact hj e h
      · rename_i hjk
        have : k = j := Key.eq_of_not_lt hkj hjk
        exact pairwise_consEntry (fun e he => this ▸ hj e he) hr

/-- Replaces the weight at `k` by what `f` makes of it. -/
def alter (f : Option R → Option R) (k : κ) (m : Sparse κ R) : Sparse κ R :=
  ⟨alterEntries f k m.entries, pairwise_alterEntries f k m.sorted⟩

/-! ## Weights -/

/-- Applies `f` to every weight. -/
def map {S : Type} (f : R → S) (m : Sparse κ R) : Sparse κ S :=
  ⟨m.entries.map fun e => (e.1, f e.2), by
    simpa [List.pairwise_map] using m.sorted⟩

/-- Adds to the weight at `k`, which counts as zero when it is absent. The entry
stays even when the sum is zero. -/
def add [Zero R] [Add R] (m : Sparse κ R) (k : κ) (w : R) : Sparse κ R :=
  m.alter (fun old => some (old.getD 0 + w)) k

/-- Adds to the weight at `k` and removes the entry when the sum is zero. -/
def addReduced [Zero R] [Add R] [BEq R] (m : Sparse κ R) (k : κ) (w : R) : Sparse κ R :=
  m.alter (fun old => let s := old.getD 0 + w; if s == 0 then none else some s) k

/-- Two families are equal when they have the same keys with equal weights. -/
instance [BEq R] : BEq (Sparse κ R) where
  beq a b := a.entries == b.entries

end Sparse

end LogConvex
