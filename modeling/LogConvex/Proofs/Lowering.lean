import LogConvex.Proofs.Affine
import LogConvex.Proofs.Declaration
import LogConvex.Proofs.Objective

/- Lowering is exact. A point becomes columns by taking logarithms and filling the columns
   that the cones added: each holds the value of its term (`Block.fill`). What is proved:

   1. soundness, block by block: columns in the cones of a block satisfy its constraint,
      whatever the added columns hold (`ofForm_sound`);
   2. completeness: the filled columns of a point that satisfies a constraint lie in all
      cones of its block (`ofForm_complete`). Blocks fill their own columns only, so the
      fillings of a list of constraints are laid one after the other (`ofForms_complete`);
   3. the objective: the value that the program minimizes is the logarithm of the
      objective at the filled columns, and never below it elsewhere. -/
namespace LogConvex

/-- Terms that have logarithms and mention the first `n` variables only. -/
def Terms.Proper (n : Nat) (ts : Terms ℝ) : Prop :=
  ∀ t ∈ ts, 0 < t.coefficient ∧ ∀ v ∈ t.exponents.keys, v.index < n

theorem Terms.Proper.covers {ts : Terms ℝ} {x : Point ℝ} (h : Terms.Proper x.length ts) :
    x.Covers (occurrences ts) :=
  covers_occurrences.mpr fun t ht => (h t ht).2

/-! ## Logarithms of terms -/

theorem Affine.columnValue_of_prefix {x : Point ℝ} {y : List ℝ} (hy : x.map Real.log <+: y)
    {v : Variable} (hv : v.index < x.length) : columnValue y v.index = x.logValue v := by
  obtain ⟨rest, rfl⟩ := hy
  rw [columnValue, List.getElem?_append_left (by simpa using hv), Point.logValue,
    Point.value_eq hv]
  simp [hv]

theorem Term.evaluate_logAffine_eq (t : Term ℝ) (y : List ℝ) :
    t.logAffine.evaluate y =
      Real.log t.coefficient + t.exponents.dot fun v => Affine.columnValue y v.index := by
  rw [logAffine, view_foldl (fun a : Affine ℝ => a.evaluate y) _ _
    (fun a e => Affine.evaluate_addTerm a e.1.index e.2 y)]
  simp [Sparse.dot]

/-- Where the columns hold the logarithms of a point, the form of a term holds the
logarithm of its value. -/
theorem Term.evaluate_logAffine {t : Term ℝ} (ht : 0 < t.coefficient) {x : Point ℝ}
    (hx : x.Positive) (hc : x.Covers t.exponents.keys) {y : List ℝ}
    (hy : x.map Real.log <+: y) : t.logAffine.evaluate y = Real.log (t.evaluate x) := by
  have hdot : (t.exponents.dot fun v => Affine.columnValue y v.index) =
      t.exponents.dot x.logValue :=
    Sparse.dot_congr fun v hv => Affine.columnValue_of_prefix hy (hc v hv)
  rw [evaluate_logAffine_eq, hdot, t.evaluate_eq_exp hx hc,
    Real.log_mul ht.ne' (Real.exp_pos _).ne', Real.log_exp]

/-! ## Bounds by one -/

namespace Block

theorem evaluate_columnSum (first count : Nat) (y : List ℝ) :
    (columnSum first count).evaluate y =
      ((List.range count).map fun k => Affine.columnValue y (first + k)).sum := by
  rw [columnSum, view_foldl (fun a : Affine ℝ => a.evaluate y) _
    (fun k => Affine.columnValue y (first + k)) (fun a k => by simp)]
  simp

/-- The values of the new columns of a bound by one, from the values of the terms. -/
def fill (z : Term ℝ → ℝ) : Terms ℝ → List ℝ
  | [_] => []
  | ts => ts.map z

theorem length_fill (z : Term ℝ → ℝ) (first : Nat) (shift : Affine ℝ) (ts : Terms ℝ) :
    (fill z ts).length = (atMostOne first shift ts).columns := by
  unfold fill atMostOne
  split <;> simp

theorem fill_nonneg {z : Term ℝ → ℝ} {ts : Terms ℝ} (hz : ∀ t ∈ ts, 0 ≤ z t) :
    ∀ a ∈ fill z ts, 0 ≤ a := by
  intro a ha
  unfold fill at ha
  split at ha
  · exact absurd ha List.not_mem_nil
  · obtain ⟨t, ht, rfl⟩ := List.mem_map.mp ha
    exact hz t ht

/-- The number whose exponential is bounded for a term. -/
noncomputable def shifted (shift : Affine ℝ) (y : List ℝ) (t : Term ℝ) : ℝ :=
  t.logAffine.evaluate y + shift.evaluate y

/-- A form lies below the logarithm of a column, in the shape that the cones use. -/
theorem holds_exponential_iff (a c : Affine ℝ) (y : List ℝ) :
    (Cone.exponential a (.scalar 1) c).Holds y ↔ Real.exp (a.evaluate y) ≤ c.evaluate y := by
  simp [Cone.Holds, InExponentialCone]

/-- Columns in the cones bound the sum of the exponentials by one, whatever the new
columns hold. -/
theorem atMostOne_sound {first : Nat} {shift : Affine ℝ} {ts : Terms ℝ} {y : List ℝ}
    (h : ∀ c ∈ (atMostOne first shift ts).cones, c.Holds y) :
    (ts.map fun t => Real.exp (shifted shift y t)).sum ≤ 1 := by
  unfold atMostOne at h
  split at h
  · next t =>
    have ht : 0 ≤ (t.logAffine.add shift).neg.evaluate y := h _ List.mem_cons_self
    rw [Affine.evaluate_neg, Affine.evaluate_add, neg_nonneg] at ht
    simpa [shifted] using ht
  · -- each new column is above its exponential, and their sum is at most one
    have hexp : ∀ k (hk : k < ts.length),
        Real.exp (shifted shift y ts[k]) ≤ Affine.columnValue y (first + k) := by
      intro k hk
      have hmem : Cone.exponential (ts[k].logAffine.add shift) (.scalar 1)
          (.column (first + k)) ∈ ts.mapIdx fun k t =>
            Cone.exponential (t.logAffine.add shift) (.scalar 1) (.column (first + k)) :=
        List.mem_mapIdx.mpr ⟨k, hk, rfl⟩
      simpa [holds_exponential_iff, shifted] using h _ (List.mem_append_left _ hmem)
    have hsum : (columnSum first ts.length).evaluate y ≤ 1 := by
      simpa [Cone.Holds, ← sub_eq_add_neg] using
        h _ (List.mem_append_right _ List.mem_cons_self)
    rw [evaluate_columnSum] at hsum
    refine le_trans (List.Forall₂.sum_le_sum ?_) hsum
    rw [List.forall₂_iff_get]
    refine ⟨by simp, fun k h₁ h₂ => ?_⟩
    simpa using hexp k (by simpa using h₁)

/-- Filled columns lie in all cones of a bound but the last, whatever the sum of the
exponentials is. The last one is a form that is not below what the sum falls short of one. -/
theorem atMostOne_filled (first : Nat) (shift : Affine ℝ) (ts : Terms ℝ) :
    ∃ init a, (atMostOne first shift ts).cones = init ++ [.nonneg a] ∧
      ∀ y, fill (fun t => Real.exp (shifted shift y t)) ts <+: y.drop first →
        (∀ c ∈ init, c.Holds y) ∧
        ∀ r, 0 < r → (ts.map fun t => Real.exp (shifted shift y t)).sum ≤ r →
          1 - r ≤ a.evaluate y := by
  unfold fill atMostOne
  split
  · next t =>
    refine ⟨[], _, rfl, fun y _ => ⟨by simp, fun r hr hsum => ?_⟩⟩
    have ht : shifted shift y t ≤ Real.log r := by
      rw [Real.le_log_iff_exp_le hr]
      simpa using hsum
    have hlog : Real.log r ≤ r - 1 := Real.log_le_sub_one_of_pos hr
    rw [Affine.evaluate_neg, Affine.evaluate_add]
    unfold shifted at ht
    linarith
  · refine ⟨_, _, rfl, fun y hfill => ?_⟩
    -- the new columns hold the exponentials themselves
    have hcol : ∀ k (hk : k < ts.length),
        Affine.columnValue y (first + k) = Real.exp (shifted shift y ts[k]) := by
      intro k hk
      obtain ⟨rest, hrest⟩ := hfill
      rw [Affine.columnValue, ← List.getElem?_drop, ← hrest]
      rw [List.getElem?_append_left (by simpa using hk)]
      simp [hk]
    constructor
    · intro c hc
      obtain ⟨k, hk, rfl⟩ := List.mem_mapIdx.mp hc
      rw [holds_exponential_iff, Affine.evaluate_column, hcol k hk]
      simp [shifted]
    · intro r _ hsum
      have hcols : (columnSum first ts.length).evaluate y =
          (ts.map fun t => Real.exp (shifted shift y t)).sum := by
        rw [evaluate_columnSum]
        congr 1
        apply List.ext_getElem (by simp)
        intro k h₁ h₂
        simpa using hcol k (by simpa using h₁)
      rw [Affine.evaluate_add, Affine.evaluate_neg, Affine.evaluate_scalar, hcols]
      linarith

/-- Filled columns lie in the cones when the sum of the exponentials is at most one. -/
theorem atMostOne_complete {first : Nat} {shift : Affine ℝ} {ts : Terms ℝ} {y : List ℝ}
    (hsum : (ts.map fun t => Real.exp (shifted shift y t)).sum ≤ 1)
    (hfill : fill (fun t => Real.exp (shifted shift y t)) ts <+: y.drop first) :
    ∀ c ∈ (atMostOne first shift ts).cones, c.Holds y := by
  obtain ⟨init, a, hcones, hfilled⟩ := atMostOne_filled first shift ts
  obtain ⟨hinit, hlast⟩ := hfilled y hfill
  have hle : 0 ≤ a.evaluate y := by simpa using hlast 1 one_pos hsum
  rw [hcones, List.forall_mem_append, List.forall_mem_singleton]
  exact ⟨hinit, hle⟩

/-! ## Bounds by one at a point -/

section Point

variable {x : Point ℝ} {y : List ℝ} (hx : x.Positive) (hy : x.map Real.log <+: y)
include hx hy

theorem exp_shifted {t : Term ℝ} (ht : 0 < t.coefficient) (hc : x.Covers t.exponents.keys)
    (shift : Affine ℝ) :
    Real.exp (shifted shift y t) = t.evaluate x * Real.exp (shift.evaluate y) := by
  rw [shifted, Term.evaluate_logAffine ht hx hc hy, Real.exp_add,
    Real.exp_log (Term.evaluate_pos ht hx hc)]

theorem map_exp_shifted {ts : Terms ℝ} (hts : Terms.Proper x.length ts) (shift : Affine ℝ) :
    (ts.map fun t => Real.exp (shifted shift y t)) =
      ts.map fun t => t.evaluate x * Real.exp (shift.evaluate y) :=
  List.map_congr_left fun t ht => exp_shifted hx hy (hts t ht).1 (hts t ht).2 shift

theorem sum_exp_shifted {ts : Terms ℝ} (hts : Terms.Proper x.length ts) (shift : Affine ℝ) :
    (ts.map fun t => Real.exp (shifted shift y t)).sum =
      Terms.evaluate ts x * Real.exp (shift.evaluate y) := by
  rw [map_exp_shifted hx hy hts, List.sum_map_mul_right, Terms.evaluate, Scalar.total_real]

theorem fill_shifted {ts : Terms ℝ} (hts : Terms.Proper x.length ts) (shift : Affine ℝ) :
    fill (fun t => Real.exp (shifted shift y t)) ts =
      fill (fun t => t.evaluate x * Real.exp (shift.evaluate y)) ts := by
  unfold fill
  split
  · rfl
  · exact map_exp_shifted hx hy hts shift

/-- Columns in the cones of a constraint satisfy it. -/
theorem ofForm_sound {first : Nat} {g : GeometricForm ℝ} (hg : Terms.Proper x.length g.terms)
    (h : ∀ c ∈ (ofForm first g).cones, c.Holds y) : g.Holds x := by
  cases g with
  | equality m =>
    obtain ⟨hm, hc⟩ := hg m (by simp [GeometricForm.terms])
    have hzero : m.logAffine.evaluate y = 0 := h _ List.mem_cons_self
    rw [Term.evaluate_logAffine hm hx hc hy] at hzero
    show m.evaluate x = 1
    rw [← Real.exp_log (Term.evaluate_pos hm hx hc), hzero, Real.exp_zero]
  | inequality p =>
    have hp : Terms.Proper x.length p := hg
    have hsum := atMostOne_sound h
    rw [sum_exp_shifted hx hy hp] at hsum
    show Terms.evaluate p x ≤ 1
    simpa using hsum

end Point

end Block

theorem ColumnBounds.holds_nonneg_of_mem_zip {n : Nat} {as : List ℝ} (h : ∀ a ∈ as, 0 ≤ a) :
    ∀ e ∈ (List.replicate n (nonneg : ColumnBounds ℝ)).zip as, e.1.Holds e.2 := by
  rintro ⟨b, a⟩ he
  obtain ⟨hb, ha⟩ := List.of_mem_zip he
  rw [List.eq_of_mem_replicate hb]
  simpa [nonneg, Holds] using h a ha

/-- The values of the new columns of a constraint at a point. -/
noncomputable def GeometricForm.fill (x : Point ℝ) : GeometricForm ℝ → List ℝ
  | equality _ => []
  | inequality p => Block.fill (fun t => t.evaluate x) p

theorem GeometricForm.fill_nonneg {x : Point ℝ} (hx : x.Positive) {g : GeometricForm ℝ}
    (hg : Terms.Proper x.length g.terms) : ∀ a ∈ g.fill x, 0 ≤ a := by
  cases g with
  | equality m => simp [fill]
  | inequality p =>
    exact Block.fill_nonneg fun t ht => (Term.evaluate_pos (hg t ht).1 hx (hg t ht).2).le

namespace Block

theorem length_fill_form (first : Nat) (x : Point ℝ) (g : GeometricForm ℝ) :
    (g.fill x).length = (ofForm first g).columns := by
  cases g with
  | equality m => rfl
  | inequality p => exact length_fill _ first .zero p

/-- As many columns are added as the constraints fill. -/
theorem addedColumns_ofForms (x : Point ℝ) (gs : List (GeometricForm ℝ)) (first : Nat) :
    addedColumns (ofForms first gs) = (gs.flatMap (GeometricForm.fill x)).length := by
  induction gs generalizing first with
  | nil => rfl
  | cons g gs ih =>
    simp only [ofForms, addedColumns, ih, List.flatMap_cons, List.length_append,
      length_fill_form first]

@[simp] theorem length_ofForms {R : Type} [Scalar R] (first : Nat) (gs : List (GeometricForm R)) :
    (ofForms first gs).length = gs.length := by
  induction gs generalizing first with
  | nil => rfl
  | cons g gs ih => rw [ofForms, List.length_cons, ih, List.length_cons]

@[simp] theorem length_lastCones {R : Type} (before : Nat) (bs : List (Block R)) :
    (lastCones before bs).length = bs.length := by
  induction bs generalizing before with
  | nil => rfl
  | cons b bs ih => rw [lastCones, List.length_cons, ih, List.length_cons]

section Point

variable {x : Point ℝ} {y : List ℝ} (hx : x.Positive) (hy : x.map Real.log <+: y)
include hx hy

/-- The filled columns of a constraint that holds lie in its cones. -/
theorem ofForm_complete {first : Nat} {g : GeometricForm ℝ}
    (hg : Terms.Proper x.length g.terms) (h : g.Holds x) (hfill : g.fill x <+: y.drop first) :
    ∀ c ∈ (ofForm first g).cones, c.Holds y := by
  cases g with
  | equality m =>
    obtain ⟨hm, hc⟩ := hg m (by simp [GeometricForm.terms])
    intro c hmem
    obtain rfl := List.mem_singleton.mp hmem
    show m.logAffine.evaluate y = 0
    rw [Term.evaluate_logAffine hm hx hc hy, show m.evaluate x = 1 from h, Real.log_one]
  | inequality p =>
    have hp : Terms.Proper x.length p := hg
    refine atMostOne_complete ?_ ?_
    · rw [sum_exp_shifted hx hy hp]
      simpa using show Terms.evaluate p x ≤ 1 from h
    · rw [fill_shifted hx hy hp]
      simpa using show fill (fun t => t.evaluate x) p <+: y.drop first from hfill

/-- Columns in the cones of all blocks satisfy all constraints. -/
theorem ofForms_sound {first : Nat} {gs : List (GeometricForm ℝ)}
    (hgs : ∀ g ∈ gs, Terms.Proper x.length g.terms)
    (h : ∀ c ∈ (ofForms first gs).flatMap (·.cones), c.Holds y) : ∀ g ∈ gs, g.Holds x := by
  induction gs generalizing first with
  | nil => simp
  | cons g gs ih =>
    rw [ofForms, List.flatMap_cons, List.forall_mem_append] at h
    rw [List.forall_mem_cons] at hgs ⊢
    exact ⟨ofForm_sound hx hy hgs.1 h.1, ih hgs.2 h.2⟩

/-- The fillings of the constraints, one after the other, lie in the cones of all blocks:
a block starts where the fillings before it end. -/
theorem ofForms_complete {first : Nat} {gs : List (GeometricForm ℝ)}
    (hgs : ∀ g ∈ gs, Terms.Proper x.length g.terms) (h : ∀ g ∈ gs, g.Holds x)
    (hfill : gs.flatMap (GeometricForm.fill x) <+: y.drop first) :
    ∀ c ∈ (ofForms first gs).flatMap (·.cones), c.Holds y := by
  induction gs generalizing first with
  | nil => simp [ofForms]
  | cons g gs ih =>
    obtain ⟨rest, hrest⟩ := hfill
    rw [List.flatMap_cons, List.append_assoc] at hrest
    rw [List.forall_mem_cons] at hgs h
    rw [ofForms, List.flatMap_cons, List.forall_mem_append]
    refine ⟨ofForm_complete hx hy hgs.1 h.1 ⟨_, hrest⟩, ih hgs.2 h.2 ⟨rest, ?_⟩⟩
    rw [← length_fill_form first x, ← List.drop_drop, ← hrest, List.drop_left]

end Point

end Block

/-! ## Objectives -/

namespace Objective

/-- An objective that has a logarithm and mentions the first `n` variables only. -/
def Proper (n : Nat) (o : Option (Objective ℝ)) : Prop :=
  ∀ f ∈ o, f.terms ≠ [] ∧ Terms.Proper n f.terms

/-- What a program minimizes for an objective: its logarithm, turned around where it is to
be large, and zero without an objective. -/
noncomputable def logValue (x : Point ℝ) : Option (Objective ℝ) → ℝ
  | none => 0
  | some (.minimize p) => Real.log (Terms.evaluate p x)
  | some (.maximize m) => -Real.log (m.evaluate x)

/-- The values of the new columns of an objective at a point: its logarithm and the shares
of the terms, unless there is one term only. -/
noncomputable def fill (x : Point ℝ) : Option (Objective ℝ) → List ℝ
  | none => []
  | some (.maximize _) => []
  | some (.minimize [_]) => []
  | some (.minimize p) =>
    Real.log (Terms.evaluate p x) ::
      Block.fill (fun t => t.evaluate x * Real.exp (-Real.log (Terms.evaluate p x))) p

theorem ofObjective_minimize {p : Terms ℝ} (hp : ∀ t, p ≠ [t]) (first : Nat) :
    ObjectivePart.ofObjective first (some (.minimize p)) =
      ⟨.free :: List.replicate (Block.atMostOne (first + 1) (Affine.column first).neg p).columns
          .nonneg,
        .column first, (Block.atMostOne (first + 1) (Affine.column first).neg p).cones, false⟩ := by
  match p, hp with
  | [], _ => rfl
  | [t], hp => exact absurd rfl (hp t)
  | _ :: _ :: _, _ => rfl

theorem fill_minimize {p : Terms ℝ} (hp : ∀ t, p ≠ [t]) (x : Point ℝ) :
    fill x (some (.minimize p)) =
      Real.log (Terms.evaluate p x) ::
        Block.fill (fun t => t.evaluate x * Real.exp (-Real.log (Terms.evaluate p x))) p := by
  match p, hp with
  | [], _ => rfl
  | [t], hp => exact absurd rfl (hp t)
  | _ :: _ :: _, _ => rfl

theorem length_fill (x : Point ℝ) (first : Nat) (o : Option (Objective ℝ)) :
    (fill x o).length = (ObjectivePart.ofObjective first o).bounds.length := by
  match o with
  | none => rfl
  | some (.maximize _) => rfl
  | some (.minimize p) =>
    by_cases hs : ∃ t, p = [t]
    · obtain ⟨t, rfl⟩ := hs
      rfl
    · rw [fill_minimize (not_exists.mp hs), ofObjective_minimize (not_exists.mp hs)]
      simp [Block.length_fill _ (first + 1) (Affine.column first).neg]

theorem logValue_minimize_single (t : Term ℝ) (x : Point ℝ) :
    logValue x (some (.minimize [t])) = Real.log (t.evaluate x) := by
  simp [logValue]

theorem holds_bounds_fill {x : Point ℝ} (hx : x.Positive) {o : Option (Objective ℝ)}
    (ho : Proper x.length o) (first : Nat) :
    ∀ e ∈ (ObjectivePart.ofObjective first o).bounds.zip (fill x o), e.1.Holds e.2 := by
  match o, ho with
  | none, _ => simp [fill]
  | some (.maximize _), _ => simp [fill]
  | some (.minimize p), ho =>
    by_cases hs : ∃ t, p = [t]
    · obtain ⟨t, rfl⟩ := hs
      simp [fill]
    · rw [ofObjective_minimize (not_exists.mp hs), fill_minimize (not_exists.mp hs),
        List.zip_cons_cons, List.forall_mem_cons]
      refine ⟨by simp [ColumnBounds.free, ColumnBounds.Holds],
        ColumnBounds.holds_nonneg_of_mem_zip (Block.fill_nonneg fun t ht => ?_)⟩
      obtain ⟨hpos, hc⟩ := (ho _ rfl).2 t ht
      exact mul_nonneg (Term.evaluate_pos hpos hx hc).le (Real.exp_pos _).le

section Point

variable {x : Point ℝ} {y : List ℝ} (hx : x.Positive) (hy : x.map Real.log <+: y)
include hx hy

/-- The value that a program minimizes is never below the logarithm of the objective, and
equal to it unless a sum of several terms is minimized. -/
theorem ofObjective_sound {first : Nat} {o : Option (Objective ℝ)} (ho : Proper x.length o)
    (h : ∀ c ∈ (ObjectivePart.ofObjective first o).cones, c.Holds y) :
    logValue x o ≤ (ObjectivePart.ofObjective first o).form.evaluate y ∧
      ((∀ p, o ≠ some (.minimize p)) →
        (ObjectivePart.ofObjective first o).form.evaluate y = logValue x o) := by
  match o, ho, h with
  | none, _, _ => simp [ObjectivePart.ofObjective, logValue]
  | some (.maximize m), ho, _ =>
    obtain ⟨hm, hc⟩ := (ho _ rfl).2 m (by simp [terms])
    simp [ObjectivePart.ofObjective, logValue, Term.evaluate_logAffine hm hx hc hy]
  | some (.minimize p), ho, h =>
    obtain ⟨hne, hp⟩ : p ≠ [] ∧ Terms.Proper x.length p := ho _ rfl
    refine ⟨?_, fun hmin => absurd rfl (hmin p)⟩
    by_cases hs : ∃ t, p = [t]
    · obtain ⟨t, rfl⟩ := hs
      obtain ⟨ht, hc⟩ := hp t (by simp)
      rw [logValue_minimize_single, ← Term.evaluate_logAffine ht hx hc hy]
      rfl
    · have hpos : 0 < Terms.evaluate p x :=
        Terms.evaluate_pos hne (fun t ht => (hp t ht).1) hx hp.covers
      rw [ofObjective_minimize (not_exists.mp hs)] at h ⊢
      have hsum := Block.atMostOne_sound h
      -- the sum divided by `exp t` is at most one
      rw [Block.sum_exp_shifted hx hy hp, Affine.evaluate_neg, Real.exp_neg, ← div_eq_mul_inv,
        div_le_one (Real.exp_pos _)] at hsum
      exact (Real.log_le_iff_le_exp hpos).mpr hsum

/-- The filled columns of an objective lie in its cones, and there the program minimizes
the logarithm of the objective. -/
theorem ofObjective_complete {first : Nat} {o : Option (Objective ℝ)} (ho : Proper x.length o)
    (hfill : fill x o <+: y.drop first) :
    (∀ c ∈ (ObjectivePart.ofObjective first o).cones, c.Holds y) ∧
      (ObjectivePart.ofObjective first o).form.evaluate y = logValue x o := by
  match o, ho, hfill with
  | none, _, _ => simp [ObjectivePart.ofObjective, logValue]
  | some (.maximize m), ho, _ =>
    obtain ⟨hm, hc⟩ := (ho _ rfl).2 m (by simp [terms])
    simp [ObjectivePart.ofObjective, logValue, Term.evaluate_logAffine hm hx hc hy]
  | some (.minimize p), ho, hfill =>
    obtain ⟨hne, hp⟩ : p ≠ [] ∧ Terms.Proper x.length p := ho _ rfl
    by_cases hs : ∃ t, p = [t]
    · obtain ⟨t, rfl⟩ := hs
      obtain ⟨ht, hc⟩ := hp t (by simp)
      rw [logValue_minimize_single, ← Term.evaluate_logAffine ht hx hc hy]
      exact ⟨by simp [ObjectivePart.ofObjective], rfl⟩
    · have hpos : 0 < Terms.evaluate p x :=
        Terms.evaluate_pos hne (fun t ht => (hp t ht).1) hx hp.covers
      rw [fill_minimize (not_exists.mp hs)] at hfill
      rw [ofObjective_minimize (not_exists.mp hs)]
      obtain ⟨rest, hrest⟩ := hfill
      have ht : Affine.columnValue y first = Real.log (Terms.evaluate p x) := by
        rw [Affine.columnValue, ← Nat.add_zero first, ← List.getElem?_drop, ← hrest]
        rfl
      have hshift : (Affine.column first).neg.evaluate y = -Real.log (Terms.evaluate p x) := by
        rw [Affine.evaluate_neg, Affine.evaluate_column, ht]
      refine ⟨Block.atMostOne_complete ?_ ?_, ?_⟩
      · rw [Block.sum_exp_shifted hx hy hp, hshift, Real.exp_neg, Real.exp_log hpos,
          mul_inv_cancel₀ hpos.ne']
      · rw [Block.fill_shifted hx hy hp, hshift]
        refine ⟨rest, ?_⟩
        rw [← List.drop_drop, ← hrest]
        rfl
      · rw [Affine.evaluate_column, ht]
        rfl

end Point

end Objective

/-! ## Programs -/

namespace Lowered

/-- The columns of a point: logarithms, then what the constraints fill, then what the
objective fills. -/
noncomputable def columnsOf (gs : List (GeometricForm ℝ)) (o : Option (Objective ℝ))
    (x : Point ℝ) : List ℝ :=
  x.map Real.log ++ (gs.flatMap (GeometricForm.fill x) ++ Objective.fill x o)

/-- What the constraints fill stands behind the logarithms. -/
theorem fill_prefix_columnsOf (gs : List (GeometricForm ℝ)) (o : Option (Objective ℝ))
    {x : Point ℝ} {n : Nat} (hn : n = x.length) :
    gs.flatMap (GeometricForm.fill x) <+: (columnsOf gs o x).drop n := by
  rw [columnsOf, List.drop_left' (by simp [hn])]
  exact List.prefix_append _ _

variable {vars : List (Declaration ℝ)} {gs : List (GeometricForm ℝ)} {o : Option (Objective ℝ)}
  (hvars : ∀ d ∈ vars, d.fault? = none)
  (hgs : ∀ g ∈ gs, Terms.Proper vars.length g.terms) (ho : Objective.Proper vars.length o)
include hvars hgs ho

/-- The columns of a point that obeys the declarations lie in the bounds and in the cones of
the objective, and there the program minimizes the logarithm of the objective, whichever
constraints hold. -/
theorem ofProblem_filled {x : Point ℝ} (hx : Declaration.AdmitsAll vars x) :
    (columnsOf gs o x).length = (ofProblem vars gs o).program.bounds.length ∧
      (∀ e ∈ (ofProblem vars gs o).program.bounds.zip (columnsOf gs o x), e.1.Holds e.2) ∧
      (∀ c ∈ (ObjectivePart.ofObjective
          (vars.length + Block.addedColumns (Block.ofForms vars.length gs)) o).cones,
        c.Holds (columnsOf gs o x)) ∧
      (ofProblem vars gs o).program.objective.evaluate (columnsOf gs o x) =
        Objective.logValue x o := by
  have hlen : vars.length = x.length := hx.length_eq
  have hpos : x.Positive := hx.pos hvars
  have hcols := Block.addedColumns_ofForms x gs vars.length
  rw [hlen] at hgs ho
  have hobj : Objective.fill x o <+: (columnsOf gs o x).drop
      (vars.length + Block.addedColumns (Block.ofForms vars.length gs)) := by
    rw [hcols, columnsOf, ← List.drop_drop, List.drop_left' (by simp [hlen]), List.drop_left]
  refine ⟨?_, ?_, Objective.ofObjective_complete hpos (List.prefix_append _ _) ho hobj⟩
  · have hfill := Objective.length_fill x
      (vars.length + Block.addedColumns (Block.ofForms vars.length gs)) o
    simp only [ofProblem, columnsOf, List.length_append, List.length_map, List.length_replicate,
      hcols] at hfill ⊢
    omega
  · have hlogs : ∀ e ∈ (vars.map (·.logBounds)).zip (x.map Real.log), e.1.Holds e.2 := by
      have hexp : (x.map Real.log).map Real.exp = x := by
        rw [List.map_map]
        exact (List.map_congr_left fun a ha => Real.exp_log (hpos a ha)).trans (List.map_id x)
      rwa [← Declaration.admitsAll_exp_iff hvars (by simp [hlen]), hexp]
    have hnew : ∀ e ∈ (List.replicate (gs.flatMap (GeometricForm.fill x)).length
        ColumnBounds.nonneg).zip (gs.flatMap (GeometricForm.fill x)), e.1.Holds e.2 := by
      refine ColumnBounds.holds_nonneg_of_mem_zip fun a ha => ?_
      obtain ⟨g, hg, ha⟩ := List.mem_flatMap.mp ha
      exact GeometricForm.fill_nonneg hpos (hgs g hg) a ha
    have hlast := Objective.holds_bounds_fill hpos ho
      (vars.length + Block.addedColumns (Block.ofForms vars.length gs))
    simp only [ofProblem, columnsOf, hcols, List.append_assoc] at hlast ⊢
    rw [List.zip_append (by simp [hlen]), List.zip_append (by simp)]
    simp only [List.forall_mem_append]
    exact ⟨hlogs, hnew, hlast⟩

/-- The columns of a point that obeys the declarations and satisfies the constraints are
allowed, and there the program minimizes the logarithm of the objective. -/
theorem ofProblem_complete {x : Point ℝ} (hx : Declaration.AdmitsAll vars x)
    (h : ∀ g ∈ gs, g.Holds x) :
    (ofProblem vars gs o).program.Feasible (columnsOf gs o x) ∧
      (ofProblem vars gs o).program.objective.evaluate (columnsOf gs o x) =
        Objective.logValue x o := by
  obtain ⟨hlength, hbounds, hcones, hvalue⟩ := ofProblem_filled hvars hgs ho hx
  refine ⟨⟨hlength, hbounds, ?_⟩, hvalue⟩
  rw [ofProblem, List.forall_mem_append]
  refine ⟨Block.ofForms_complete (hx.pos hvars) (List.prefix_append _ _) ?_ h ?_, hcones⟩
  · rwa [← hx.length_eq]
  · exact fill_prefix_columnsOf gs o hx.length_eq

/-- Columns that are allowed come from a point that obeys the declarations and satisfies
the constraints, with a value of the program that is not below the logarithm of the
objective. -/
theorem ofProblem_sound {y : List ℝ} (h : (ofProblem vars gs o).program.Feasible y) :
    Declaration.AdmitsAll vars ((y.take vars.length).map Real.exp) ∧
      (∀ g ∈ gs, g.Holds ((y.take vars.length).map Real.exp)) ∧
      Objective.logValue ((y.take vars.length).map Real.exp) o ≤
        (ofProblem vars gs o).program.objective.evaluate y ∧
      ((∀ p, o ≠ some (.minimize p)) →
        (ofProblem vars gs o).program.objective.evaluate y =
          Objective.logValue ((y.take vars.length).map Real.exp) o) := by
  obtain ⟨hlen, hbounds, hcones⟩ := h
  have hn : (y.take vars.length).length = vars.length := by
    simp only [ofProblem, List.length_append, List.length_map] at hlen
    rw [List.length_take]
    omega
  have hadmits : Declaration.AdmitsAll vars ((y.take vars.length).map Real.exp) := by
    rw [Declaration.admitsAll_exp_iff hvars hn]
    intro e he
    apply hbounds e
    rw [ofProblem, ← List.take_append_drop vars.length y, List.append_assoc,
      List.zip_append (by simp [hn])]
    exact List.mem_append_left _ he
  have hxlen : vars.length = ((y.take vars.length).map Real.exp).length := hadmits.length_eq
  have hpos : Point.Positive ((y.take vars.length).map Real.exp) := hadmits.pos hvars
  have hy : ((y.take vars.length).map Real.exp).map Real.log <+: y := by
    simpa [Function.comp_def] using List.take_prefix vars.length y
  rw [hxlen] at hgs ho
  rw [ofProblem, List.forall_mem_append] at hcones
  exact ⟨hadmits, Block.ofForms_sound hpos hy hgs hcones.1,
    Objective.ofObjective_sound hpos hy ho hcones.2⟩

omit hvars hgs ho

/-- Lowering reformulates a problem exactly. A point that obeys the declarations and
satisfies the constraints extends to allowed columns that begin with its logarithms and
have the logarithm of the objective as their value. Allowed columns begin with the
logarithms of such a point, and their value is not below the logarithm of a minimized
objective, and is that of a maximized one with the sign changed. -/
theorem lowering_exact (vars : List (Declaration ℝ)) (gs : List (GeometricForm ℝ))
    (o : Option (Objective ℝ)) (hvars : ∀ d ∈ vars, d.fault? = none)
    (hgs : ∀ g ∈ gs, ∀ t ∈ g.terms,
      0 < t.coefficient ∧ ∀ v ∈ t.exponents.keys, v.index < vars.length)
    (ho : ∀ f ∈ o, (∃ d e, Objective.ofExpr d e = .ok f) ∧
      ∀ t ∈ f.terms, ∀ v ∈ t.exponents.keys, v.index < vars.length) :
    (∀ x : Point ℝ, Declaration.AdmitsAll vars x → (∀ g ∈ gs, g.Holds x) →
      ∃ new, (ofProblem vars gs o).program.Feasible (x.map Real.log ++ new) ∧
        (ofProblem vars gs o).program.objective.evaluate (x.map Real.log ++ new) =
          match o with
          | none => 0
          | some (.minimize p) => Real.log (Terms.evaluate p x)
          | some (.maximize m) => -Real.log (m.evaluate x)) ∧
    ∀ y : List ℝ, (ofProblem vars gs o).program.Feasible y →
      let x : Point ℝ := (y.take vars.length).map Real.exp
      let value := (ofProblem vars gs o).program.objective.evaluate y
      Declaration.AdmitsAll vars x ∧ (∀ g ∈ gs, g.Holds x) ∧
        match o with
        | none => value = 0
        | some (.minimize p) => Real.log (Terms.evaluate p x) ≤ value
        | some (.maximize m) => value = -Real.log (m.evaluate x) := by
  have ho' : Objective.Proper vars.length o := by
    intro f hf
    obtain ⟨⟨d, e, he⟩, hkeys⟩ := ho f hf
    obtain ⟨hne, hterms⟩ := Objective.terms_ofExpr he
    exact ⟨hne, fun t ht => ⟨(hterms t ht).1, hkeys t ht⟩⟩
  constructor
  · intro x hx h
    obtain ⟨hfeasible, hvalue⟩ := ofProblem_complete hvars hgs ho' hx h
    refine ⟨_, hfeasible, hvalue.trans ?_⟩
    match o with
    | none => rfl
    | some (.minimize p) => rfl
    | some (.maximize m) => rfl
  · intro y hy
    obtain ⟨hx, h, hle, heq⟩ := ofProblem_sound hvars hgs ho' hy
    refine ⟨hx, h, ?_⟩
    match o with
    | none => exact heq (by simp)
    | some (.minimize p) => exact hle
    | some (.maximize m) => exact heq (by simp)

/-- A number times a power of the first variable. -/
def powerOf (c e : ℝ) : Term ℝ := ⟨c, .single ⟨0, 0⟩ e⟩

/-- A variable with default bounds. -/
def plain : Declaration ℝ := ⟨"x", none, none, none, none⟩

/-- The objective `x + 1 / x`. -/
noncomputable def reciprocalSum : Objective ℝ := .minimize [powerOf 1 1, powerOf 1 (-1)]

/-- The bound `x / 2 + 1 / (2 * x) ≤ 1`. -/
noncomputable def reciprocalBound : GeometricForm ℝ :=
  .inequality [powerOf (1 / 2) 1, powerOf (1 / 2) (-1)]

/-- At `x = 1` the bound is an equality and the objective is two. -/
theorem lowering_exact_reciprocal :
    ∃ new, (ofProblem [plain] [reciprocalBound] (some reciprocalSum)).program.Feasible
        ([Real.log 1] ++ new) ∧
      (ofProblem [plain] [reciprocalBound] (some reciprocalSum)).program.objective.evaluate
        ([Real.log 1] ++ new) = Real.log 2 := by
  have hvars : ∀ d ∈ [plain], d.fault? = none := by
    simp [plain, Declaration.fault?, Declaration.given]
  have hgs : ∀ g ∈ [reciprocalBound], ∀ t ∈ g.terms,
      0 < t.coefficient ∧ ∀ v ∈ t.exponents.keys, v.index < [plain].length := by
    simp [reciprocalBound, GeometricForm.terms, powerOf, Sparse.keys, Sparse.single]
  have ho : ∀ f ∈ some reciprocalSum, (∃ d e, Objective.ofExpr d e = .ok f) ∧
      ∀ t ∈ f.terms, ∀ v ∈ t.exponents.keys, v.index < [plain].length := by
    rintro f hf
    obtain rfl := Option.some.inj hf
    refine ⟨⟨.minimize, .posynomial [powerOf 1 1, powerOf 1 (-1)], ?_⟩, ?_⟩
    · simp [Objective.ofExpr, Objective.badTerm?, Expr.terms?, Expr.asPosynomial?, powerOf,
        Terms.isPositive, Term.isPositive, reciprocalSum]
    · simp [reciprocalSum, Objective.terms, powerOf, Sparse.keys, Sparse.single]
  have hx : Declaration.AdmitsAll [plain] [1] := by
    simp [Declaration.AdmitsAll, plain, Declaration.Admits, Declaration.effectiveLower,
      Declaration.effectiveUpper, Declaration.defaultLower]
    norm_num
  have h : ∀ g ∈ [reciprocalBound], g.Holds [1] := by
    simp [reciprocalBound, GeometricForm.Holds, powerOf, Term.evaluate, Sparse.single,
      Point.value]
    norm_num
  obtain ⟨new, hnew, hvalue⟩ := (lowering_exact [plain] [reciprocalBound] (some reciprocalSum)
    hvars hgs ho).1 [1] hx h
  refine ⟨new, hnew, hvalue.trans ?_⟩
  show Real.log _ = _
  congr 1
  simp [powerOf, Term.evaluate, Sparse.single, Point.value]
  norm_num

end Lowered

end LogConvex
