import LogConvex.Constraint.Record
import LogConvex.Lowering
import LogConvex.Proofs.CanonicalForm
import LogConvex.Proofs.Objective

/- Handles of another model. Moving an expression puts the variable with the same position in
   another model for each of its variables. Variables of one model keep their order, so every
   step from an expression to a canonical form, to an objective or to a conic program can be
   taken before or after moving: exponents are updated in the same places, the same terms are
   alike, and the lowered forms, which see positions only, are the same. Nothing here depends
   on the numbers. -/
namespace LogConvex

/-- The variable with the same position in another model. -/
def Variable.moveTo (s : ModelId) (v : Variable) : Variable := ⟨s, v.index⟩

namespace Sparse

/-- The family with other keys. Of entries that get the same key, the last one stays. -/
def mapKeys {κ κ' R : Type} [Key κ] [Key κ'] (f : κ → κ') (m : Sparse κ R) : Sparse κ' R :=
  m.entries.foldl (fun acc e => acc.alter (fun _ => some e.2) (f e.1)) .empty

/-- All keys are variables of one model. -/
def OwnedBy {R : Type} (id : ModelId) (m : Sparse Variable R) : Prop := ∀ v ∈ m.keys, v.owner = id

end Sparse

namespace Term

variable {R : Type}

def moveTo (s : ModelId) (t : Term R) : Term R :=
  ⟨t.coefficient, t.exponents.mapKeys (Variable.moveTo s)⟩

/-- All variables are those of one model. -/
def OwnedBy (id : ModelId) (t : Term R) : Prop := t.exponents.OwnedBy id

end Term

/-- All variables are those of one model. -/
def Terms.OwnedBy {R : Type} (id : ModelId) (ts : Terms R) : Prop := ∀ t ∈ ts, t.OwnedBy id

namespace Expr

variable {R : Type}

def moveTo (s : ModelId) : Expr R → Expr R
  | monomial t => monomial (t.moveTo s)
  | posynomial ts => posynomial (ts.map (·.moveTo s))
  | signomial ts => signomial (ts.map (·.moveTo s))
  | power a p => power (a.moveTo s) p
  | quotient a b => quotient (a.moveTo s) (b.moveTo s)
  | sum a b => sum (a.moveTo s) (b.moveTo s)
  | product a b => product (a.moveTo s) (b.moveTo s)
  | neg a => neg (a.moveTo s)

/-- All variables are those of one model. -/
def OwnedBy (id : ModelId) (e : Expr R) : Prop := ∀ v ∈ e.occurrences, v.owner = id

end Expr

section Move

variable {R : Type} (s : ModelId)

def Relation.moveTo (r : Relation R) : Relation R := ⟨r.lhs.moveTo s, r.sense, r.rhs.moveTo s⟩

def GeometricForm.moveTo : GeometricForm R → GeometricForm R
  | equality m => equality (m.moveTo s)
  | inequality p => inequality (p.map (·.moveTo s))

def Form.moveTo : Form R → Form R
  | geometric g => geometric (g.moveTo s)
  | signomial p q => signomial (p.map (·.moveTo s)) (q.map (·.moveTo s))

def Canonical.moveTo (c : Canonical R) : Canonical R := ⟨c.form.moveTo s, c.negateDual⟩

def Constraint.moveTo (c : Constraint R) : Constraint R :=
  ⟨c.toCanonical.moveTo s, c.relation.moveTo s, c.name⟩

def Objective.moveTo : Objective R → Objective R
  | minimize p => minimize (p.map (·.moveTo s))
  | maximize m => maximize (m.moveTo s)

end Move

/-! ## Exponents -/

theorem Variable.moveTo_lt_iff {s id : ModelId} {u v : Variable} (hu : u.owner = id)
    (hv : v.owner = id) : u.moveTo s < v.moveTo s ↔ u < v := by
  show s < s ∨ s = s ∧ u.index < v.index ↔ u.owner < v.owner ∨ u.owner = v.owner ∧ u.index < v.index
  simp [hu, hv]

theorem Variable.moveTo_inj {s id : ModelId} {u v : Variable} (hu : u.owner = id)
    (hv : v.owner = id) : u.moveTo s = v.moveTo s ↔ u = v := by
  obtain ⟨o, i⟩ := u
  obtain ⟨o', i'⟩ := v
  obtain rfl : o = id := hu
  obtain rfl : o' = o := hv
  simp [moveTo]

namespace Sparse

/-- Other keys in the same order leave the entries in their places. -/
theorem entries_mapKeys {κ κ' R : Type} [Key κ] [Key κ'] {f : κ → κ'} {m : Sparse κ R}
    (hf : ∀ a ∈ m.keys, ∀ b ∈ m.keys, a < b → f a < f b) :
    (m.mapKeys f).entries = m.entries.map fun e => (f e.1, e.2) := by
  have hsorted : m.entries.Pairwise fun a b => f a.1 < f b.1 := by
    refine m.sorted.imp_of_mem fun ha hb hlt => ?_
    exact hf _ (List.mem_map_of_mem ha) _ (List.mem_map_of_mem hb) hlt
  exact entries_foldl_alter (fun _ => rfl) .empty hsorted (by simp [empty])

/-- Families with other keys are equal exactly if they were, if the keys are. -/
theorem beq_mapKeys {κ κ' R : Type} [Key κ] [Key κ'] [BEq R] {f : κ → κ'} {m n : Sparse κ R}
    (hm : (m.mapKeys f).entries = m.entries.map fun e => (f e.1, e.2))
    (hn : (n.mapKeys f).entries = n.entries.map fun e => (f e.1, e.2))
    (hf : ∀ a ∈ m.keys, ∀ b ∈ n.keys, f a = f b ↔ a = b) :
    (m.mapKeys f == n.mapKeys f) = (m == n) := by
  show ((m.mapKeys f).entries == (n.mapKeys f).entries) = (m.entries == n.entries)
  rw [hm, hn]
  have hlists : ∀ es ds : List (κ × R), (∀ e ∈ es, ∀ d ∈ ds, f e.1 = f d.1 ↔ e.1 = d.1) →
      ((es.map fun e => (f e.1, e.2)) == ds.map fun d => (f d.1, d.2)) = (es == ds) := by
    intro es
    induction es with
    | nil => intro ds _; cases ds <;> rfl
    | cons e es ih =>
      intro ds h
      cases ds with
      | nil => rfl
      | cons d ds =>
        have hkey : (f e.1 == f d.1) = (e.1 == d.1) := by
          rw [Bool.eq_iff_iff, beq_iff_eq, beq_iff_eq]
          exact h e List.mem_cons_self d List.mem_cons_self
        show ((f e.1 == f d.1 && e.2 == d.2) && _) = ((e.1 == d.1 && e.2 == d.2) && _)
        rw [hkey]
        congr 1
        exact ih ds fun e he d hd => h e (List.mem_cons_of_mem _ he) d (List.mem_cons_of_mem _ hd)
  exact hlists _ _ fun e he d hd => hf _ (List.mem_map_of_mem he) _ (List.mem_map_of_mem hd)

/-- Updates find the same place. -/
theorem alterEntries_moveTo {R : Type} {s id : ModelId} {v : Variable} (hv : v.owner = id)
    (f : Option R → Option R) {es : List (Variable × R)} (hes : ∀ e ∈ es, e.1.owner = id) :
    alterEntries f (v.moveTo s) (es.map fun e => (e.1.moveTo s, e.2)) =
      (alterEntries f v es).map fun e => (e.1.moveTo s, e.2) := by
  have hcons : ∀ (w : Option R) (es : List (Variable × R)),
      consEntry (v.moveTo s) w (es.map fun e => (e.1.moveTo s, e.2)) =
        (consEntry v w es).map fun e => (e.1.moveTo s, e.2) := by
    intro w es
    cases w <;> rfl
  induction es with
  | nil => exact hcons _ []
  | cons e es ih =>
    obtain ⟨he, hes⟩ := List.forall_mem_cons.mp hes
    rw [List.map_cons, alterEntries, alterEntries]
    simp only [Variable.moveTo_lt_iff hv he, Variable.moveTo_lt_iff he hv]
    split
    · exact hcons _ (e :: es)
    · split
      · rw [List.map_cons, ih hes]
      · exact hcons _ es

section OwnedBy

variable {R : Type} {s id : ModelId} {m : Sparse Variable R} (hm : m.OwnedBy id)
include hm

theorem OwnedBy.entries : ∀ e ∈ m.entries, e.1.owner = id :=
  fun _ he => hm _ (List.mem_map_of_mem he)

theorem OwnedBy.alter {v : Variable} (hv : v.owner = id) (f : Option R → Option R) :
    (m.alter f v).OwnedBy id :=
  fun w hw => (mem_keys_alter hw).elim (fun h => h ▸ hv) (hm w)

theorem entries_moveTo :
    (m.mapKeys (Variable.moveTo s)).entries = m.entries.map fun e => (e.1.moveTo s, e.2) :=
  entries_mapKeys fun a ha b hb hlt => (Variable.moveTo_lt_iff (hm a ha) (hm b hb)).mpr hlt

theorem keys_moveTo : (m.mapKeys (Variable.moveTo s)).keys = m.keys.map (Variable.moveTo s) := by
  rw [keys, entries_moveTo hm, keys, List.map_map, List.map_map]
  rfl

theorem alter_moveTo {v : Variable} (hv : v.owner = id) (f : Option R → Option R) :
    (m.alter f v).mapKeys (Variable.moveTo s) =
      (m.mapKeys (Variable.moveTo s)).alter f (v.moveTo s) := by
  apply ext_entries
  rw [entries_moveTo (hm.alter hv f)]
  show _ = alterEntries f (v.moveTo s) (m.mapKeys (Variable.moveTo s)).entries
  rw [entries_moveTo hm, alterEntries_moveTo hv f hm.entries]
  rfl

theorem isEmpty_moveTo : (m.mapKeys (Variable.moveTo s)).isEmpty = m.isEmpty := by
  rw [isEmpty, entries_moveTo hm, List.isEmpty_map, isEmpty]

/-- Moving tells families apart exactly where they were. -/
theorem beq_moveTo [BEq R] {n : Sparse Variable R} (hn : n.OwnedBy id) :
    (m.mapKeys (Variable.moveTo s) == n.mapKeys (Variable.moveTo s)) = (m == n) := by
  apply beq_mapKeys (entries_moveTo hm) (entries_moveTo hn)
  exact fun a ha b hb => Variable.moveTo_inj (hm a ha) (hn b hb)

end OwnedBy

end Sparse

/-! ## Terms -/

namespace Term

variable {R : Type} [Scalar R] {s id : ModelId} {t : Term R}

theorem moveTo_neg (t : Term R) : t.neg.moveTo s = (t.moveTo s).neg := rfl

omit [Scalar R] in
theorem isConstant_moveTo (ht : t.OwnedBy id) : (t.moveTo s).isConstant = t.isConstant :=
  Sparse.isEmpty_moveTo ht

theorem isPositive_moveTo (ht : t.OwnedBy id) : (t.moveTo s).isPositive = t.isPositive := by
  rw [isPositive, isConstant_moveTo ht]
  rfl

/-- Multiplying by powers commutes with moving. -/
theorem foldl_moveTo (ht : t.OwnedBy id) (g : R → R) {ps : List (Variable × R)}
    (hps : ∀ p ∈ ps, p.1.owner = id) :
    (ps.foldl (fun t p => t.addExponent p.1 (g p.2)) t).moveTo s =
      (ps.map fun p => (p.1.moveTo s, p.2)).foldl (fun t p => t.addExponent p.1 (g p.2))
        (t.moveTo s) := by
  induction ps generalizing t with
  | nil => rfl
  | cons p ps ih =>
    obtain ⟨hp, hps⟩ := List.forall_mem_cons.mp hps
    have hstep : (t.addExponent p.1 (g p.2)).moveTo s =
        (t.moveTo s).addExponent (p.1.moveTo s) (g p.2) :=
      ext rfl (Sparse.alter_moveTo ht hp _)
    rw [List.foldl_cons, ih (t := t.addExponent p.1 (g p.2)) (Sparse.OwnedBy.alter ht hp _) hps,
      hstep, List.map_cons, List.foldl_cons]

theorem moveTo_div (ht : t.OwnedBy id) {d : Term R} (hd : d.OwnedBy id) :
    (t.div d).moveTo s = (t.moveTo s).div (d.moveTo s) := by
  rw [div, foldl_moveTo (t := ⟨t.coefficient / d.coefficient, t.exponents⟩) ht (fun e => -e)
    (Sparse.OwnedBy.entries hd), div]
  show _ = List.foldl _ _ (d.exponents.mapKeys (Variable.moveTo s)).entries
  rw [Sparse.entries_moveTo hd]
  rfl

theorem OwnedBy.div (ht : t.OwnedBy id) {d : Term R} (hd : d.OwnedBy id) : (t.div d).OwnedBy id :=
  fun v hv => (mem_keys_div hv).elim (ht v) (hd v)

/-- Only positions are left in the logarithm of a term. -/
theorem logAffine_moveTo (ht : t.OwnedBy id) : (t.moveTo s).logAffine = t.logAffine := by
  show List.foldl _ _ (t.exponents.mapKeys (Variable.moveTo s)).entries = _
  rw [Sparse.entries_moveTo ht, List.foldl_map]
  rfl

end Term

namespace Terms

variable {R : Type} {s id : ModelId} {ts us : Terms R}

theorem ownedBy_iff : ts.OwnedBy id ↔ ∀ v ∈ occurrences ts, v.owner = id := by
  constructor
  · intro h v hv
    obtain ⟨t, ht, hv⟩ := mem_occurrences.mp hv
    exact h t ht v hv
  · exact fun h t ht v hv => h v (mem_occurrences.mpr ⟨t, ht, hv⟩)

theorem occurrences_moveTo (h : ts.OwnedBy id) :
    occurrences (ts.map (·.moveTo s)) = (occurrences ts).map (Variable.moveTo s) := by
  rw [occurrences, List.flatMap_map, occurrences, List.map_flatMap]
  apply List.flatMap_congr
  intro t ht
  exact Sparse.keys_moveTo (h t ht)

variable [Scalar R]

theorem isPositive_moveTo (h : ts.OwnedBy id) :
    isPositive (ts.map (·.moveTo s)) = isPositive ts := by
  rw [Bool.eq_iff_iff, isPositive, isPositive, List.all_map, List.all_eq_true, List.all_eq_true]
  refine forall₂_congr fun t ht => ?_
  rw [Function.comp_apply, Term.isPositive_moveTo (h t ht)]

theorem neg_moveTo (ts : Terms R) : (neg ts).map (·.moveTo s) = neg (ts.map (·.moveTo s)) := by
  simp [neg, Term.moveTo_neg]

theorem divTerm_moveTo (h : ts.OwnedBy id) {d : Term R} (hd : d.OwnedBy id) :
    (divTerm ts d).map (·.moveTo s) = divTerm (ts.map (·.moveTo s)) (d.moveTo s) := by
  rw [divTerm, divTerm, List.map_map, List.map_map]
  exact List.map_congr_left fun t ht => Term.moveTo_div (h t ht) hd

/-! ## Merging and splitting -/

theorem merge_moveTo {t : Term R} (ht : t.OwnedBy id) (h : us.OwnedBy id) :
    (merge t us).map (·.moveTo s) = merge (t.moveTo s) (us.map (·.moveTo s)) := by
  induction us with
  | nil => rfl
  | cons u us ih =>
    obtain ⟨hu, hus⟩ := List.forall_mem_cons.mp h
    have halike : ((u.moveTo s).exponents == (t.moveTo s).exponents) =
        (u.exponents == t.exponents) := Sparse.beq_moveTo hu ht
    rw [List.map_cons, merge, merge, halike]
    split
    · rfl
    · rw [List.map_cons, ih hus]

theorem combine_moveTo (h : ts.OwnedBy id) :
    (combine ts).map (·.moveTo s) = combine (ts.map (·.moveTo s)) := by
  have hfold : ∀ ts us : Terms R, ts.OwnedBy id → us.OwnedBy id →
      (List.foldl (fun acc t => merge t acc) us ts).map (·.moveTo s) =
        List.foldl (fun acc t => merge t acc) (us.map (·.moveTo s)) (ts.map (·.moveTo s)) := by
    intro ts
    induction ts with
    | nil => intro us _ _; rfl
    | cons t ts ih =>
      intro us hts hus
      obtain ⟨ht, hts⟩ := List.forall_mem_cons.mp hts
      have hmerge : (merge t us).OwnedBy id := ownedBy_iff.mpr fun v hv =>
        (mem_occurrences_merge hv).elim (ht v) (ownedBy_iff.mp hus v)
      rw [List.foldl_cons, ih _ hts hmerge, merge_moveTo ht hus, List.map_cons, List.foldl_cons]
  exact hfold ts [] h (by simp [OwnedBy])

theorem positivePart_moveTo (ts : Terms R) :
    (positivePart ts).map (·.moveTo s) = positivePart (ts.map (·.moveTo s)) := by
  rw [positivePart, positivePart, List.filter_map]
  rfl

theorem negativePart_moveTo (ts : Terms R) :
    (negativePart ts).map (·.moveTo s) = negativePart (ts.map (·.moveTo s)) := by
  simp only [negativePart, List.filter_map, List.map_map]
  rfl

theorem split_moveTo (h : ts.OwnedBy id) {p q : Terms R} (hsplit : split ts = .ok (p, q)) :
    split (ts.map (·.moveTo s)) = .ok (p.map (·.moveTo s), q.map (·.moveTo s)) := by
  obtain ⟨hp, hq⟩ := split_cases hsplit
  simp only [split] at hsplit ⊢
  rw [← combine_moveTo h, List.find?_map]
  split at hsplit
  · simp at hsplit
  · next hfind =>
    have hfind' : List.find? ((fun t : Term R => !Scalar.isFinite t.coefficient) ∘ (·.moveTo s))
        (combine ts) = none := hfind
    rw [hfind', Option.map_none, hp, hq, positivePart_moveTo, negativePart_moveTo]

end Terms

/-! ## Expressions and relations -/

namespace Expr

variable {R : Type} {s id : ModelId}

theorem terms?_moveTo {e : Expr R} {ts : Terms R} (h : e.terms? = some ts) :
    (e.moveTo s).terms? = some (ts.map (·.moveTo s)) := by
  cases e <;> cases h <;> rfl

theorem occurrences_moveTo {e : Expr R} (h : e.OwnedBy id) :
    (e.moveTo s).occurrences = e.occurrences.map (Variable.moveTo s) := by
  induction e with
  | monomial t => exact Sparse.keys_moveTo h
  | posynomial ts | signomial ts => exact Terms.occurrences_moveTo (Terms.ownedBy_iff.mpr h)
  | power a p ih | neg a ih => exact ih h
  | quotient a b iha ihb | sum a b iha ihb | product a b iha ihb =>
    obtain ⟨ha, hb⟩ := List.forall_mem_append.mp h
    rw [moveTo, occurrences, iha ha, ihb hb, occurrences, List.map_append]

theorem OwnedBy.terms {e : Expr R} (h : e.OwnedBy id) {ts : Terms R} (hts : e.terms? = some ts) :
    ts.OwnedBy id :=
  Terms.ownedBy_iff.mpr (occurrences_of_terms? hts ▸ h)

end Expr

theorem Form.isSignomial_moveTo {R : Type} {s : ModelId} (f : Form R) :
    (f.moveTo s).isSignomial = f.isSignomial := by
  cases f <;> rfl

namespace Relation

variable {R : Type} {s id : ModelId}

/-- All variables are those of one model. -/
def OwnedBy (id : ModelId) (r : Relation R) : Prop := r.lhs.OwnedBy id ∧ r.rhs.OwnedBy id

theorem support_isEmpty_moveTo {r : Relation R} (h : r.OwnedBy id) :
    (r.moveTo s).support.isEmpty = r.support.isEmpty := by
  have hempty : ∀ vs : List Variable, (Variable.sorted vs).isEmpty = vs.isEmpty := by
    intro vs
    rw [Bool.eq_iff_iff, List.isEmpty_iff, List.isEmpty_iff, List.eq_nil_iff_forall_not_mem,
      List.eq_nil_iff_forall_not_mem]
    simp only [Variable.mem_sorted]
  show (Variable.sorted ((r.lhs.moveTo s).occurrences ++ (r.rhs.moveTo s).occurrences)).isEmpty =
    (Variable.sorted (r.lhs.occurrences ++ r.rhs.occurrences)).isEmpty
  rw [hempty, hempty, Expr.occurrences_moveTo h.1, Expr.occurrences_moveTo h.2,
    ← List.map_append, List.isEmpty_map]

variable [Scalar R]

theorem equationOf_moveTo {r : Relation R} {p q : Terms R} (hp : p.OwnedBy id)
    (hq : q.OwnedBy id) {f : Form R} (h : r.equationOf p q = .ok f) :
    (r.moveTo s).equationOf (p.map (·.moveTo s)) (q.map (·.moveTo s)) = .ok (f.moveTo s) := by
  obtain ⟨t, d, rfl, rfl, rfl⟩ := equationOf_cases h
  have ht : t.OwnedBy id := hp t List.mem_cons_self
  have hd : d.OwnedBy id := hq d List.mem_cons_self
  have hpositive : (t.div d).isPositive = true := by
    by_contra hnot
    simp [equationOf, Term.toMonomial, hnot, Except.map] at h
  have hmoved : ((t.moveTo s).div (d.moveTo s)).isPositive = true := by
    rw [← Term.moveTo_div ht hd, Term.isPositive_moveTo (ht.div hd), hpositive]
  simp only [List.map_cons, List.map_nil, equationOf, Term.toMonomial, hmoved, if_true,
    Except.map, Form.moveTo, GeometricForm.moveTo, Term.moveTo_div ht hd]

theorem boundOf_moveTo {r : Relation R} {allow : Bool} {p q : Terms R} (hp : p.OwnedBy id)
    (hq : q.OwnedBy id) {f : Form R} (h : r.boundOf allow p q = .ok f) :
    (r.moveTo s).boundOf allow (p.map (·.moveTo s)) (q.map (·.moveTo s)) = .ok (f.moveTo s) := by
  match p, q, h with
  | t :: ts, [d], h =>
    obtain rfl := Except.ok.inj h
    have hdiv := Terms.divTerm_moveTo (s := s) hp (hq d List.mem_cons_self)
    exact congrArg (fun p => Except.ok (Form.geometric (.inequality p))) hdiv.symm
  | t :: ts, d :: d' :: ds, h =>
    cases allow with
    | true =>
      obtain rfl := Except.ok.inj h
      rfl
    | false => cases h

/-- Which form a split has is decided by the numbers of terms and their coefficients. -/
theorem formOf_moveTo {r : Relation R} {allow : Bool} {p q : Terms R} (hp : p.OwnedBy id)
    (hq : q.OwnedBy id) {f : Form R} (h : r.formOf allow p q = .ok f) :
    (r.moveTo s).formOf allow (p.map (·.moveTo s)) (q.map (·.moveTo s)) = .ok (f.moveTo s) := by
  unfold formOf at h ⊢
  have hsense : (r.moveTo s).sense = r.sense := rfl
  rw [hsense]
  cases hs : r.sense with
  | equal =>
    rw [hs] at h
    exact equationOf_moveTo hp hq h
  | atMost | atLeast =>
    rw [hs] at h
    exact boundOf_moveTo hp hq h

omit [Scalar R] in
theorem ownedBy_iff {r : Relation R} : r.OwnedBy id ↔ ∀ v ∈ r.support, v.owner = id := by
  simp only [support, Variable.mem_sorted]
  exact List.forall_mem_append.symm

/-- The terms that are split move along. -/
theorem terms?_difference_moveTo {r : Relation R} {ls rs ts : Terms R}
    (hl : r.lhs.terms? = some ls) (hr : r.rhs.terms? = some rs)
    (hts : r.difference.terms? = some ts) :
    (r.moveTo s).difference.terms? = some (ts.map (·.moveTo s)) := by
  have hl' : (r.moveTo s).lhs.terms? = _ := Expr.terms?_moveTo hl
  have hr' : (r.moveTo s).rhs.terms? = _ := Expr.terms?_moveTo hr
  rw [terms?_difference hl hr, Option.some.injEq] at hts
  rw [terms?_difference hl' hr', ← hts, ← Terms.neg_moveTo, ← Terms.neg_moveTo]
  show some (if r.sense = .atLeast then _ else _) = _
  split <;> rw [List.map_append]

/-- Normalization commutes with moving. -/
theorem normalize_moveTo {r : Relation R} (hr : r.OwnedBy id) {allow : Bool} {c : Canonical R}
    (h : r.normalize allow = .ok c) : (r.moveTo s).normalize allow = .ok (c.moveTo s) := by
  obtain ⟨ls, rs, ts, p, q, hl, hrs, hts, hsplit, hform, hdual⟩ := normalize_cases h
  have howned : ∀ v, v ∈ Terms.occurrences p ∨ v ∈ Terms.occurrences q → v.owner = id :=
    fun v hv => ownedBy_iff.mp hr v
      (mem_support_of_difference hl hrs hts (Terms.mem_occurrences_of_split hsplit hv))
  have hp : p.OwnedBy id := Terms.ownedBy_iff.mpr fun v hv => howned v (.inl hv)
  have hq : q.OwnedBy id := Terms.ownedBy_iff.mpr fun v hv => howned v (.inr hv)
  have hts' : ts.OwnedBy id := Terms.ownedBy_iff.mpr fun v hv =>
    ownedBy_iff.mp hr v (mem_support_of_difference hl hrs hts hv)
  have hl' : (r.moveTo s).lhs.terms? = _ := Expr.terms?_moveTo hl
  have hrs' : (r.moveTo s).rhs.terms? = _ := Expr.terms?_moveTo hrs
  obtain ⟨hzero, hconst⟩ := checked_of_normalize h hrs
  have hzero' : (List.all (rs.map (·.moveTo s)) fun t => t.coefficient == 0) = false := by
    rw [List.all_map, ← hzero]
    rfl
  rw [normalize_eq_map hl' hrs' hzero' ((support_isEmpty_moveTo hr).trans hconst)
    (terms?_difference_moveTo hl hrs hts) (Terms.split_moveTo hts' hsplit),
    formOf_moveTo hp hq hform]
  show Except.ok (⟨c.form.moveTo s, r.sense == .atLeast⟩ : Canonical R) = _
  rw [← hdual]
  rfl

/-- The form belongs to the same model. -/
theorem ownedBy_of_normalize {r : Relation R} (hr : r.OwnedBy id) {allow : Bool} {c : Canonical R}
    (h : r.normalize allow = .ok c) : Terms.OwnedBy id c.form.terms :=
  Terms.ownedBy_iff.mpr fun v hv => ownedBy_iff.mp hr v (occurrences_of_normalize h hv)

end Relation

/-! ## Objectives and conic programs -/

section Lower

variable {R : Type} [Scalar R] {s id : ModelId}

theorem Objective.ofExpr_moveTo {d : Direction} {e : Expr R} (he : e.OwnedBy id) {o : Objective R}
    (h : ofExpr d e = .ok o) : ofExpr d (e.moveTo s) = .ok (o.moveTo s) := by
  have hbad := badTerm?_of_ofExpr h
  have moved : ∀ {ts : Terms R}, e.terms? = some ts → badTerm? (e.moveTo s) = none := by
    intro ts hts
    rw [badTerm?, hts, Option.bind_some] at hbad
    rw [badTerm?, Expr.terms?_moveTo hts, Option.bind_some, List.find?_map, Option.map_eq_none_iff]
    exact hbad
  unfold ofExpr
  rcases ofExpr_cases h with ⟨rfl, ts, hts, hpos, hne, rfl⟩ | ⟨rfl, m, hm, hpos, rfl⟩
  · have hpos' := (Terms.isPositive_moveTo (s := s) (he.terms hts)).trans hpos
    have hfilter : List.filter (fun t => decide (0 < t.coefficient)) (ts.map (·.moveTo s)) =
        (List.filter (fun t => decide (0 < t.coefficient)) ts).map (·.moveTo s) :=
      (List.filter_map ..).trans rfl
    simp only [moved hts, Expr.asPosynomial?, Expr.terms?_moveTo hts, hpos', if_true, hfilter,
      moveTo]
    split
    · next hnil => exact absurd (List.map_eq_nil_iff.mp hnil) hne
    · rfl
  · have hcoefficient : 0 < (m.moveTo s).coefficient := hpos
    have hpos' : (m.moveTo s).isPositive = true := by simp [Term.isPositive, hcoefficient]
    simp only [moved hm, Expr.asMonomial?, Expr.terms?_moveTo hm, List.map_cons, List.map_nil,
      hpos', hcoefficient, if_true, moveTo]

theorem Objective.ownedBy_of_ofExpr {d : Direction} {e : Expr R} (he : e.OwnedBy id)
    {o : Objective R} (h : ofExpr d e = .ok o) : Terms.OwnedBy id o.terms :=
  fun t ht v hv => he v (((terms_ofExpr h).2 t ht).2 v hv)

theorem Block.atMostOne_moveTo {first : ℕ} {shift : Affine R} {ts : Terms R}
    (h : ts.OwnedBy id) : atMostOne first shift (ts.map (·.moveTo s)) = atMostOne first shift ts := by
  have hforms : (ts.map (·.moveTo s)).map (·.logAffine) = ts.map (·.logAffine) := by
    rw [List.map_map]
    exact List.map_congr_left fun t ht => Term.logAffine_moveTo (h t ht)
  -- the cones are made from the logarithms of the terms
  have hcones : ∀ us : Terms R, (us.mapIdx fun k t =>
      Cone.exponential (t.logAffine.add shift) (.scalar 1) (.column (first + k))) =
        (us.map (·.logAffine)).mapIdx fun k a =>
          Cone.exponential (a.add shift) (.scalar 1) (.column (first + k)) := by
    intro us
    apply List.ext_getElem?
    intro i
    rw [List.getElem?_mapIdx, List.getElem?_mapIdx, List.getElem?_map, Option.map_map]
    rfl
  match ts, h, hforms with
  | [], _, _ => rfl
  | [t], h, _ =>
    simp only [List.map_cons, List.map_nil, atMostOne, Term.logAffine_moveTo (h t List.mem_cons_self)]
  | t :: u :: us, _, hforms =>
    have hmap := hcones ((t :: u :: us).map (·.moveTo s))
    rw [hforms, ← hcones] at hmap
    simp only [List.map_cons] at hmap
    simp only [List.map_cons, atMostOne, hmap, List.length_cons, List.length_map]

/-- Only positions are left in the cones of a constraint. -/
theorem Block.ofForm_moveTo {first : ℕ} {g : GeometricForm R} (hg : Terms.OwnedBy id g.terms) :
    ofForm first (g.moveTo s) = ofForm first g := by
  cases g with
  | equality m =>
    rw [GeometricForm.moveTo, ofForm, Term.logAffine_moveTo (hg m List.mem_cons_self), ofForm]
  | inequality p => exact atMostOne_moveTo hg

theorem Block.ofForms_moveTo {first : ℕ} {gs : List (GeometricForm R)}
    (h : ∀ g ∈ gs, Terms.OwnedBy id g.terms) :
    ofForms first (gs.map (·.moveTo s)) = ofForms first gs := by
  induction gs generalizing first with
  | nil => rfl
  | cons g gs ih =>
    obtain ⟨hg, hgs⟩ := List.forall_mem_cons.mp h
    rw [List.map_cons, ofForms, ofForms, ofForm_moveTo hg, ih hgs]

theorem ObjectivePart.ofObjective_moveTo {first : ℕ} {o : Option (Objective R)}
    (h : ∀ o' ∈ o, Terms.OwnedBy id o'.terms) :
    ofObjective first (o.map (·.moveTo s)) = ofObjective first o := by
  match o, h with
  | none, _ => rfl
  | some (.maximize m), h =>
    have hm : m.OwnedBy id := h _ rfl m List.mem_cons_self
    simp only [Option.map_some, Objective.moveTo, ofObjective, Term.logAffine_moveTo hm]
  | some (.minimize []), _ => rfl
  | some (.minimize [t]), h =>
    have ht : t.OwnedBy id := h _ rfl t List.mem_cons_self
    simp only [Option.map_some, Objective.moveTo, List.map_cons, List.map_nil, ofObjective,
      Term.logAffine_moveTo ht]
  | some (.minimize (t :: u :: us)), h =>
    have hblock : Block.atMostOne (first + 1) (Affine.column first).neg
        ((t :: u :: us).map (·.moveTo s)) = _ := Block.atMostOne_moveTo (h _ rfl)
    rw [List.map_cons, List.map_cons] at hblock
    simp only [Option.map_some, Objective.moveTo, List.map_cons, ofObjective, hblock]

/-- A problem and the same problem in another model are one conic program. -/
theorem Lowered.ofProblem_moveTo (vars : List (Declaration R)) {gs : List (GeometricForm R)}
    (hgs : ∀ g ∈ gs, Terms.OwnedBy id g.terms) {o : Option (Objective R)}
    (ho : ∀ o' ∈ o, Terms.OwnedBy id o'.terms) :
    ofProblem vars (gs.map (·.moveTo s)) (o.map (·.moveTo s)) = ofProblem vars gs o := by
  simp only [ofProblem, Block.ofForms_moveTo hgs, ObjectivePart.ofObjective_moveTo ho]

end Lower

end LogConvex
