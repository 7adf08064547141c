import LogConvex.Sparse

/- Variable handles. A handle names the model that issued it and a position in
   that model. It carries no data: what was declared about the variable stays in
   the model. Handles are ordered by model, in the order in which the models were
   created, and then by position; terms list their variables in this order. Models
   are counted without a limit: that a counter of 64 bits starts again after `2 ^ 64`
   models is left out. -/
namespace LogConvex

/-- The identity of a model: how many models were created before it. -/
abbrev ModelId := Nat

/-- The handle of a declared variable. -/
structure Variable where
  owner : ModelId
  index : Nat
  deriving DecidableEq, Repr

namespace Variable

instance : Key Variable where
  lt a b := a.owner < b.owner ∨ a.owner = b.owner ∧ a.index < b.index
  decLt _ _ := inferInstanceAs (Decidable (_ ∨ _))
  irrefl a h := by rcases h with h | ⟨_, h⟩ <;> exact Nat.lt_irrefl _ h
  trans h h' := by
    rcases h with h | ⟨e, h⟩ <;> rcases h' with h' | ⟨e', h'⟩
    · exact .inl (Nat.lt_trans h h')
    · exact .inl (e' ▸ h)
    · exact .inl (e ▸ h')
    · exact .inr ⟨e.trans e', Nat.lt_trans h h'⟩
  eq_of_not_lt {a b} h h' := by
    have ho : a.owner = b.owner := by
      rcases Nat.lt_trichotomy a.owner b.owner with l | l | l
      · exact absurd (.inl l) h
      · exact l
      · exact absurd (.inl l) h'
    have hi : a.index = b.index := by
      rcases Nat.lt_trichotomy a.index b.index with l | l | l
      · exact absurd (.inr ⟨ho, l⟩) h
      · exact l
      · exact absurd (.inr ⟨ho.symm, l⟩) h'
    cases a; cases b; simp_all

/-- A variable is written by its position; the model does not show. -/
def name (v : Variable) : String := "v" ++ toString v.index

/-- Puts a variable into an increasing list, unless it is there. -/
def insert (v : Variable) : List Variable → List Variable
  | [] => [v]
  | u :: us =>
    if v < u then v :: u :: us
    else if u < v then u :: insert v us
    else u :: us

/-- The variables of a list, in increasing order and each once. -/
def sorted (vs : List Variable) : List Variable :=
  vs.foldr insert []

end Variable

end LogConvex
