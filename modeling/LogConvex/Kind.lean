import LogConvex.Term

/- The four kinds of expression, from the narrowest to the widest. The kind of a
   sum depends on its terms alone. Every monomial is a posynomial and every posynomial
   a signomial; what has left the algebra of sums is none of the three. -/
namespace LogConvex

inductive Kind where
  /-- One positive term. -/
  | monomial
  /-- A sum of positive terms. -/
  | posynomial
  /-- A sum of terms of any sign. -/
  | signomial
  /-- Not a sum of terms. -/
  | nonGp
  deriving DecidableEq, Repr

namespace Kind

/-- The place in the order from the narrowest to the widest. -/
def rank : Kind → Nat
  | monomial => 0
  | posynomial => 1
  | signomial => 2
  | nonGp => 3

instance : Ord Kind where
  compare a b := compare a.rank b.rank

def isMonomial (k : Kind) : Bool := k.rank == 0

def isPosynomial (k : Kind) : Bool := decide (k.rank ≤ 1)

def isSignomial (k : Kind) : Bool := decide (k.rank ≤ 2)

def name : Kind → String
  | monomial => "monomial"
  | posynomial => "posynomial"
  | signomial => "signomial"
  | nonGp => "non-GP"

/-- The narrowest kind of a sum. The empty sum is a posynomial. -/
def ofTerms {R : Type} [Scalar R] (ts : Terms R) : Kind :=
  if Terms.isPositive ts then
    match ts with
    | [_] => monomial
    | _ => posynomial
  else signomial

end Kind

end LogConvex
