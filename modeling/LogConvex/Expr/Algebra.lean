import LogConvex.Expr.Basic

/- The operators of the algebra. Each one works on the terms of its operands when
   it can and gives the result its narrowest tag; otherwise it builds a tree node
   over the operands as they stand. Either way the result evaluates to the sum,
   product, quotient or power of the values, wherever these are defined. -/
namespace LogConvex

namespace Expr

variable {R : Type} [Scalar R]

/-- The terms of the two sums, one list after the other. -/
def add (a b : Expr R) : Expr R :=
  match a.terms?, b.terms? with
  | some ts, some us => ofTerms (ts ++ us)
  | _, _ => sum a b

/-- Changes the sign of every term. -/
def opposite (a : Expr R) : Expr R :=
  match a.terms? with
  | some ts => ofTerms (Terms.neg ts)
  | none => neg a

def sub (a b : Expr R) : Expr R := add a b.opposite

/-- Every product of a term of `a` with a term of `b`. -/
def mul (a b : Expr R) : Expr R :=
  match a.terms?, b.terms? with
  | some ts, some us => ofTerms (Terms.mul ts us)
  | _, _ => product a b

/-- Divides by a single term whose coefficient is not zero. No other quotient is a
sum of terms. -/
def div (a b : Expr R) : Expr R :=
  match a.terms?, b.terms? with
  | some ts, some [d] =>
    if d.coefficient == 0 then quotient a b else ofTerms (Terms.divTerm ts d)
  | _, _ => quotient a b

/-- A single term can be raised to a power that is a real number: any power of a
coefficient that is not negative, whole powers of one that is, but no negative
power of zero. A longer sum keeps the power one only. -/
def pow (a : Expr R) (p : R) : Expr R :=
  match a.terms? with
  | some [t] =>
    if t.coefficient == 0 && decide (p < 0) then power a p
    else if decide (0 ≤ t.coefficient) || Scalar.isWhole p then ofTerms [t.pow p]
    else if p == 1 then a
    else power a p
  | some _ => if p == 1 then a else power a p
  | none => power a p

instance : Add (Expr R) := ⟨add⟩
instance : Sub (Expr R) := ⟨sub⟩
instance : Mul (Expr R) := ⟨mul⟩
instance : Div (Expr R) := ⟨div⟩
instance : Neg (Expr R) := ⟨opposite⟩

/-- Adds a list of expressions from the left, starting at the empty sum. -/
def total (es : List (Expr R)) : Expr R :=
  es.foldl add (ofTerms [])

end Expr

end LogConvex
