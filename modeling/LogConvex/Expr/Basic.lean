import LogConvex.Kind

/- Expressions. A sum of terms carries the tag under which it was built; anything
   that has left the algebra of sums is a tree over expressions, which can be
   evaluated and printed but not constrained.

   The tag records a promise of whoever built the expression and the kind is read
   off the terms. `ofTerms` makes the two agree. An expression tagged more widely
   than its terms need is legal, has the same value and the same kind, and differs
   from the narrow one when the two are compared. -/
namespace LogConvex

/-- An expression over the variables of models. -/
inductive Expr (R : Type) where
  | monomial (t : Term R)
  | posynomial (ts : Terms R)
  | signomial (ts : Terms R)
  | power (base : Expr R) (p : R)
  | quotient (a b : Expr R)
  | sum (a b : Expr R)
  | product (a b : Expr R)
  | neg (a : Expr R)

namespace Expr

variable {R : Type}

/-- The terms of a sum; what is not a sum has none. -/
def terms? : Expr R → Option (Terms R)
  | monomial t => some [t]
  | posynomial ts => some ts
  | signomial ts => some ts
  | _ => none

/-- The expression has left the algebra of sums. -/
def isNonGp (e : Expr R) : Bool := e.terms?.isNone

/-- The variables that occur, with repetitions. -/
def occurrences : Expr R → List Variable
  | monomial t => t.exponents.keys
  | posynomial ts => Terms.occurrences ts
  | signomial ts => Terms.occurrences ts
  | power a _ => a.occurrences
  | quotient a b => a.occurrences ++ b.occurrences
  | sum a b => a.occurrences ++ b.occurrences
  | product a b => a.occurrences ++ b.occurrences
  | neg a => a.occurrences

/-- The variables that occur, in increasing order and each once. -/
def support (e : Expr R) : List Variable := Variable.sorted e.occurrences

variable [Scalar R]

/-! ## Tags and kinds -/

/-- A sum under its narrowest tag. -/
def ofTerms (ts : Terms R) : Expr R :=
  if Terms.isPositive ts then
    match ts with
    | [t] => monomial t
    | ts => posynomial ts
  else signomial ts

/-- A number. It is a monomial, or a signomial when it is negative. -/
def constant (c : R) : Expr R := ofTerms [Term.constant c]

def ofVariable (v : Variable) : Expr R := monomial (Term.ofVariable v)

/-- The narrowest kind that the terms allow, whatever the tag. -/
def kind (e : Expr R) : Kind :=
  match e.terms? with
  | some ts => Kind.ofTerms ts
  | none => .nonGp

/-! ## Narrowing -/

/-- The only term, if there is one only and it is positive. -/
def asMonomial? (e : Expr R) : Option (Term R) :=
  match e.terms? with
  | some [t] => if t.isPositive then some t else none
  | _ => none

/-- The terms, if all of them are positive. -/
def asPosynomial? (e : Expr R) : Option (Terms R) :=
  match e.terms? with
  | some ts => if Terms.isPositive ts then some ts else none
  | none => none

/-- The terms. -/
def asSignomial? (e : Expr R) : Option (Terms R) := e.terms?

/-! ## Meaning -/

/-- The value at a point. -/
def evaluate (x : Point R) : Expr R → R
  | monomial t => t.evaluate x
  | posynomial ts => Terms.evaluate ts x
  | signomial ts => Terms.evaluate ts x
  | power a p => Scalar.pow (a.evaluate x) p
  | quotient a b => a.evaluate x / b.evaluate x
  | sum a b => a.evaluate x + b.evaluate x
  | product a b => a.evaluate x * b.evaluate x
  | neg a => -a.evaluate x

/-- Equality of tags, of terms in their order, and of the numbers in them. -/
def beq : Expr R → Expr R → Bool
  | monomial t, monomial u => t == u
  | posynomial ts, posynomial us => ts == us
  | signomial ts, signomial us => ts == us
  | power a p, power b q => a.beq b && p == q
  | quotient a b, quotient c d => a.beq c && b.beq d
  | sum a b, sum c d => a.beq c && b.beq d
  | product a b, product c d => a.beq c && b.beq d
  | neg a, neg b => a.beq b
  | _, _ => false

instance : BEq (Expr R) := ⟨beq⟩

end Expr

end LogConvex
