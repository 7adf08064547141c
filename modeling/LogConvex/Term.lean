import LogConvex.Scalar
import LogConvex.Variable

/- Terms: a coefficient times a product of variables raised to real powers. The
   coefficient may have any sign. A term built by the functions of this file from
   a list of factors stores no exponent that is zero, so a variable that cancels
   leaves no trace and terms can be compared by comparing what they store. -/
namespace LogConvex

/-- Numbers for the variables of a model, by index. -/
abbrev Point (R : Type) := List R

/-- The value of a variable at a point; a variable outside the point has none. -/
def Point.value {R : Type} [Scalar R] (x : Point R) (v : Variable) : R :=
  x[v.index]?.getD Scalar.missing

/-- A coefficient and the exponents of the variables that occur. -/
structure Term (R : Type) where
  coefficient : R
  exponents : Sparse Variable R

namespace Term

variable {R : Type}

def constant (c : R) : Term R := ⟨c, .empty⟩

/-- No variable occurs. -/
def isConstant (t : Term R) : Bool := t.exponents.isEmpty

variable [Scalar R]

/-- Multiplies by a variable raised to a power. -/
def addExponent (t : Term R) (v : Variable) (e : R) : Term R :=
  { t with exponents := t.exponents.addReduced v e }

/-- A coefficient times a list of powers. The exponents of a variable that occurs
more than once add up, from the left. -/
def ofList (c : R) (powers : List (Variable × R)) : Term R :=
  powers.foldl (fun t p => t.addExponent p.1 p.2) (constant c)

/-- A variable by itself. -/
def ofVariable (v : Variable) : Term R := ofList 1 [(v, 1)]

/-- The term may stand in a posynomial: its coefficient is positive, or the term is
the number zero. -/
def isPositive (t : Term R) : Bool :=
  decide (0 < t.coefficient) || (t.coefficient == 0 && t.isConstant)

/-- The exponent of a variable, zero when it does not occur. -/
def exponent (t : Term R) (v : Variable) : R := t.exponents.weight v

/-! ## Arithmetic -/

/-- Coefficients multiply and exponents add. -/
def mul (t u : Term R) : Term R :=
  u.exponents.entries.foldl (fun t p => t.addExponent p.1 p.2)
    { t with coefficient := t.coefficient * u.coefficient }

/-- Coefficients divide and exponents subtract. -/
def div (t u : Term R) : Term R :=
  u.exponents.entries.foldl (fun t p => t.addExponent p.1 (-p.2))
    { t with coefficient := t.coefficient / u.coefficient }

/-- Multiplies the coefficient by a number. -/
def scale (t : Term R) (c : R) : Term R :=
  { t with coefficient := t.coefficient * c }

/-- Changes the sign of the coefficient. -/
def neg (t : Term R) : Term R := t.scale (-1)

/-- The real power. The power zero of any term is the number one. -/
def pow (t : Term R) (p : R) : Term R :=
  if p == 0 then constant 1
  else ⟨Scalar.pow t.coefficient p, t.exponents.map (· * p)⟩

/-- The value at a point: the coefficient times the powers, in the order of the
variables. -/
def evaluate (t : Term R) (x : Point R) : R :=
  t.exponents.entries.foldl (fun acc p => acc * Scalar.pow (x.value p.1) p.2) t.coefficient

/-- Terms are equal when they store equal numbers. -/
instance : BEq (Term R) where
  beq t u := t.coefficient == u.coefficient && t.exponents == u.exponents

end Term

/-! ## Sums of terms -/

/-- A sum of terms, in the order in which it was written. -/
abbrev Terms (R : Type) := List (Term R)

namespace Terms

variable {R : Type}

/-- The variables that occur, with repetitions. -/
def occurrences (ts : Terms R) : List Variable :=
  List.flatMap (fun t => t.exponents.keys) ts

/-- The term of a sum that has one term only. -/
def single? : Terms R → Option (Term R)
  | [t] => some t
  | _ => none

variable [Scalar R]

/-- The value of a sum at a point. -/
def evaluate (ts : Terms R) (x : Point R) : R :=
  Scalar.total (List.map (fun t => Term.evaluate t x) ts)

/-- Every term may stand in a posynomial. -/
def isPositive (ts : Terms R) : Bool := List.all ts Term.isPositive

/-- Changes the sign of every term. -/
def neg (ts : Terms R) : Terms R := List.map Term.neg ts

/-- Every product of a term of the first sum with a term of the second; the first
sum is the outer one. -/
def mul (ts us : Terms R) : Terms R :=
  List.flatMap (fun t => List.map (fun u => Term.mul t u) us) ts

/-- Divides every term. -/
def divTerm (ts : Terms R) (d : Term R) : Terms R := List.map (fun t => Term.div t d) ts

end Terms

end LogConvex
