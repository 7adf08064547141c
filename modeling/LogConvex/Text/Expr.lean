import LogConvex.Relation
import LogConvex.Decimal.Text

/- The text of terms, expressions and relations over doubles. -/
namespace LogConvex

/-- A coefficient and powers, joined by asterisks. The coefficient one is not written
before a variable, nor is the exponent one after it. -/
def Term.text (t : Term Float) : String :=
  let power (p : Variable × Float) : String :=
    if p.2 == 1.0 then p.1.name else p.1.name ++ "^" ++ Decimal.plain p.2
  let powers := t.exponents.entries.map power
  if t.isConstant then Decimal.plain t.coefficient
  else if t.coefficient == 1.0 then "*".intercalate powers
  else "*".intercalate (Decimal.plain t.coefficient :: powers)

/-- Terms joined by their signs; the first keeps its own. The empty sum is zero. -/
def Terms.text : Terms Float → String
  | [] => "0"
  | t :: ts =>
    let signed (u : Term Float) : String :=
      if u.coefficient < 0 then " - " ++ u.neg.text else " + " ++ u.text
    t.text ++ String.join (List.map signed ts)

/-- A sum is written without parentheses, the operands of a tree node with them. -/
def Expr.text : Expr Float → String
  | monomial t => Terms.text [t]
  | posynomial ts => Terms.text ts
  | signomial ts => Terms.text ts
  | power a p => "(" ++ a.text ++ ")^" ++ Decimal.plain p
  | quotient a b => "(" ++ a.text ++ ") / (" ++ b.text ++ ")"
  | sum a b => "(" ++ a.text ++ ") + (" ++ b.text ++ ")"
  | product a b => "(" ++ a.text ++ ") * (" ++ b.text ++ ")"
  | neg a => "-(" ++ a.text ++ ")"

def Relation.text (r : Relation Float) : String :=
  r.lhs.text ++ " " ++ r.sense.symbol ++ " " ++ r.rhs.text

end LogConvex
