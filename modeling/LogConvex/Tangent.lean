import LogConvex.Posynomial

/- The tangent monomial of a posynomial at a point. In the logarithms of the
   variables a posynomial is convex and a monomial is affine; the tangent is the
   monomial with the same value and the same gradient at the point. So it touches the
   posynomial there and lies below it everywhere. -/
namespace LogConvex

namespace Terms

variable {R : Type} [Scalar R]

/-- The exponents of the tangent: the mean of the exponents of the terms, weighted by
their share in the value at the point. Exponents that become zero are kept. -/
def tangentExponents (ts : Terms R) (x : Point R) : Sparse Variable R :=
  let value := evaluate ts x
  List.foldl (fun m t =>
    let weight := Term.evaluate t x / value
    t.exponents.entries.foldl (fun m p => m.add p.1 (p.2 * weight)) m) .empty ts

/-- The value at a point of a product of powers. -/
def powerProduct (exponents : Sparse Variable R) (x : Point R) : R :=
  Scalar.product (exponents.entries.map fun p =>
    x[p.1.index]?.elim Scalar.missing fun v => Scalar.pow v p.2)

/-- The tangent monomial. A single term is its own tangent, and zero has none. -/
def tangent (ts : Terms R) (x : Point R) : Except (Error R) (Term R) :=
  match ts with
  | [] => .error (.invalidCoefficient 0 .tangent)
  | [t] => t.toMonomial
  | ts =>
    let exponents := tangentExponents ts x
    (Term.ofList (evaluate ts x / powerProduct exponents x) exponents.entries).toMonomial

end Terms

end LogConvex
