import LogConvex.InteriorPoint.Iterate

/- Newton directions. A direction keeps the linear conditions as far as it is asked
   to, and moves slacks and dual values together by `ds = shift - W dz`, where `W` is
   the scaling: the quotients of slacks and dual values in the nonnegative cone, and a
   matrix for each exponential cone. Eliminating `ds` leaves one symmetric system for
   `dy` and `dz`, which is solved for two right-hand sides because `dtau` is not known
   beforehand. -/
namespace LogConvex.InteriorPoint

open LinearSystem

variable {R : Type} [Scalar R]

/-- What a direction is for. -/
inductive Mode where
  /-- To bring the mean product down. -/
  | advance
  /-- To make all products alike. -/
  | recenter
  deriving DecidableEq

/-- The system of equations at an iterate. -/
structure Newton (R : Type) where
  scaling : List (List R)
  system : List (List R)
  pivots : List (Pivot R)
  /-- What the unknowns change with `dtau`. -/
  slope : List R

/-- Added to the diagonal of the system that is factored, so that every pivot is
there; refinement takes its effect away. -/
def regularization : R := 1e-9

/-- A row with three entries side by side. -/
def tripleRow (n first : Nat) (t : Triple R) : List R :=
  (List.range n).map fun j =>
    if j == first then t.x else if j == first + 1 then t.y else if j == first + 2 then t.z else 0

namespace Task

/-- The rows of the scaling. -/
def scalingRows (T : Task R) (p : Iterate R) (mode : Mode) : List (List R) :=
  let m := T.sizes.total
  let mean := T.mean p
  let block (s z : Triple R) : Triple (Triple R) :=
    match mode with
    | .advance => ExponentialCone.scaling s z mean
    | .recenter => (ExponentialCone.dualHessian z).map (Triple.scale mean)
  let quotients := List.zipWith (· / ·) p.s.nonneg p.z.nonneg
  let blocks := List.zipWith block p.s.exponential p.z.exponential
  List.replicate T.sizes.zero (List.replicate m 0) ++
    quotients.mapIdx (fun i w => unit m (T.sizes.zero + i) w) ++
    (blocks.mapIdx fun k w =>
      w.toList.map (tripleRow m (T.sizes.zero + T.sizes.nonneg + 3 * k))).flatten

/-- The rows of the system, with a number added to the diagonal. -/
def systemRows (T : Task R) (scaling : List (List R)) (diagonal : R) : List (List R) :=
  let n := T.q.length
  let m := T.sizes.total
  let bottom := (T.rows.zip scaling).mapIdx fun i r =>
    r.1 ++ addScaled (unit m i (-diagonal)) (-1) r.2
  T.columns.mapIdx (fun j c => unit n j diagonal ++ c) ++ bottom

end Task

namespace Newton

/-- Solves the system for a right-hand side. -/
def solve (nt : Newton R) (rhs : List R) : List R :=
  refine nt.system nt.pivots rhs 2 (LinearSystem.solve nt.pivots rhs)

/-- Sets up the system at an iterate. -/
def ofIterate (T : Task R) (p : Iterate R) (mode : Mode) : Option (Newton R) :=
  let scaling := T.scalingRows p mode
  (factor (T.q.length + T.sizes.total) (T.systemRows scaling regularization)).map fun pivots =>
    let nt : Newton R := ⟨scaling, T.systemRows scaling 0, pivots, []⟩
    { nt with slope := nt.solve (T.q.map (-1 * ·) ++ T.b) }

/-- The direction that takes away the share `eta` of the residual, with the given
shifts of the slacks and of `kappa`. -/
def direction (nt : Newton R) (T : Task R) (p : Iterate R) (res : Residual R) (eta : R)
    (shift : List R) (shiftKappa : R) : Iterate R :=
  let n := T.q.length
  let x := nt.solve (res.dual.map (-eta * ·) ++
    List.zipWith (fun r h => eta * r - h) res.primal shift)
  let value (v : List R) : R := dot T.q (v.take n) + dot T.b (v.drop n)
  let ratio := p.kappa / p.tau
  let dtau := (shiftKappa - eta * res.gap + value x) / (ratio - value nt.slope)
  let d := addScaled x dtau nt.slope
  let dz := d.drop n
  { y := d.take n
    s := .ofList T.sizes (addScaled shift (-1) (apply nt.scaling dz))
    z := .ofList T.sizes dz
    tau := dtau
    kappa := shiftKappa - ratio * dtau }

/-- The direction straight to the solution, whatever becomes of the products. -/
def affine (nt : Newton R) (T : Task R) (p : Iterate R) (res : Residual R) : Iterate R :=
  nt.direction T p res 1 (p.s.toList.map (-1 * ·)) (-p.kappa)

/-- The direction to products that are the share `sigma` of their mean. What the
products change beyond first order along `d` is taken into account. -/
def toward (nt : Newton R) (T : Task R) (p : Iterate R) (res : Residual R) (sigma : R)
    (d : Iterate R) : Iterate R :=
  let target := sigma * T.mean p
  let nonneg := List.zipWith
    (fun (a b : R × R) => (target - b.1 * b.2) / a.2 - a.1)
    (p.s.nonneg.zip p.z.nonneg) (d.s.nonneg.zip d.z.nonneg)
  let exponential := List.zipWith
    (fun (a b : Triple R × Triple R) =>
      let back := (ExponentialCone.dualHessian a.2).solve b.1
      let bend := ExponentialCone.halfThird a.2 back b.2
      (bend.sub a.1).sub ((ExponentialCone.dualGradient a.2).scale target))
    (p.s.exponential.zip p.z.exponential) (d.s.exponential.zip d.z.exponential)
  let shift := List.replicate T.sizes.zero 0 ++ nonneg ++ exponential.flatMap Triple.toList
  let shiftKappa := (target - d.tau * d.kappa - p.tau * p.kappa) / p.tau
  nt.direction T p res (1 - sigma) shift shiftKappa

end Newton

end LogConvex.InteriorPoint
