import LogConvex.InteriorPoint.Newton

/- Steps from one interior point to the next. A step follows a direction as far as
   all slacks and dual values stay inside their cones and the new point stays near
   enough to the central path, which is measured by the barriers: they sum up to their
   least value on the path and grow without bound at the border. -/
namespace LogConvex.InteriorPoint

variable {R : Type} [Scalar R]

/-- Shortens a step until it passes a test; a step that never passes has length
zero. -/
def backtrack (test : R → Bool) : Nat → R → R
  | 0, _ => 0
  | n + 1, t => if test t then t else backtrack test n (0.8 * t)

/-- The longest step, at most `t`, for which `x` does not become negative. -/
def ratioTest (t : R) (x : R × R) : R :=
  if x.2 < 0 then Scalar.min t (-x.1 / x.2) else t

namespace Iterate

/-- All triples are inside the exponential cone and its dual. -/
def insideCones (p : Iterate R) : Bool :=
  p.s.exponential.all ExponentialCone.inside && p.z.exponential.all ExponentialCone.insideDual

/-- The longest step that stays inside the cones. -/
def longestStep (p d : Iterate R) : R :=
  let pairs := p.s.nonneg.zip d.s.nonneg ++ p.z.nonneg.zip d.z.nonneg ++
    [(p.tau, d.tau), (p.kappa, d.kappa)]
  let t := pairs.foldl ratioTest 1
  if p.s.exponential.isEmpty then t
  else backtrack (fun t => (p.move d t).insideCones) 60 (Scalar.min t 0.99)

end Iterate

namespace Task

/-- The distance from the central path, by the barriers. -/
def proximity (T : Task R) (p : Iterate R) : R :=
  let products := List.zipWith (· * ·) p.s.nonneg p.z.nonneg
  let barriers := List.zipWith
    (fun s z => ExponentialCone.dualBarrier z + ExponentialCone.barrier s)
    p.s.exponential p.z.exponential
  T.degree * Scalar.log (T.mean p) - Scalar.log (p.tau * p.kappa) -
    Scalar.total (products.map Scalar.log) + Scalar.total barriers

/-- The step along a direction that is taken. Without exponential cones every
interior point is near enough. -/
def stepLength (T : Task R) (p d : Iterate R) : R :=
  let t := 0.99 * p.longestStep d
  if T.sizes.exponential = 0 then t
  else backtrack (fun t => decide (T.proximity (p.move d t) < 1)) 60 t

/-- A direction for a purpose, and the step along it that is taken. -/
def attempt (T : Task R) (p : Iterate R) (mode : Mode) : Option (R × Iterate R) :=
  (Newton.ofIterate T p mode).map fun nt =>
    let res := T.residual p
    let d := match mode with
      | .advance =>
        let affine := nt.affine T p res
        let rest := 1 - p.longestStep affine
        nt.toward T p res (rest * rest * rest) affine
      | .recenter => nt.toward T p res 1 T.still
    (T.stepLength p d, d)

/-- The better of two attempts. -/
def better (a b : Option (R × Iterate R)) : Option (R × Iterate R) :=
  match a, b with
  | some a, some b => if a.1 < b.1 then some b else some a
  | some a, none => some a
  | none, b => b

/-- The next iterate. If there is hardly any way ahead, the iterate is brought back to
the central path instead; if that does not go either, there is no next one. -/
def next (T : Task R) (p : Iterate R) : Option (Iterate R) :=
  let ahead := T.attempt p .advance
  let chosen := match ahead with
    | some (t, d) => if 0.05 ≤ t then some (t, d) else better ahead (T.attempt p .recenter)
    | none => T.attempt p .recenter
  match chosen with
  | some (t, d) => if 1e-4 ≤ t then some (p.move d t) else none
  | none => none

/-- The iterate brought closer to the central path. -/
def recentered (T : Task R) (p : Iterate R) : Option (Iterate R) :=
  (T.attempt p .recenter).map fun a => p.move a.2 a.1

end Task

end LogConvex.InteriorPoint
