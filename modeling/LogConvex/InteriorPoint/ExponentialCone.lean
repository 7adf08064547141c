import LogConvex.Scalar

/- The exponential cone and its dual, for interior points. The dual cone consists of
   the triples `(u, v, w)` with `u < 0` and `-u * exp (v / u) ≤ e * w`. Its logarithmic
   barrier is `-log (v - u - u * log (-w / u)) - log (-u) - log w`; the barrier of the
   cone itself is the conjugate. Each point of either cone has a shadow in the other,
   the negative gradient of its barrier, and the central path consists of the pairs in
   which each is the shadow of the other up to a factor. -/
namespace LogConvex

/-- Three numbers, or three rows of three numbers. -/
structure Triple (α : Type) where
  x : α
  y : α
  z : α

namespace Triple

variable {α β γ R : Type}

def map (f : α → β) (a : Triple α) : Triple β := ⟨f a.x, f a.y, f a.z⟩

def zipWith (f : α → β → γ) (a : Triple α) (b : Triple β) : Triple γ :=
  ⟨f a.x b.x, f a.y b.y, f a.z b.z⟩

def toList (a : Triple α) : List α := [a.x, a.y, a.z]

variable [Scalar R]

def zero : Triple R := ⟨0, 0, 0⟩

def dot (a b : Triple R) : R := a.x * b.x + a.y * b.y + a.z * b.z

def scale (t : R) (a : Triple R) : Triple R := a.map (t * ·)

def add (a b : Triple R) : Triple R := a.zipWith (· + ·) b

def sub (a b : Triple R) : Triple R := a.zipWith (· - ·) b

def cross (a b : Triple R) : Triple R :=
  ⟨a.y * b.z - a.z * b.y, a.z * b.x - a.x * b.z, a.x * b.y - a.y * b.x⟩

/-- The matrix `t * a * bᵀ`. -/
def outer (t : R) (a b : Triple R) : Triple (Triple R) := a.map fun p => scale (t * p) b

/-- The sum of two matrices. -/
def addRows (m n : Triple (Triple R)) : Triple (Triple R) := m.zipWith add n

def apply (m : Triple (Triple R)) (a : Triple R) : Triple R := m.map fun r => dot r a

/-- Solves a system of three equations by cross products. -/
def solve (m : Triple (Triple R)) (b : Triple R) : Triple R :=
  let yz := cross m.y m.z
  let sum := (scale b.x yz).add ((scale b.y (cross m.z m.x)).add (scale b.z (cross m.x m.y)))
  scale (1 / dot m.x yz) sum

end Triple

namespace ExponentialCone

variable {R : Type} [Scalar R]

/-- A point of the cone that is its own shadow. -/
def center : Triple R := ⟨-1.051383945322714, 0.556409619469370, 1.258967884768947⟩

/-- Strictly inside the cone. -/
def inside (s : Triple R) : Bool :=
  decide (0 < s.y) && decide (0 < s.z) && decide (0 < s.y * Scalar.log (s.z / s.y) - s.x)

/-! ## The dual cone -/

/-- The factor of the barrier that couples the three numbers. -/
def margin (t : Triple R) : R := t.y - t.x - t.x * Scalar.log (-t.z / t.x)

/-- Strictly inside the dual cone. -/
def insideDual (t : Triple R) : Bool :=
  decide (t.x < 0) && decide (0 < t.z) && decide (0 < margin t)

def marginGradient (t : Triple R) : Triple R := ⟨-Scalar.log (-t.z / t.x), 1, -t.x / t.z⟩

def dualBarrier (t : Triple R) : R :=
  -Scalar.log (margin t) - Scalar.log (-t.x) - Scalar.log t.z

def dualGradient (t : Triple R) : Triple R :=
  let r := margin t
  ⟨Scalar.log (-t.z / t.x) / r - 1 / t.x, -1 / r, t.x / t.z / r - 1 / t.z⟩

def dualHessian (t : Triple R) : Triple (Triple R) :=
  let r := margin t
  let g := marginGradient t
  let curvature : Triple (Triple R) :=
    ⟨⟨1 / (t.x * t.x) - 1 / t.x / r, 0, 1 / t.z / r⟩,
     ⟨0, 0, 0⟩,
     ⟨1 / t.z / r, 0, 1 / (t.z * t.z) - t.x / (t.z * t.z) / r⟩⟩
  (Triple.outer (1 / (r * r)) g g).addRows curvature

/-- Half the third derivative of the dual barrier, applied to two directions. -/
def halfThird (t u v : Triple R) : Triple R :=
  let r := margin t
  let e := marginGradient t
  let eu := e.dot u
  let ev := e.dot v
  let zz := t.z * t.z
  let rr := r * r
  let pu := u.x / t.x - u.z / t.z
  let pv := v.x / t.x - v.z / t.z
  let quadratic := u.x * pv + u.z * (t.x * v.z / t.z - v.x) / t.z
  let common := (quadratic * r - (eu * ev + eu * ev)) / (rr * r)
  let alongX := (1 / r - 2.0 / t.x) * u.x * v.x / (t.x * t.x) - u.z * v.z / zz / r +
    eu / rr * pv + ev / rr * pu
  let alongZ := 2.0 * (t.x / r - 1) * u.z * v.z / (zz * t.z) - (u.z * v.x + u.x * v.z) / zz / r +
    eu / rr * (t.x * v.z / t.z - v.x) / t.z + ev / rr * (t.x * u.z / t.z - u.x) / t.z
  Triple.scale 0.5 ((e.scale common).add ⟨alongX, 0, alongZ⟩)

/-! ## Shadows -/

/-- Newton's method for `w + log w = a`, where `a` is at least one. -/
def omegaFrom (a : R) : Nat → R → R
  | 0, w => w
  | n + 1, w => omegaFrom a n (w - (w + Scalar.log w - a) / (1 + 1 / w))

/-- The solution of `w + log w = a`, where `a` is at least one. -/
def omega (a : R) : R :=
  omegaFrom a 12 (if a < 3.0 then 0.5 * (1 + a) else a - Scalar.log a)

/-- The point of the dual cone that belongs to a point of the cone. -/
def shadow (s : Triple R) : Triple R :=
  let w := omega (1 - s.x / s.y - Scalar.log (s.y / s.z))
  let u := 1 / ((1 - w) * s.y)
  ⟨u, u + u * Scalar.log (w * s.y / s.z) + 1 / s.y, w / ((w - 1) * s.z)⟩

/-- The point of the cone that belongs to a point of the dual cone. -/
def dualShadow (t : Triple R) : Triple R := (dualGradient t).scale (-1)

/-- The barrier of the cone. -/
def barrier (s : Triple R) : R := -dualBarrier (shadow s) - 3.0

/-! ## Scaling -/

/-- A symmetric matrix that maps a dual point to its partner and the shadow of the
partner to the shadow of the dual point, close to the Hessian of the dual barrier.
Where the pair is nearly central, and the first two conditions nearly coincide, the
Hessian itself is taken, multiplied by the mean product of all pairs. -/
def scaling (s t : Triple R) (mean : R) : Triple (Triple R) :=
  let hessian := dualHessian t
  let ss := dualShadow t
  let ts := shadow s
  let mu := s.dot t / 3.0
  let nu := ss.dot ts / 3.0
  let ds := s.sub (ss.scale mu)
  let dt := t.sub (ts.scale mu)
  let image := Triple.apply hessian ts
  let excess := ts.dot image - 3.0 * nu * nu
  let product := ds.dot dt
  if decide (1e-8 < Scalar.abs (mu * nu - 1)) && decide (1e-15 < Scalar.abs excess) &&
      decide (0 < s.dot t) && decide (0 < product) then
    let rest := image.sub (ss.scale nu)
    let reduced := (hessian.addRows (Triple.outer (-1 / 3.0) ss ss)).addRows
      (Triple.outer (-1 / excess) rest rest)
    let size := Scalar.norm (reduced.toList.flatMap Triple.toList)
    let axis := t.cross ts
    ((Triple.outer (1 / (3.0 * mu)) s s).addRows (Triple.outer (1 / product) ds ds)).addRows
      (Triple.outer (mu * size / axis.dot axis) axis axis)
  else hessian.map (Triple.scale mean)

end ExponentialCone

end LogConvex
