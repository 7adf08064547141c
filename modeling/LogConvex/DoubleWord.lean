import LogConvex.Scalar

/- Numbers of about twice the digits of a double. A number is the sum of two doubles
   that is not carried out: the second one is what rounding to the first one leaves
   over. What rounding takes away from a sum or a product of two doubles is a double
   again, and can be computed; the operations below carry it along.

   A first double that is infinite or undefined stands alone. -/
namespace LogConvex

/-- The sum of two doubles, of which the second is at most half a unit in the last
place of the first. -/
structure DoubleWord where
  high : Float
  low : Float

namespace DoubleWord

def ofFloat (x : Float) : DoubleWord := ⟨x, 0.0⟩

/-- The nearest double. -/
def toFloat (a : DoubleWord) : Float := a.high

/-- A sum of two doubles of which the second is small beside the first. -/
def ofParts (x rest : Float) : DoubleWord :=
  let sum := x + rest
  if sum.isFinite then ⟨sum, rest - (sum - x)⟩ else ⟨x, 0.0⟩

/-! ## Exact operations on doubles -/

/-- The sum of two doubles, and what rounding takes away from it. -/
def exactSum (x y : Float) : DoubleWord :=
  let sum := x + y
  let fromY := sum - x
  ⟨sum, (x - (sum - fromY)) + (y - fromY)⟩

/-- The leading half of the digits of a double. -/
def leading (x : Float) : Float :=
  let shifted := 134217729.0 * x
  shifted - (shifted - x)

/-- The product of two doubles, and what rounding takes away from it. -/
def exactProduct (x y : Float) : DoubleWord :=
  let product := x * y
  let x1 := leading x
  let y1 := leading y
  let x2 := x - x1
  let y2 := y - y1
  ⟨product, ((x1 * y1 - product) + x1 * y2 + x2 * y1) + x2 * y2⟩

/-! ## Arithmetic -/

def neg (a : DoubleWord) : DoubleWord := ⟨-a.high, -a.low⟩

def add (a b : DoubleWord) : DoubleWord :=
  let sum := exactSum a.high b.high
  ofParts sum.high (sum.low + (a.low + b.low))

def sub (a b : DoubleWord) : DoubleWord := a.add b.neg

def mul (a b : DoubleWord) : DoubleWord :=
  let product := exactProduct a.high b.high
  ofParts product.high (product.low + (a.high * b.low + a.low * b.high))

/-- The quotient of the first doubles, and what it leaves over divided once more. -/
def div (a b : DoubleWord) : DoubleWord :=
  let quotient := a.high / b.high
  ofParts quotient ((a.sub (b.mul (ofFloat quotient))).high / b.high)

/-- The root of the first double, improved by one step of Newton's method. -/
def sqrt (a : DoubleWord) : DoubleWord :=
  let root := a.high.sqrt
  ofParts root ((a.sub (exactProduct root root)).high / (2.0 * root))

def lt (a b : DoubleWord) : Bool :=
  decide (a.high < b.high) || (a.high == b.high && decide (a.low < b.low))

def le (a b : DoubleWord) : Bool :=
  decide (a.high < b.high) || (a.high == b.high && decide (a.low ≤ b.low))

/-! ## Exponential and logarithm -/

/-- The natural logarithm of two. -/
def logTwo : DoubleWord := ⟨0.6931471805599453, 2.3190468138462996e-17⟩

/-- The nested sum `1 + x / k * (1 + x / (k + 1) * (1 + …))` with `n` quotients. With
`k = 2` it is close to `(exp x - 1) / x` for small `x`. -/
def nestedSum (x : DoubleWord) : Nat → Float → DoubleWord
  | 0, _ => ofFloat 1.0
  | n + 1, k => (ofFloat 1.0).add ((x.mul (nestedSum x n (k + 1.0))).div (ofFloat k))

/-- Makes `exp (2 ^ n * x) - 1` out of `exp x - 1`. -/
def doubleArgument : Nat → DoubleWord → DoubleWord
  | 0, e => e
  | n + 1, e => doubleArgument n ((e.add e).add (e.mul e))

/-- The exponential. The argument is brought near zero by a multiple of the logarithm
of two and divided by 256 there, so that nine quotients of the series are enough. -/
def exp (a : DoubleWord) : DoubleWord :=
  let rough := a.high.exp
  if rough.isFinite && 0.0 < rough then
    let twos := (a.high / logTwo.high).round
    let x := (a.sub (logTwo.mul (ofFloat twos))).div (ofFloat 256.0)
    let excess := doubleArgument 8 (x.mul (nestedSum x 9 2.0))
    ((ofFloat 1.0).add excess).mul (ofFloat twos.exp2)
  else ofFloat rough

/-- The logarithm of the first double, improved by one step of Newton's method. -/
def log (a : DoubleWord) : DoubleWord :=
  let rough := a.high.log
  if rough.isFinite then
    (ofFloat rough).add ((a.mul (exp (ofFloat (-rough)))).sub (ofFloat 1.0))
  else ofFloat rough

/-- The real power; where the base is not positive, that of the first doubles. -/
def pow (a b : DoubleWord) : DoubleWord :=
  if 0.0 < a.high then exp (b.mul a.log) else ofFloat (a.high.pow b.high)

end DoubleWord

/-- Numbers of doubled precision. A literal is the nearest double. -/
instance : Scalar DoubleWord where
  zero := .ofFloat 0.0
  one := .ofFloat 1.0
  add := .add
  sub := .sub
  mul := .mul
  div := .div
  neg := .neg
  lt a b := a.lt b = true
  le a b := a.le b = true
  beq a b := a.high == b.high && a.low == b.low
  ofScientific m s e := .ofFloat (.ofScientific m s e)
  decLt _ _ := inferInstanceAs (Decidable (_ = true))
  decLe _ _ := inferInstanceAs (Decidable (_ = true))
  pow := .pow
  exp := .exp
  log := .log
  sqrt := .sqrt
  isFinite a := a.high.isFinite
  isWhole a := a.high - a.high.floor == 0.0 && a.low - a.low.floor == 0.0
  missing := .ofFloat (0.0 / 0.0)

end LogConvex
