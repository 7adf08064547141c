/- What a double stands for: a sign and a whole number times a power of two, an
   infinity, or no number at all. Decimal text is computed from this, in natural
   numbers, so that no digit depends on the rounding of floating point
   arithmetic. -/
namespace LogConvex.Decimal

/-- The meaning of the bits of a double. -/
inductive Binary where
  | undefined
  | infinite (negative : Bool)
  /-- The number `significand * 2 ^ scale`, with its sign. The number is at an edge
  when the doubles below it are twice as dense as those above it. -/
  | finite (negative : Bool) (significand : Nat) (scale : Int) (edge : Bool)
  deriving DecidableEq, Repr

namespace Binary

/-- Reads the sign bit, the eleven bits of the exponent and the 52 bits of the
fraction. The bit in front of the fraction is hidden. -/
def ofBits (bits : UInt64) : Binary :=
  let n := bits.toNat
  let hidden := Nat.pow 2 52
  let negative := decide (Nat.pow 2 63 ≤ n)
  let exponent : Nat := n / hidden % 2048
  let fraction : Nat := n % hidden
  if exponent = 2047 then
    if fraction = 0 then infinite negative else undefined
  else if exponent = 0 then finite negative fraction (-1074) false
  else finite negative (hidden + fraction) (exponent - 1075) (decide (fraction = 0 ∧ 1 < exponent))

def ofFloat (x : Float) : Binary := ofBits x.toBits

end Binary

/-- Two natural numbers whose quotient is a power. -/
def powerRatio (base : Nat) (k : Int) : Nat × Nat :=
  (Nat.pow base k.toNat, Nat.pow base (-k).toNat)

end LogConvex.Decimal
