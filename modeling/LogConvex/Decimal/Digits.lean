import LogConvex.Decimal.Binary

/- Decimal digits of a number that is given exactly, as a quotient of natural
   numbers or by its significand and its binary scale. There are two ways to choose
   them: a given count of places, where the nearest decimal is taken and a half goes
   to the even neighbour; and the fewest digits that read back to the same double. -/
namespace LogConvex

/-- The number `d.ddd… * 10 ^ exponent`, with the given digits. -/
structure Digits where
  digits : List Char
  exponent : Int
  deriving DecidableEq, Repr

namespace Digits

open Decimal

/-- The number `n * 10 ^ k`. -/
def ofNat (n : Nat) (k : Int) : Digits :=
  let ds := Nat.toDigits 10 n
  ⟨ds, k + (ds.length - 1 : Nat)⟩

/-- Drops the zeros at the end; one digit always stays. -/
def trim (d : Digits) : Digits :=
  match (d.digits.reverse.dropWhile (· == '0')).reverse with
  | [] => ⟨['0'], 0⟩
  | ds => ⟨ds, d.exponent⟩

/-- The place of the first digit of a positive quotient: the `e` for which
`10 ^ e ≤ num / den < 10 ^ (e + 1)`. The lengths of the two numbers leave two
candidates. -/
def leadingPlace (num den : Nat) : Int :=
  let e : Int := (Nat.toDigits 10 num).length - (Nat.toDigits 10 den).length
  let (p, r) := powerRatio 10 e
  if p * den ≤ num * r then e else e - 1

/-- The natural number nearest to a quotient; a half goes to the even neighbour. -/
def roundDiv (num den : Nat) : Nat :=
  let t := num / den
  let rest := 2 * (num % den)
  if rest < den then t
  else if den < rest then t + 1
  else if t % 2 = 0 then t else t + 1

/-! ## A given number of digits -/

/-- Rounds `m * 2 ^ q` to a count of significant digits. When rounding carries into
a new place, the number is a power of ten and the digit past the count is a zero. -/
def significant (count m : Nat) (q : Int) : Digits :=
  if m = 0 then ⟨List.replicate count '0', 0⟩
  else
    let (two, half) := powerRatio 2 q
    let k := leadingPlace (m * two) half - (count - 1 : Nat)
    let (ten, tenth) := powerRatio 10 k
    let d := ofNat (roundDiv (m * two * tenth) (half * ten)) k
    { d with digits := d.digits.take count }

/-- Rounds `m * 2 ^ q` to a number of places after the point and counts units of the
last place. -/
def fixed (places m : Nat) (q : Int) : Nat :=
  let (two, half) := powerRatio 2 q
  roundDiv (m * two * Nat.pow 10 places) half

/-! ## The fewest digits -/

/-- A number and the two ends of the interval of numbers that are read as it, in
quarters of the unit in which its significand counts. The ends belong to it or not
together. -/
structure Span where
  low : Nat
  value : Nat
  high : Nat
  closed : Bool

/-- The interval of a double: half a unit up and down, but a quarter of a unit down
where the doubles below are twice as dense. A half goes to the even significand. -/
def Span.ofBinary (m : Nat) (edge : Bool) : Span :=
  ⟨4 * m - (if edge then 1 else 2), 4 * m, 4 * m + 2, m % 2 == 0⟩

/-- The multiple `c` of the grid `s` lies in the interval, measured in steps of
`r`. -/
def Span.covers (i : Span) (r s c : Nat) : Bool :=
  if i.closed then decide (i.low * r ≤ c * s) && decide (c * s ≤ i.high * r)
  else decide (i.low * r < c * s) && decide (c * s < i.high * r)

/-- The nearest multiple of `10 ^ k` in the interval, counted in that unit. If the
grid has a point in the interval, then one of the two neighbours of the number is
one. Of two equally near the larger is taken. -/
def Span.onGrid (i : Span) (q k : Int) : Option Digits :=
  let (two, half) := powerRatio 2 (q - 2)
  let (ten, tenth) := powerRatio 10 k
  let r := two * tenth
  let s := ten * half
  let t := i.value * r / s
  match i.covers r s t, i.covers r s (t + 1) with
  | true, true => some (ofNat (if s ≤ 2 * (i.value * r % s) then t + 1 else t) k)
  | true, false => some (ofNat t k)
  | false, true => some (ofNat (t + 1) k)
  | false, false => none

/-- The fewest digits that read back to `m * 2 ^ q`. Seventeen are always enough. -/
def shortest (m : Nat) (q : Int) (edge : Bool) : Digits :=
  if m = 0 then ⟨['0'], 0⟩
  else
    let i := Span.ofBinary m edge
    let (two, half) := powerRatio 2 q
    let e := leadingPlace (m * two) half
    match (List.range 17).findSome? fun n : Nat => i.onGrid q (e - n) with
    | some d => d.trim
    | none => significant 17 m q

end Digits

end LogConvex
