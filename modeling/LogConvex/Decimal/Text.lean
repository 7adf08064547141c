import LogConvex.Decimal.Digits

/- Number text. A double is written with the fewest digits that read back to it,
   either by place value or in powers of ten, or rounded to a count of digits. The
   sign of a zero shows; an undefined number has none. -/
namespace LogConvex.Decimal

/-- Writes the sign and the names of what is not a number; `f` writes the rest. -/
def text (x : Float) (f : Nat → Int → Bool → String) : String :=
  let signed (negative : Bool) (s : String) := if negative then "-" ++ s else s
  match Binary.ofFloat x with
  | .undefined => "NaN"
  | .infinite negative => signed negative "inf"
  | .finite negative m q edge => signed negative (f m q edge)

/-- Digits with a point after the first one, and the power of ten. -/
def powerText (d : Digits) : String :=
  let mantissa := match d.digits with
    | c :: rest@(_ :: _) => String.ofList (c :: '.' :: rest)
    | ds => String.ofList ds
  mantissa ++ "e" ++ toString d.exponent

/-- Digits by place value, without a power of ten. -/
def placeText (d : Digits) : String :=
  if d.exponent < 0 then
    "0." ++ String.ofList (List.replicate (-d.exponent - 1).toNat '0' ++ d.digits)
  else
    let whole := (d.exponent + 1).toNat
    let integer := d.digits.take whole
    let padded := integer ++ List.replicate (whole - integer.length) '0'
    match d.digits.drop whole with
    | [] => String.ofList padded
    | rest => String.ofList (padded ++ '.' :: rest)

/-- A count of units of the last of `places` places. -/
def fixedText (places n : Nat) : String :=
  let ds := Nat.toDigits 10 n
  let padded := List.replicate (places + 1 - ds.length) '0' ++ ds
  let whole := padded.length - places
  String.ofList (padded.take whole ++ '.' :: padded.drop whole)

/-- The shortest text by place value: `0.5`, `-0`, `1000000`. -/
def plain (x : Float) : String :=
  text x fun m q edge => placeText (Digits.shortest m q edge)

/-- The shortest text in powers of ten: `5e-1`, `-0e0`, `1e6`. -/
def scientific (x : Float) : String :=
  text x fun m q edge => powerText (Digits.shortest m q edge)

/-- The text in powers of ten, rounded to a count of digits. -/
def rounded (count : Nat) (x : Float) : String :=
  text x fun m q _ => powerText (Digits.significant count m q)

/-- The text rounded to a number of places after the point. -/
def fixed (places : Nat) (x : Float) : String :=
  text x fun m q _ => fixedText places (Digits.fixed places m q)

end LogConvex.Decimal
