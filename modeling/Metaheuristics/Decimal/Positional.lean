import Metaheuristics.Decimal.Shortest

/-!
# Doubles as text

A finite double is written with its shortest digits in positional notation, however large or small
it is: without an exponent, without trailing zeros after the point, and without a point if nothing
follows it. Zero keeps its sign.
-/

namespace Metaheuristics.Decimal

/-- The digits of a decimal number in positional notation. -/
def Scientific.positional (d : Scientific) : String :=
  let digits := Nat.toDigits 10 d.digits
  let shift := (-d.exponent).toNat
  if shift = 0 then
    String.ofList (digits ++ List.replicate d.exponent.toNat '0')
  else if shift < digits.length then
    let point := digits.length - shift
    String.ofList (digits.take point ++ '.' :: digits.drop point)
  else
    String.ofList ('0' :: '.' :: (List.replicate (shift - digits.length) '0' ++ digits))

/-- The text of a double. -/
def text (x : Float) : String :=
  if x.isNaN then
    "NaN"
  else
    let sign := if x.toBits >>> 63 = 1 then "-" else ""
    let magnitude :=
      if x.isInf then "inf"
      else if x == 0.0 then "0"
      else (Rounding.ofBits x.toBits).shortest.positional
    sign ++ magnitude

end Metaheuristics.Decimal
