import Fexpr.Decimal.Shortest

/-!
# Floats as texts

A float is written by the digits of its shortest decimal, in full: never with an exponent, and with
a point only if there are digits behind it.
-/

namespace Fexpr.Decimal

/-- `digits * 10 ^ k` in positional notation. -/
def positional (digits : Nat) (k : Int) : String :=
  let ds := Nat.toDigits 10 digits
  let text :=
    if 0 ≤ k then ds ++ List.replicate k.toNat '0'
    else
      let places := (-k).toNat
      let padded := List.replicate (places + 1 - ds.length) '0' ++ ds
      padded.take (padded.length - places) ++ '.' :: padded.drop (padded.length - places)
  String.ofList text

/-- How many exponents doubles have. The last one is for infinities and what is not a number. -/
def exponentCount : Nat := Nat.pow 2 11

/-- A float as a text. -/
def render (x : Float) : String :=
  let bits := x.toBits.toNat
  let fraction := bits % leastFullMantissa
  let exponent := bits / leastFullMantissa % exponentCount
  let sign := if bits / leastFullMantissa < exponentCount then "" else "-"
  if exponent = exponentCount - 1 then
    if fraction = 0 then sign ++ "inf" else "NaN"
  else if exponent = 0 ∧ fraction = 0 then sign ++ "0"
  else
    let (digits, k) :=
      if exponent = 0 then shortest fraction (-1074)
      else shortest (leastFullMantissa + fraction) ((exponent : Int) - 1075)
    sign ++ positional digits k

end Fexpr.Decimal
