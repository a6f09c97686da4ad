import Fexpr.Literal.Error

/-!
# Integer literals

An integer has an optional sign, decimal or hexadecimal digits with underscores anywhere between
them, and an optional suffix that makes it unsigned. Signed integers have 64 bits in two's
complement, unsigned ones 64 bits. The magnitude itself must fit in 64 bits.
-/

namespace Fexpr.Literal

/-- A decoded integer. -/
inductive Integer where
  | signed (n : Int64)
  | unsigned (n : UInt64)
deriving DecidableEq

/-- The value of a digit in radix ten or sixteen. -/
def digit? (radix : Nat) (c : Char) : Option Nat :=
  let n := c.toNat
  let d :=
    if '0' ≤ c ∧ c ≤ '9' then some (n - 0x30)
    else if 'a' ≤ c ∧ c ≤ 'f' then some (n - 0x61 + 10)
    else if 'A' ≤ c ∧ c ≤ 'F' then some (n - 0x41 + 10)
    else none
  d.filter (· < radix)

/-- The number that digits denote, continuing the number `n`. -/
def digitsFrom? (radix n : Nat) : List Char → Option Nat
  | [] => some n
  | c :: cs => (digit? radix c).bind fun d => digitsFrom? radix (n * radix + d) cs

/-- The number below `2 ^ 64` that a text denotes: at least one digit, after an optional plus. -/
def word? (radix : Nat) (cs : List Char) : Option Nat :=
  let digits := if cs.head? = some '+' then cs.tail else cs
  if digits.isEmpty then none else (digitsFrom? radix 0 digits).filter (· < UInt64.size)

/-- The text without a sign in front, and whether the sign was a minus. -/
def splitSign : List Char → Bool × List Char
  | '-' :: cs => (true, cs)
  | '+' :: cs => (false, cs)
  | cs => (false, cs)

/-- The text without the unsigned suffix, and whether it had one. -/
def splitSuffix (cs : List Char) : Bool × List Char :=
  match cs.getLast? with
  | some 'u' => (true, cs.dropLast)
  | some 'U' => (true, cs.dropLast)
  | _ => (false, cs)

/-- The radix that a text is written in, and the text without the mark of the radix. -/
def splitRadix : List Char → Nat × List Char
  | '0' :: 'x' :: cs => (16, cs)
  | '0' :: 'X' :: cs => (16, cs)
  | cs => (10, cs)

/-- A number as a signed integer, if it fits. -/
def signed? (n : Int) : Option Int64 :=
  if Int64.minValue.toInt ≤ n ∧ n ≤ Int64.maxValue.toInt then some (Int64.ofInt n) else none

/-- Decodes an integer literal. -/
def parseInteger (text : List Char) : Except Error Integer :=
  let (negative, afterSign) := splitSign text
  let (unsigned, beforeSuffix) := splitSuffix afterSign
  let (radix, digits) := splitRadix beforeSuffix
  match word? radix (digits.filter (· ≠ '_')) with
  | none => .error (.integerOutOfRange text)
  | some n =>
    if unsigned then
      if negative then .error (.negativeUnsigned text) else .ok (.unsigned (UInt64.ofNat n))
    else
      match signed? (if negative then -(n : Int) else n) with
      | some m => .ok (.signed m)
      | none => .error (.integerOutOfRange text)

end Fexpr.Literal
