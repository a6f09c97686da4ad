import Fexpr.Literal.Integer
import Fexpr.Text.Blank

/-!
# Arities

An arity says how many operands a procedure takes. It is written as a pattern: a number, `+` for
one or more, `?` for one or none, `*` or nothing for any number.
-/

namespace Fexpr

/-- How many operands are allowed. -/
inductive Arity where
  /-- Exactly this many. -/
  | exactly (n : Nat)
  /-- At least one. -/
  | oneOrMore
  /-- At most one. -/
  | zeroOrOne
  /-- Any number. -/
  | any
deriving DecidableEq

namespace Arity

/-- Reads a pattern, which may have blanks around it. A number is below `2 ^ 64`. -/
def ofPattern? (pattern : String) : Option Arity :=
  match Text.trim pattern.toList with
  | [] => some any
  | ['*'] => some any
  | ['+'] => some oneOrMore
  | ['?'] => some zeroOrOne
  | cs => (Literal.word? 10 cs).map exactly

/-- The pattern of an arity. -/
def pattern : Arity → String
  | exactly n => String.ofList (Nat.toDigits 10 n)
  | oneOrMore => "+"
  | zeroOrOne => "?"
  | any => "*"

/-- Whether `n` operands are allowed. -/
def allows : Arity → Nat → Bool
  | exactly m, n => n == m
  | oneOrMore, n => 1 ≤ n
  | zeroOrOne, n => n ≤ 1
  | any, _ => true

/-- A number of operands that an arity does not allow. -/
structure Mismatch where
  /-- What was allowed. -/
  expected : Arity
  /-- What was given. -/
  actual : Nat
deriving DecidableEq

/-- The mismatch in words. -/
def Mismatch.message (m : Mismatch) : String :=
  match m.expected with
  | exactly n => s!"expecting {n} argument(s), but got {m.actual}"
  | oneOrMore => s!"expecting one or more argument, but got {m.actual}"
  | zeroOrOne => s!"expecting one or no argument, but got {m.actual}"
  | any => s!"expecting any argument, but got {m.actual}"

/-- The mismatch of `n` operands, if they are not allowed. -/
def check (a : Arity) (n : Nat) : Option Mismatch := if a.allows n then none else some ⟨a, n⟩

end Arity

end Fexpr
