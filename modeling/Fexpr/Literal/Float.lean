import Fexpr.Decimal.Read
import Fexpr.Literal.Error

/-!
# Float literals

A float literal is a decimal with underscores anywhere in it.
-/

namespace Fexpr.Literal

/-- Decodes a float literal. -/
def parseFloat (text : List Char) : Except Error Float :=
  match Decimal.read? (text.filter (· ≠ '_')) with
  | some x => .ok x
  | none => .error (.invalidFloat text)

end Fexpr.Literal
