import Fexpr.Text.Printable

/-!
# Quoted texts

Messages and tree listings show a piece of text between double quotes. The quote and the backslash
are escaped by a backslash, the common controls by a letter, and every other character that is not
printable by its code point in hexadecimal.
-/

namespace Fexpr.Text

/-- The digits of `n` in hexadecimal, lower case. -/
def hexDigits (n : Nat) : List Char := Nat.toDigits 16 n

/-- A character as it stands inside a quoted text. -/
def escapeChar (c : Char) : List Char :=
  if c = '"' then ['\\', '"']
  else if c = '\\' then ['\\', '\\']
  else if c = '\t' then ['\\', 't']
  else if c = '\r' then ['\\', 'r']
  else if c = '\n' then ['\\', 'n']
  else if c.toNat = 0 then ['\\', '0']
  else if isPrintable c then [c]
  else ['\\', 'u', '\x7b'] ++ hexDigits c.toNat ++ ['\x7d']

/-- The text `cs` between double quotes. -/
def quote (cs : List Char) : String := String.ofList ('"' :: cs.flatMap escapeChar ++ ['"'])

end Fexpr.Text
