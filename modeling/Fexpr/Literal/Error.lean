/-!
# Failures of literals

A literal has the right shape when the grammar accepts it, and can still denote nothing: an integer
may be too large, an escape may name no character, and escaped bytes may be no text.
-/

namespace Fexpr.Literal

/-- Why a literal denotes nothing. -/
inductive Error where
  /-- The number does not fit. -/
  | integerOutOfRange (text : List Char)
  /-- An unsigned number has a minus. -/
  | negativeUnsigned (text : List Char)
  /-- The text is no float. -/
  | invalidFloat (text : List Char)
  /-- The code is not the code point of a character. -/
  | invalidCodePoint (code : Nat)
  /-- There is no such escape. -/
  | invalidEscape (c : Char)
  /-- The bytes are not the encoding of a text. -/
  | invalidUtf8
deriving DecidableEq

/-- The failure in words. -/
def Error.message : Error → String
  | integerOutOfRange text => s!"integer {String.ofList text} out of range"
  | negativeUnsigned text => s!"unsigned integer {String.ofList text} cannot be negative"
  | invalidFloat text => s!"invalid float {String.ofList text}"
  | invalidCodePoint code => s!"invalid unicode code point 0x{String.ofList (Nat.toDigits 16 code)}"
  | invalidEscape c => "invalid escape sequence \\" ++ c.toString
  | invalidUtf8 => "string is not valid utf-8"

end Fexpr.Literal
