import Fexpr.Grammar.Peg

/-!
# The grammar of scripts

A script is one value form: a call in parentheses, a literal, a name, or a path of names joined by
dots. Blanks and comments may stand between the parts. A call holds an operator and then operands
and options in any order.

Calls nest at most `maxNesting` deep, which makes the grammar a finite parsing expression:
`value n` is the grammar of values with up to `n` calls inside each other.
-/

namespace Fexpr.Grammar

open Peg

/-- How many calls may be open at once. -/
def maxNesting : Nat := 1024

/-! ## Classes of characters -/

/-- The characters that a name can start with. -/
def isNameStart (c : Char) : Bool := c.isAlpha || c == '_' || c == '@' || c == '$'

/-- Letters, digits and the underscore. -/
def isWordChar (c : Char) : Bool := c.isAlphanum || c == '_'

/-- The digits of hexadecimal numerals, in both cases. -/
def isHexDigit (c : Char) : Bool :=
  c.isDigit || ('a' ≤ c && c ≤ 'f') || ('A' ≤ c && c ≤ 'F')

/-! ## Spacing -/

/-- One or more blanks. -/
def blanks : Peg := plus (oneOf [' ', '\t', '\r', '\n'])

/-- A comment, from a semicolon to the end of its line. -/
def comment : Peg :=
  one ';' ++ star (.not (oneOf ['\r', '\n']) ++ any) ++ (one '\r' <|> one '\n' <|> atEnd)

/-- Blanks and comments. -/
def spacing : Peg := .rule .spacing (star (blanks <|> comment))

/-! ## Names -/

/-- A name and the spacing after it. -/
def identifier : Peg :=
  .rule .identifier (char isNameStart ++ star (char isWordChar <|> one '-') ++ spacing)

/-- A dot and the name after it. -/
def attr : Peg := .rule .attr (one '.' ++ identifier)

/-- A name with one or more attributes. -/
def identifierAttr : Peg := .rule .identifierAttr (identifier ++ plus attr)

/-! ## Literals -/

/-- A plus or a minus. -/
def sign : Peg := oneOf ['+', '-']

/-- A digit, and further digits with underscores between them. -/
def digitsOf (first further : Char → Bool) : Peg :=
  char first ++ star (star (one '_') ++ char further)

/-- Decimal digits. -/
def digits : Peg := digitsOf Char.isDigit Char.isDigit

/-- The exponent of a float. -/
def exponent : Peg := .rule .exponent (oneOf ['e', 'E'] ++ opt sign ++ digits)

/-- A float: it has a point or an exponent. -/
def floatLiteral : Peg :=
  .rule .floatLiteral
    (opt sign ++
      (digits ++ one '.' ++ opt digits ++ opt exponent
        <|> digits ++ exponent
        <|> one '.' ++ digits ++ opt exponent))

/-- The digits of a hexadecimal integer. -/
def hexNumeral : Peg := .rule .hexNumeral (digitsOf isHexDigit isHexDigit <|> one '0')

/-- The digits of a decimal integer, which has no leading zero. -/
def decimalNumeral : Peg :=
  .rule .decimalNumeral (digitsOf (fun c => '1' ≤ c && c ≤ '9') Char.isDigit <|> one '0')

/-- An integer, with an optional suffix that makes it unsigned. -/
def integerLiteral : Peg :=
  .rule .integerLiteral
    (opt sign ++
      (one '0' ++ oneOf ['x', 'X'] ++ hexNumeral <|> decimalNumeral) ++
      opt (oneOf ['u', 'U']))

/-- A text between triple quotes, taken as it is. -/
def longStringLiteral : Peg :=
  .rule .longStringLiteral
    (exactly ['"', '"', '"'] ++ star (.not (one '"') ++ any) ++ exactly ['"', '"', '"'])

/-- A character given by its code point in hexadecimal. -/
def uChar : Peg :=
  .rule .uChar
    (one '\\' ++ one 'u' ++ times 4 (char isHexDigit)
      <|> one '\\' ++ one 'U' ++ times 8 (char isHexDigit))

/-- A byte given in hexadecimal. -/
def hexByte : Peg := .rule .hexByte (one '\\' ++ one 'x' ++ times 2 (char isHexDigit))

/-- A character escaped by a backslash. -/
def escape : Peg :=
  .rule .escape
    (one '\\' ++ oneOf ['\'', '"', '\\', 'v', 't', 'r', 'n', 'f', 'b', 'a'])

/-- A piece of a string. -/
def stringPiece : Peg :=
  uChar <|> escape <|> hexByte <|> .not (oneOf ['\\', '\n', '"']) ++ any

/-- A string between double quotes. -/
def stringLiteral : Peg := .rule .stringLiteral (one '"' ++ star stringPiece ++ one '"')

/-- A truth value. -/
def boolLiteral : Peg :=
  .rule .boolLiteral
    ((exactly ['#', 'f'] <|> exactly ['#', 't']) ++ .not (char isWordChar))

/-- The absent value. -/
def nilLiteral : Peg :=
  .rule .nilLiteral (exactly ['n', 'i', 'l'] ++ .not (char isWordChar <|> one '-'))

/-- A literal of any kind. -/
def literal : Peg :=
  .rule .literal
    (floatLiteral <|> longStringLiteral <|> boolLiteral <|> stringLiteral <|> nilLiteral
      <|> integerLiteral)

/-! ## Forms -/

/-- What is neither a call nor spaced: a literal, a path or a name. -/
def atom : Peg := literal <|> identifierAttr <|> identifier

/-- An option: a key and an atom. -/
def option : Peg := .rule .option (one '#' ++ one ':' ++ identifier ++ atom ++ spacing)

/-- Options in a row. -/
def optionList : Peg := .rule .optionList (plus option)

/-- The name that a call is made by. -/
def operator : Peg := .rule .operator identifier

/-- An opening parenthesis. -/
def lpar : Peg := .rule .lpar (spacing ++ one '(' ++ spacing)

/-- A closing parenthesis. -/
def rpar : Peg := .rule .rpar (spacing ++ one ')' ++ spacing)

/-- A call whose operands match `operand`. -/
def expression (operand : Peg) : Peg :=
  .rule .expression (lpar ++ operator ++ star (optionList <|> operand) ++ rpar)

/-- A value: `call`, or else an atom. -/
def valueOr (call : Peg) : Peg := .rule .value ((call <|> atom) ++ spacing)

/-- A value with at most `n` calls inside each other. -/
def value : Nat → Peg
  | 0 => valueOr .fail
  | n + 1 => valueOr (expression (value n))

/-- A script with at most `n` calls inside each other. -/
def scriptUpTo (n : Nat) : Peg := .rule .script (spacing ++ value n ++ .rule .eot atEnd)

/-- A script. -/
def script : Peg := scriptUpTo maxNesting

/-- Matches a whole text. Answers the log in the order in which the matches were completed; for a
rejected text, the furthest match, or the empty match of the script if there is none. -/
def matchScript (cs : List Char) : Except Token (List Token) :=
  match script.run (.start cs) with
  | .ok s => .ok s.log.reverse
  | .error furthest => .error (furthest.getD ⟨.script, ⟨0, 0⟩⟩)

end Fexpr.Grammar
