import Fexpr.Text.Span

/-!
# Rules and tokens of the grammar

Every piece of a script that a rule of the grammar matches is logged as a token: the rule and the
span it covered.
-/

namespace Fexpr.Grammar

open Text (Span)

/-- The rules of the grammar. -/
inductive Rule where
  | script
  | expression
  | operator
  | value
  | optionList
  | option
  | spacing
  | identifier
  | identifierAttr
  | attr
  | literal
  | nilLiteral
  | boolLiteral
  | floatLiteral
  | exponent
  | integerLiteral
  | hexNumeral
  | decimalNumeral
  | longStringLiteral
  | stringLiteral
  | hexByte
  | uChar
  | escape
  | lpar
  | rpar
  | eot
deriving DecidableEq

namespace Rule

/-- All rules. -/
def all : List Rule :=
  [script, expression, operator, value, optionList, option, spacing, identifier, identifierAttr,
    attr, literal, nilLiteral, boolLiteral, floatLiteral, exponent, integerLiteral,
    hexNumeral, decimalNumeral, longStringLiteral, stringLiteral, hexByte, uChar, escape, lpar,
    rpar, eot]

/-- The name of a rule, as it is written in listings and messages. -/
def name : Rule → String
  | script => "Script"
  | expression => "Expression"
  | operator => "Operator"
  | value => "Value"
  | optionList => "OptionList"
  | option => "Option"
  | spacing => "Spacing"
  | identifier => "Identifier"
  | identifierAttr => "IdentifierAttr"
  | attr => "Attribute"
  | literal => "Literal"
  | nilLiteral => "NilLiteral"
  | boolLiteral => "BoolLiteral"
  | floatLiteral => "FloatLiteral"
  | exponent => "Exponent"
  | integerLiteral => "IntegerLiteral"
  | hexNumeral => "HexNumeral"
  | decimalNumeral => "DecimalNumeral"
  | longStringLiteral => "LongStringLiteral"
  | stringLiteral => "StringLiteral"
  | hexByte => "HexByte"
  | uChar => "UChar"
  | escape => "Escape"
  | lpar => "LPAR"
  | rpar => "RPAR"
  | eot => "EOT"

/-- The rule of a given name. -/
def ofName? (name : String) : Option Rule := all.find? (·.name == name)

end Rule

/-- A match of one rule. -/
structure Token where
  /-- The rule that matched. -/
  rule : Rule
  /-- What it covered. -/
  span : Span
deriving DecidableEq

end Fexpr.Grammar
