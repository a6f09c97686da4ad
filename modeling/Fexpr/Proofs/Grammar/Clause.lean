import Fexpr.Grammar.Script

/-!
# The grammar as a table of rules

A `Clause` is the right-hand side of a rule. Other than a `Peg`, which holds the whole grammar
below it, a clause refers to the rules in it by name, so `Clause.of` is the grammar as one
writes it down: one line for each rule, with rules that refer to each other.

`Clause.nullable` tells which clauses may match the empty text. Only spacing and the end of the
text do, so a repeated clause never does, and a repetition always comes to an end.
-/

namespace Fexpr.Grammar

/-- The right-hand side of a rule. -/
inductive Clause where
  | empty
  | char (accepts : Char → Bool)
  | seq (p q : Clause)
  | alt (p q : Clause)
  | star (p : Clause)
  | plus (p : Clause)
  | opt (p : Clause)
  /-- Matches the empty text where `p` fails. -/
  | not (p : Clause)
  /-- Matches what a rule matches. -/
  | rule (r : Rule)

namespace Clause

instance : Append Clause := ⟨seq⟩

instance : OrElse Clause := ⟨fun p q => alt p (q ())⟩

def any : Clause := char fun _ => true

def one (c : Char) : Clause := char (· == c)

/-- Matches one of the given characters. -/
def oneOf (cs : List Char) : Clause := char (cs.contains ·)

/-- Matches exactly the given characters. -/
def exactly : List Char → Clause
  | [] => empty
  | c :: cs => one c ++ exactly cs

/-- Matches `p` exactly `n` times. -/
def times : Nat → Clause → Clause
  | 0, _ => empty
  | n + 1, p => p ++ times n p

/-- Matches a digit, and further digits with underscores between them. -/
def digitsOf (first further : Char → Bool) : Clause :=
  char first ++ star (star (one '_') ++ char further)

def digits : Clause := digitsOf Char.isDigit Char.isDigit

def sign : Clause := oneOf ['+', '-']

/-- Whether a clause may match the empty text, given that of the rules only spacing and the end of
the text may. -/
def nullable : Clause → Bool
  | empty => true
  | char _ => false
  | seq p q => p.nullable && q.nullable
  | alt p q => p.nullable || q.nullable
  | star _ => true
  | plus p => p.nullable
  | opt _ => true
  | not _ => true
  | rule r => r == .spacing || r == .eot

/-- The grammar: what each rule stands for. -/
def of : Rule → Clause
  | .script => rule .spacing ++ rule .value ++ rule .eot
  | .value =>
    (rule .expression <|> rule .literal <|> rule .identifierAttr <|> rule .identifier) ++
      rule .spacing
  | .expression =>
    rule .lpar ++ rule .operator ++ star (rule .optionList <|> rule .value) ++ rule .rpar
  | .operator => rule .identifier
  | .optionList => plus (rule .option)
  | .option =>
    one '#' ++ one ':' ++ rule .identifier ++
      (rule .literal <|> rule .identifierAttr <|> rule .identifier) ++ rule .spacing
  | .identifierAttr => rule .identifier ++ plus (rule .attr)
  | .attr => one '.' ++ rule .identifier
  | .identifier =>
    char isNameStart ++ star (char isWordChar <|> one '-') ++ rule .spacing
  | .literal =>
    rule .floatLiteral <|> rule .longStringLiteral <|> rule .boolLiteral <|>
      rule .stringLiteral <|> rule .nilLiteral <|> rule .integerLiteral
  | .spacing =>
    star
      (plus (oneOf [' ', '\t', '\r', '\n']) <|>
        one ';' ++ star (.not (oneOf ['\r', '\n']) ++ any) ++
          (oneOf ['\r', '\n'] <|> .not any))
  | .lpar => rule .spacing ++ one '(' ++ rule .spacing
  | .rpar => rule .spacing ++ one ')' ++ rule .spacing
  | .eot => .not any
  | .nilLiteral => exactly ['n', 'i', 'l'] ++ .not (char isWordChar <|> one '-')
  | .boolLiteral => (exactly ['#', 'f'] <|> exactly ['#', 't']) ++ .not (char isWordChar)
  | .floatLiteral =>
    opt sign ++
      (digits ++ one '.' ++ opt digits ++ opt (rule .exponent)
        <|> digits ++ rule .exponent
        <|> one '.' ++ digits ++ opt (rule .exponent))
  | .exponent => oneOf ['e', 'E'] ++ opt sign ++ digits
  | .integerLiteral =>
    opt sign ++
      (one '0' ++ oneOf ['x', 'X'] ++ rule .hexNumeral <|> rule .decimalNumeral) ++
      opt (oneOf ['u', 'U'])
  | .hexNumeral => digitsOf isHexDigit isHexDigit <|> one '0'
  | .decimalNumeral => digitsOf (fun c => '1' ≤ c && c ≤ '9') Char.isDigit <|> one '0'
  | .longStringLiteral =>
    exactly ['"', '"', '"'] ++ star (.not (one '"') ++ any) ++ exactly ['"', '"', '"']
  | .stringLiteral =>
    one '"' ++
      star
        (rule .uChar <|> rule .escape <|> rule .hexByte <|>
          .not (oneOf ['\\', '\n', '"']) ++ any) ++
      one '"'
  | .hexByte => one '\\' ++ one 'x' ++ times 2 (char isHexDigit)
  | .uChar =>
    one '\\' ++ one 'u' ++ times 4 (char isHexDigit)
      <|> one '\\' ++ one 'U' ++ times 8 (char isHexDigit)
  | .escape => one '\\' ++ oneOf ['\'', '"', '\\', 'v', 't', 'r', 'n', 'f', 'b', 'a']

/-- Only spacing and the end of the text stand for clauses that may match the empty text. -/
theorem nullable_rule_of_nullable {r : Rule} (h : (of r).nullable = true) :
    (rule r).nullable = true := by
  revert h
  cases r <;> decide

end Clause

end Fexpr.Grammar
