import Fexpr.Text.Span

/-!
# Forms

A form is what the evaluator works on: the meaning-bearing parts of a script's tree, each with the
span it came from. An atom is evaluated without calling anything. A call has an operator and items,
which are operands, kept as forms, and options, whose values are atoms.
-/

namespace Fexpr

open Text (Span)

namespace Form

/-- A name as it stands in a script. -/
structure Name where
  /-- The characters of the name. -/
  text : String
  /-- Where it stands. -/
  span : Span

/-- The kinds of literals. -/
inductive LiteralKind where
  | nil
  | bool
  | integer
  | float
  | string
  | longString
deriving DecidableEq

/-- A literal as it stands in a script. -/
structure Literal where
  /-- What it denotes is read by this kind's rules. -/
  kind : LiteralKind
  /-- The characters of the literal. -/
  text : List Char
  /-- Where it stands. -/
  span : Span

/-- A step of a path: the key, and where the dot and the key stand. -/
structure Attribute where
  /-- The key to select. -/
  key : String
  /-- Where the dot and the key stand. -/
  span : Span

/-- A form that is evaluated without a call. -/
inductive Atom where
  /-- A literal. -/
  | literal (l : Literal)
  /-- A name. -/
  | name (n : Name)
  /-- A path of keys from the value of a name. -/
  | path (base : Name) (attributes : List Attribute) (span : Span)

/-- Where an atom stands. -/
def Atom.span : Atom → Span
  | literal l => l.span
  | name n => n.span
  | path _ _ span => span

/-- The three shapes of forms that a procedure can tell apart. -/
inductive Shape where
  | literal
  | identifier
  | expression
deriving DecidableEq

/-- The name of a shape. -/
def Shape.name : Shape → String
  | literal => "Literal"
  | identifier => "Identifier"
  | expression => "Expression"

end Form

mutual

/-- A form. -/
inductive Form where
  /-- A form that is evaluated without a call. -/
  | atom (a : Form.Atom)
  /-- A call: its operator, and its operands and options in source order. -/
  | call (operator : Form.Name) (items : List Form.Item) (span : Span)

/-- An item of a call. -/
inductive Form.Item where
  /-- An operand. -/
  | operand (f : Form)
  /-- An option. -/
  | option (key : Form.Name) (value : Form.Atom)

end

namespace Form

/-- Where a form stands. -/
def span : Form → Span
  | atom a => a.span
  | call _ _ span => span

/-- The shape of a form. -/
def shape : Form → Shape
  | atom (.literal _) => .literal
  | atom (.name _) => .identifier
  | atom (.path _ _ _) => .identifier
  | call _ _ _ => .expression

end Form

end Fexpr
