import Fexpr.Form.Basic
import Fexpr.Text.Blank
import Fexpr.Tree.Basic

/-!
# Reading forms from trees

The tree of a script shows every rule that matched; `Form.ofTree` keeps what evaluation needs. A
tree that no script has can lack a part that a form needs. Such a defect is reported as a `Fault`,
not guessed at.

Texts and spans are taken without surrounding spacing: `Tree.trimmedSpan` is the significant span
of a node, without blanks at its ends.
-/

namespace Fexpr

open Text (Span)
open Grammar (Rule)

namespace Tree

/-- What a node covers without spacing and blanks at its ends. -/
def trimmedSpan (cs : List Char) (t : Tree) : Span := t.significantSpan.trimmed cs

end Tree

namespace Form

/-- What a tree lacks to be read as a form. -/
inductive Fault where
  /-- A node of this rule is no form. -/
  | notAForm (rule : Rule)
  /-- A node of this rule has nothing in it. -/
  | noContent (rule : Rule)
  /-- A call has no operator. -/
  | noOperator (span : Span)
  /-- An operator has no name. -/
  | noOperatorName (span : Span)
  /-- A node of this rule cannot stand in a call. -/
  | unexpected (rule : Rule) (span : Span)
  /-- An option lacks its key or its value. -/
  | malformedOption (span : Span)
  /-- A path has no base. -/
  | noBase (span : Span)
  /-- A step of a path has no key. -/
  | noKey (span : Span)
  /-- A span does not cover whole characters of the text. -/
  | brokenSpan (span : Span)
  /-- There is no tree at all. -/
  | noRoot

variable (cs : List Char)

/-- The text under a node, without spacing and blanks at its ends. -/
def trimmedText (t : Tree) : Except Fault (List Char) :=
  match Text.slice? cs (t.trimmedSpan cs) with
  | some text => .ok text
  | none => .error (.brokenSpan (t.trimmedSpan cs))

/-- The name that a node stands for. -/
def nameOf (t : Tree) : Except Fault Name :=
  (trimmedText cs t).map fun text => ⟨String.ofList text, t.trimmedSpan cs⟩

/-- The kind of the literals of a rule. -/
def literalKind? : Rule → Option LiteralKind
  | .nilLiteral => some .nil
  | .boolLiteral => some .bool
  | .integerLiteral => some .integer
  | .floatLiteral => some .float
  | .stringLiteral => some .string
  | .longStringLiteral => some .longString
  | _ => none

/-- The literal that a node stands for. A long string keeps every character it has. -/
def literalOf (t : Tree) : Except Fault Literal :=
  match literalKind? t.rule with
  | none => .error (.notAForm t.rule)
  | some .longString =>
    match Text.slice? cs t.span with
    | some text => .ok ⟨.longString, text, t.trimmedSpan cs⟩
    | none => .error (.brokenSpan t.span)
  | some kind => (trimmedText cs t).map fun text => ⟨kind, text, t.trimmedSpan cs⟩

/-- The step of a path that a node stands for. -/
def attributeOf (t : Tree) : Except Fault Attribute :=
  match t.children with
  | [] => .error (.noKey t.span)
  | key :: _ => (trimmedText cs key).map fun text => ⟨String.ofList text, t.trimmedSpan cs⟩

/-- The steps of a path. -/
def attributesOf : List Tree → Except Fault (List Attribute)
  | [] => .ok []
  | t :: ts =>
    match attributeOf cs t with
    | .error e => .error e
    | .ok a => (attributesOf ts).map (a :: ·)

/-- The atom that a node stands for. -/
def atomOf (t : Tree) : Except Fault Atom :=
  match t.rule, t.children with
  | .identifier, _ => (nameOf cs t).map .name
  | .identifierAttr, [] => .error (.noBase t.span)
  | .identifierAttr, base :: steps =>
    match nameOf cs base with
    | .error e => .error e
    | .ok name => (attributesOf cs steps).map fun as => .path name as (t.trimmedSpan cs)
  | .literal, [] => .error (.noContent .literal)
  | .literal, inner :: _ => (literalOf cs inner).map .literal
  | _, _ => (literalOf cs t).map .literal

/-- The option that a node stands for: its first two parts that are not spacing. -/
def optionOf (t : Tree) : Except Fault Item :=
  match t.children.filter (·.rule != .spacing) with
  | key :: value :: _ =>
    match nameOf cs key with
    | .error e => .error e
    | .ok name => (atomOf cs value).map (.option name)
  | _ => .error (.malformedOption t.span)

/-- The options that the nodes of a list of options stand for. -/
def optionsOf : List Tree → Except Fault (List Item)
  | [] => .ok []
  | t :: ts =>
    match optionOf cs t with
    | .error e => .error e
    | .ok item => (optionsOf ts).map (item :: ·)

/-- The operator that a node stands for. -/
def operatorOf (span : Span) (t : Tree) : Except Fault Name :=
  match t.children with
  | [] => .error (.noOperatorName span)
  | name :: _ => nameOf cs name

mutual

/-- The form that a tree stands for. -/
def ofTree : Tree → Except Fault Form
  | .node .script _ children => ofFirst .script children
  | .node .value _ children => ofFirst .value children
  | .node .expression span children =>
    callOf ((Tree.node .expression span children).trimmedSpan cs) children
  | t => (atomOf cs t).map .atom

/-- The form of the first node that is not spacing. -/
def ofFirst (rule : Rule) : List Tree → Except Fault Form
  | [] => .error (.noContent rule)
  | t :: ts => if t.rule = .spacing then ofFirst rule ts else ofTree t

/-- The call of the given span whose nodes are listed; it starts at the operator. -/
def callOf (span : Span) : List Tree → Except Fault Form
  | [] => .error (.noOperator span)
  | t :: ts =>
    if t.rule = .operator then
      match operatorOf cs span t with
      | .error e => .error e
      | .ok operator => (itemsOf span ts).map fun items => .call operator items span
    else callOf span ts

/-- The items of a call. -/
def itemsOf (span : Span) : List Tree → Except Fault (List Item)
  | [] => .ok []
  | .node .value _ children :: ts =>
    match ofFirst .value children with
    | .error e => .error e
    | .ok f => (itemsOf span ts).map (.operand f :: ·)
  | .node .optionList _ children :: ts =>
    match optionsOf cs children with
    | .error e => .error e
    | .ok options => (itemsOf span ts).map (options ++ ·)
  | .node .rpar _ _ :: ts => itemsOf span ts
  | .node .spacing _ _ :: ts => itemsOf span ts
  | .node rule _ _ :: _ => .error (.unexpected rule span)

end

end Form

end Fexpr
