import Fexpr.Grammar.Rule

/-!
# Trees of matches

The log of a match lists the completed rules, children before their parents. `Forest.ofTokens`
reduces it to trees by containment of spans: a token takes as children the trees on top of the
stack that lie inside its span. The log of a whole script leaves a single tree.

`Tree.significantSpan` is what a node covers without the spacing that opens or closes it.
-/

namespace Fexpr

open Text (Span)
open Grammar (Rule Token)

/-- A node: a match of a rule, with the matches inside it in source order. -/
inductive Tree where
  | node (rule : Rule) (span : Span) (children : List Tree)

namespace Tree

/-- The rule of the root. -/
def rule : Tree → Rule
  | node r _ _ => r

/-- What the root covers. -/
def span : Tree → Span
  | node _ s _ => s

/-- The trees right below the root. -/
def children : Tree → List Tree
  | node _ _ cs => cs

/-- The first child that is not spacing. -/
def firstSignificant? (t : Tree) : Option Tree := t.children.find? (·.rule != .spacing)

mutual

/-- The number of nodes. -/
def size : Tree → Nat
  | node _ _ cs => 1 + sizes cs

/-- The number of nodes of several trees. -/
def sizes : List Tree → Nat
  | [] => 0
  | t :: ts => t.size + sizes ts

end

mutual

/-- The nodes with their depths, each before its children. -/
def preorder (depth : Nat) : Tree → List (Nat × Tree)
  | node r s cs => (depth, node r s cs) :: preorders (depth + 1) cs

/-- The nodes of several trees with their depths. -/
def preorders (depth : Nat) : List Tree → List (Nat × Tree)
  | [] => []
  | t :: ts => t.preorder depth ++ preorders depth ts

end

/-! ## Significant spans -/

/-- Where the significant text of a node that starts at `start` starts: the spacing that opens the
node, at any depth, is passed over. -/
def significantStart (start : Nat) : Tree → Nat
  | node _ _ [] => start
  | node _ _ (c :: _) =>
    if c.span.start ≠ start then start
    else if c.rule = .spacing then c.span.stop
    else significantStart start c

mutual

/-- Where the significant text of a node that stops at `stop` stops. -/
def significantStop (stop : Nat) : Tree → Nat
  | node _ _ cs => significantStopLast stop cs

/-- The same, given the children. -/
def significantStopLast (stop : Nat) : List Tree → Nat
  | [] => stop
  | [c] =>
    if c.span.stop ≠ stop then stop
    else if c.rule = .spacing then c.span.start
    else significantStop stop c
  | _ :: c :: cs => significantStopLast stop (c :: cs)

end

/-- What a node covers without the spacing that opens or closes it. -/
def significantSpan (t : Tree) : Span :=
  let start := t.significantStart t.span.start
  ⟨start, max (t.significantStop t.span.stop) start⟩

end Tree

/-- Trees in the order of a stack: the last one comes first. -/
abbrev Forest := List Tree

namespace Forest

/-- Puts a token on the stack; it takes the trees inside its span as children. Empty tokens are
dropped. -/
def push (stack : Forest) (t : Token) : Forest :=
  if t.span.isEmpty then stack
  else
    let inside := fun (u : Tree) => t.span.contains u.span
    .node t.rule t.span (stack.takeWhile inside).reverse :: stack.dropWhile inside

/-- Reduces a log to trees. -/
def ofTokens (tokens : List Token) : Forest := tokens.foldl push []

/-- The tree of the last token. -/
def root? (f : Forest) : Option Tree := f.head?

/-- The number of nodes. -/
def size (f : Forest) : Nat := Tree.sizes f

end Forest

end Fexpr
