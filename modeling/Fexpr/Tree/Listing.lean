import Fexpr.Text.Quoted
import Fexpr.Text.Sink
import Fexpr.Text.Slice
import Fexpr.Tree.Basic

/-!
# Tree listings

A listing shows one node a line: the rule, indented by the depth of the node, and the quoted text
under it. Listings are written plainly or in pieces with terminal colours; without colour the two
say the same.
-/

namespace Fexpr

open Text (Span Sink)
open Grammar (Rule)

namespace Listing

/-- A line of a listing. -/
structure Line where
  /-- The depth of the node. -/
  depth : Nat
  /-- The rule of the node. -/
  rule : Rule
  /-- The text under the node. -/
  text : List Char

namespace Line

/-- The blanks before the rule. -/
def indent (l : Line) : String := String.ofList (List.replicate l.depth ' ')

/-- The whole line. -/
def plain (l : Line) : String := l.indent ++ l.rule.name ++ " " ++ Text.quote l.text ++ "\n"

end Line

/-- How the pieces of a line are set off from each other. -/
structure Style where
  /-- Written before a rule. -/
  rule : String
  /-- Written before a text. -/
  text : String
  /-- Written before a result. -/
  result : String
  /-- Written after each of them. -/
  reset : String

namespace Style

/-- No colours. -/
def plain : Style := ⟨"", "", "", ""⟩

/-- Bold cyan rules, green texts, bold green results. -/
def colour : Style :=
  ⟨"\x1b[0m\x1b[1m\x1b[36m", "\x1b[0m\x1b[32m", "\x1b[0m\x1b[1m\x1b[32m", "\x1b[0m"⟩

end Style

/-- The pieces of a line, in the order in which they are written. -/
def Line.pieces (style : Style) (l : Line) : List String :=
  [l.indent, style.rule, l.rule.name, style.reset, style.text, " " ++ Text.quote l.text,
    style.reset, "\n"]

end Listing

namespace Tree

open Listing

/-- The lines of the listing of a tree over the text `cs`. -/
def lines (cs : List Char) (t : Tree) : List Line :=
  (t.preorder 0).map fun (depth, u) => ⟨depth, u.rule, Text.slice cs u.span⟩

/-- The listing as one text. -/
def listing (cs : List Char) (t : Tree) : String := String.join ((t.lines cs).map Line.plain)

/-- The listing in pieces of the given style, as one text. -/
def styledListing (style : Style) (cs : List Char) (t : Tree) : String :=
  String.join ((t.lines cs).flatMap (Line.pieces style))

/-- Writes the listing line by line. -/
def writeListing (cs : List Char) (t : Tree) (k : Sink) : Sink × Bool :=
  k.writeAll ((t.lines cs).map Line.plain)

/-- Writes the listing piece by piece. -/
def writeStyled (style : Style) (cs : List Char) (t : Tree) (k : Sink) : Sink × Bool :=
  k.writeAll ((t.lines cs).flatMap (Line.pieces style))

end Tree

end Fexpr
