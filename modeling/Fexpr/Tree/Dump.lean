import Fexpr.Json
import Fexpr.Text.Slice
import Fexpr.Tree.Basic

/-!
# Tree dumps

A tree as data: for each node the rule, the text under it, its span, and its children if it has
any.
-/

namespace Fexpr.Tree

open Text (Span)
open Grammar (Rule)

/-- The dump of a node, given the dumps of its children. -/
def dumpNode (cs : List Char) (rule : Rule) (span : Span) (children : List Json) : Json :=
  let shown : List (String × Json) := if children.isEmpty then [] else [("children", .array children)]
  .object
    ([("rule", .string rule.name.toList), ("text", .string (Text.slice cs span)),
      ("span", .object [("start", .number span.start), ("end", .number span.stop)])] ++ shown)

mutual

/-- The dump of a tree over the text `cs`. -/
def dump (cs : List Char) : Tree → Json
  | node rule span children => dumpNode cs rule span (dumps cs children)

/-- The dumps of several trees. -/
def dumps (cs : List Char) : List Tree → List Json
  | [] => []
  | t :: ts => t.dump cs :: dumps cs ts

end

end Fexpr.Tree
