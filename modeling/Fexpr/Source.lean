import Fexpr.Text.Blank
import Fexpr.Text.Position
import Fexpr.Text.Slice

/-!
# Sources

A source is the text of a script and the name it goes by in reports.
-/

namespace Fexpr

open Text (Span Location)

/-- A named text. -/
structure Source where
  /-- The name in reports. -/
  name : String
  /-- The text. -/
  text : String

namespace Source

/-- The characters of the text. -/
def chars (s : Source) : List Char := s.text.toList

/-- The text under a span. -/
def slice (s : Source) (span : Span) : String := String.ofList (Text.slice s.chars span)

/-- The location of a span. -/
def locate (s : Source) (span : Span) : Location := .of s.chars span

end Source

end Fexpr
