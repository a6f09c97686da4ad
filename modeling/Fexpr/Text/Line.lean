/-!
# Lines of a text
-/

namespace Fexpr.Text

/-- The first line of a text. It ends at a line feed, and a carriage return right before the feed
belongs to the end of the line. -/
def firstLine (cs : List Char) : List Char :=
  let line := cs.takeWhile (· ≠ '\n')
  if line.length < cs.length ∧ line.getLast? = some '\r' then line.dropLast else line

end Fexpr.Text
