/-!
# Pieces of a text

A text is cut at every occurrence of a character. There is always one piece more than there are
occurrences, so pieces can be empty.
-/

namespace Fexpr.Text

/-- Puts a character in front of the pieces of the text after it. -/
def prependTo (mark c : Char) : List (List Char) → List (List Char)
  | [] => [[c]]
  | piece :: pieces => if c = mark then [] :: piece :: pieces else (c :: piece) :: pieces

/-- The pieces of a text between the occurrences of `mark`. -/
def pieces (mark : Char) (cs : List Char) : List (List Char) := cs.foldr (prependTo mark) [[]]

end Fexpr.Text
