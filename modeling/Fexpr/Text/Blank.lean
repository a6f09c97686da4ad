import Fexpr.Text.Slice

/-!
# Blank characters and trimming

A character is blank if it has the Unicode property White_Space. Trimming removes blanks at both
ends of a text, or shrinks a span past the blanks at its ends.
-/

namespace Fexpr.Text

/-- Whether `c` has the property White_Space. -/
def isBlank (c : Char) : Bool :=
  let n := c.toNat
  (0x09 ≤ n && n ≤ 0x0D) || n == 0x20 || n == 0x85 || n == 0xA0 || n == 0x1680 ||
    (0x2000 ≤ n && n ≤ 0x200A) || n == 0x2028 || n == 0x2029 || n == 0x202F || n == 0x205F ||
    n == 0x3000

/-- `cs` without the blanks at its end. -/
def trimEnd (cs : List Char) : List Char := (cs.reverse.dropWhile isBlank).reverse

/-- `cs` without the blanks at both ends. -/
def trim (cs : List Char) : List Char := trimEnd (cs.dropWhile isBlank)

namespace Span

/-- The span without the blanks at both ends of the text under it. A span over blanks alone
shrinks to the empty span at its start. -/
def trimmed (s : Span) (cs : List Char) : Span :=
  let text := slice cs s
  let leading := byteSize (text.takeWhile isBlank)
  let trailing := byteSize (text.reverse.takeWhile isBlank)
  if byteSize text ≤ leading + trailing then ⟨s.start, s.start⟩
  else ⟨s.start + leading, s.stop - trailing⟩

end Span

end Fexpr.Text
