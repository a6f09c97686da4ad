/-!
# Spans of a text

A span is a half-open range of byte offsets into the UTF-8 encoding of a text. All parts of the
engine speak of places in a script by spans: the matcher's tokens, the nodes of the tree, and the
labels of errors.
-/

namespace Fexpr.Text

/-- A half-open range `[start, stop)` of byte offsets. -/
structure Span where
  /-- The offset of the first byte. -/
  start : Nat
  /-- The offset just past the last byte. -/
  stop : Nat
deriving DecidableEq

namespace Span

/-- The number of bytes covered. -/
def size (s : Span) : Nat := s.stop - s.start

/-- Whether the span covers no byte at all. -/
def isEmpty (s : Span) : Bool := s.start == s.stop

/-- Whether `inner` lies inside `outer`; equal spans contain each other. -/
def contains (outer inner : Span) : Bool :=
  decide (outer.start ≤ inner.start) && decide (inner.stop ≤ outer.stop)

@[simp] theorem isEmpty_iff (s : Span) : s.isEmpty = true ↔ s.start = s.stop := by
  simp [isEmpty]

@[simp] theorem contains_iff (outer inner : Span) :
    outer.contains inner = true ↔ outer.start ≤ inner.start ∧ inner.stop ≤ outer.stop := by
  simp [contains]

end Span

end Fexpr.Text
