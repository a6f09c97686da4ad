import Fexpr.Text.Span

/-!
# Cutting a text at byte offsets

Texts are taken apart as lists of characters, while offsets count bytes. `slice?` cuts the piece
between two offsets and answers `none` when one of them is past the end or falls inside a
character, so that "the span is a range of whole characters" is just `(slice? cs s).isSome`.
-/

namespace Fexpr.Text

/-- The number of bytes of the UTF-8 encoding of `cs`. -/
def byteSize : List Char → Nat
  | [] => 0
  | c :: cs => c.utf8Size + byteSize cs

/-- The characters of `cs` after its first `n` bytes. -/
def dropBytes? : Nat → List Char → Option (List Char)
  | 0, cs => some cs
  | _ + 1, [] => none
  | n + 1, c :: cs => if c.utf8Size ≤ n + 1 then dropBytes? (n + 1 - c.utf8Size) cs else none

/-- The characters that make up the first `n` bytes of `cs`. -/
def takeBytes? : Nat → List Char → Option (List Char)
  | 0, _ => some []
  | _ + 1, [] => none
  | n + 1, c :: cs =>
    if c.utf8Size ≤ n + 1 then (takeBytes? (n + 1 - c.utf8Size) cs).map (c :: ·) else none

/-- The characters of `cs` that the span covers. -/
def slice? (cs : List Char) (s : Span) : Option (List Char) :=
  if s.start ≤ s.stop then (dropBytes? s.start cs).bind (takeBytes? s.size) else none

/-- The text under a span; empty if the span is not a range of whole characters. -/
def slice (cs : List Char) (s : Span) : List Char := (slice? cs s).getD []

@[simp] theorem byteSize_nil : byteSize [] = 0 := rfl

@[simp] theorem byteSize_cons (c : Char) (cs : List Char) :
    byteSize (c :: cs) = c.utf8Size + byteSize cs := rfl

@[simp] theorem byteSize_append (as bs : List Char) :
    byteSize (as ++ bs) = byteSize as + byteSize bs := by
  induction as with
  | nil => simp
  | cons c cs ih => simp [ih, Nat.add_assoc]

end Fexpr.Text
