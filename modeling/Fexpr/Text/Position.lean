import Fexpr.Text.Span

/-!
# Lines and columns

Offsets are shown to people as lines and columns, both counted from one. Columns count characters,
and only a line feed ends a line. An offset inside a character stands for that character, and an
offset past the end for the place after the last character.

`positions` answers many offsets in one sweep over the text.
-/

namespace Fexpr.Text

/-- A line and a column, both counted from one. -/
structure Position where
  /-- The line. -/
  line : Nat
  /-- The column, in characters. -/
  column : Nat
deriving DecidableEq

namespace Position

/-- The place of the first character. -/
def first : Position := ⟨1, 1⟩

/-- The place after the character `c` that stands at `p`. -/
def after (p : Position) (c : Char) : Position :=
  if c = '\n' then ⟨p.line + 1, 1⟩ else ⟨p.line, p.column + 1⟩

/-- Places the ascending offsets `pending` in the text `cs`, which starts at `offset` and `p`. -/
def sweep : Nat → Position → List Char → List Nat → List (Nat × Position)
  | _, p, [], pending => pending.map (·, p)
  | offset, p, c :: cs, pending =>
    let next := offset + c.utf8Size
    match pending with
    | [] => []
    | o :: os =>
      if o < next then
        ((o :: os).takeWhile (· < next)).map (·, p) ++
          sweep next (p.after c) cs ((o :: os).dropWhile (· < next))
      else
        sweep next (p.after c) cs (o :: os)

end Position

/-- The position of each of the offsets, in ascending order and without repetitions. -/
def positions (cs : List Char) (offsets : List Nat) : List (Nat × Position) :=
  Position.sweep 0 .first cs (offsets.mergeSort (fun a b => decide (a ≤ b))).eraseDups

/-- The positions of the two ends of a span. -/
structure Location where
  /-- Where the span starts. -/
  start : Position
  /-- Where the span stops. -/
  stop : Position
deriving DecidableEq

namespace Location

/-- The location of the span `s` of the text `cs`. -/
def of (cs : List Char) (s : Span) : Location :=
  let places := positions cs [s.start, s.stop]
  let place (offset : Nat) : Position := (places.lookup offset).getD .first
  ⟨place s.start, place s.stop⟩

/-- The location as it is written in messages. -/
def render (l : Location) : String :=
  s!"line {l.start.line} symbol {l.start.column} - line {l.stop.line} symbol {l.stop.column}"

end Location

end Fexpr.Text
