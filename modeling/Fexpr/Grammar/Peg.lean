import Fexpr.Grammar.Rule

/-!
# Parsing expressions

A grammar is given by parsing expressions: ordered choice, greedy repetition and negative
lookahead, over classes of characters. Running an expression on a text either fails or moves over
a first part of the text. A named rule that moves logs a token; the tokens of alternatives that
were given up are forgotten, because a failed run hands back nothing but the furthest match it saw.

The furthest match is the first completed token among those that reach furthest. It is kept also
through failures, since it is what a rejected text is reported by.
-/

namespace Fexpr.Grammar

open Text (Span)

/-- A parsing expression. -/
inductive Peg where
  /-- Matches the empty text. -/
  | empty
  /-- Matches nothing. -/
  | fail
  /-- Matches one character of a class. -/
  | char (accepts : Char → Bool)
  /-- Matches `p`, then `q`. -/
  | seq (p q : Peg)
  /-- Matches `p`, or else `q`. -/
  | alt (p q : Peg)
  /-- Matches `p` as often as it goes. -/
  | star (p : Peg)
  /-- Matches the empty text where `p` fails. -/
  | not (p : Peg)
  /-- Matches `p` and logs the match under the name of a rule. -/
  | rule (r : Rule) (p : Peg)

namespace Peg

instance : Append Peg := ⟨seq⟩

instance : OrElse Peg := ⟨fun p q => alt p (q ())⟩

/-- Matches any one character. -/
def any : Peg := char fun _ => true

/-- Matches the character `c`. -/
def one (c : Char) : Peg := char (· == c)

/-- Matches one of the given characters. -/
def oneOf (cs : List Char) : Peg := char (cs.contains ·)

/-- Matches exactly the given characters. -/
def exactly : List Char → Peg
  | [] => empty
  | c :: cs => one c ++ exactly cs

/-- Matches `p` exactly `n` times. -/
def times : Nat → Peg → Peg
  | 0, _ => empty
  | n + 1, p => p ++ times n p

/-- Matches `p` or the empty text. -/
def opt (p : Peg) : Peg := p <|> empty

/-- Matches `p` at least once, and as often as it goes. -/
def plus (p : Peg) : Peg := p ++ star p

/-- Matches the end of the text. -/
def atEnd : Peg := not any

/-- Where a run stands. -/
structure State where
  /-- The text still to be matched. -/
  rest : List Char
  /-- The offset of `rest` in the whole text. -/
  offset : Nat
  /-- The tokens logged so far, the latest first. -/
  log : List Token
  /-- The furthest match seen so far, in given-up alternatives too. -/
  furthest : Option Token

/-- The outcome of a run: the state after the match, or the furthest match seen. -/
abbrev Result := Except (Option Token) State

/-- The further of two matches, where `new` was completed later. -/
def further (old : Option Token) (new : Token) : Option Token :=
  match old with
  | none => some new
  | some t => if t.span.stop < new.span.stop then some new else some t

namespace State

/-- Moves over the next character if it is of the given class. -/
def next (accepts : Char → Bool) (s : State) : Result :=
  match s.rest with
  | [] => .error s.furthest
  | c :: cs =>
    if accepts c then .ok { s with rest := cs, offset := s.offset + c.utf8Size }
    else .error s.furthest

/-- Logs that the rule `r` matched from `start` up to here. An empty match leaves no trace. -/
def complete (r : Rule) (start : Nat) (s : State) : State :=
  if s.offset = start then s
  else
    let t : Token := ⟨r, ⟨start, s.offset⟩⟩
    { s with log := t :: s.log, furthest := further s.furthest t }

/-- Runs `f` again and again, as long as it matches and moves. Every round but the last takes at
least one character, so the text at hand bounds the number of rounds; it is given as `fuel`. -/
def again (f : State → Result) : (fuel : List Char) → State → State
  | [], s =>
    match f s with
    | .error g => { s with furthest := g }
    | .ok t => t
  | _ :: fuel, s =>
    match f s with
    | .error g => { s with furthest := g }
    | .ok t => if t.offset = s.offset then t else again f fuel t

end State

/-- Runs a parsing expression. -/
def run : Peg → State → Result
  | empty, s => .ok s
  | fail, s => .error s.furthest
  | char accepts, s => s.next accepts
  | seq p q, s =>
    match run p s with
    | .error g => .error g
    | .ok t => run q t
  | alt p q, s =>
    match run p s with
    | .error g => run q { s with furthest := g }
    | .ok t => .ok t
  | star p, s => .ok (State.again (run p) s.rest s)
  | not p, s =>
    match run p s with
    | .error g => .ok { s with furthest := g }
    | .ok t => .error t.furthest
  | rule r p, s =>
    match run p s with
    | .error g => .error g
    | .ok t => .ok (t.complete r s.offset)

theorem State.log_suffix_again {f : State → Result}
    (hf : ∀ s t, f s = .ok t → s.log <:+ t.log) (fuel : List Char) (s : State) :
    s.log <:+ (again f fuel s).log := by
  induction fuel generalizing s with
  | nil =>
    rw [again]
    cases h : f s with
    | error g => exact List.suffix_refl _
    | ok t => exact hf s t h
  | cons c fuel ih =>
    rw [again]
    cases h : f s with
    | error g => exact List.suffix_refl _
    | ok t =>
      dsimp only
      split
      · exact hf s t h
      · exact (hf s t h).trans (ih t)

theorem State.log_suffix_complete (r : Rule) (start : Nat) (s : State) :
    s.log <:+ (s.complete r start).log := by
  unfold complete
  split
  · exact List.suffix_refl _
  · exact List.suffix_cons _ _

/-- A match only adds to the log. -/
theorem log_suffix_run (p : Peg) {s t : State} (h : p.run s = .ok t) : s.log <:+ t.log := by
  induction p generalizing s t with
  | empty =>
    cases h
    exact List.suffix_refl _
  | fail => cases h
  | char accepts =>
    rw [run, State.next] at h
    split at h
    · cases h
    · split at h
      · cases h
        exact List.suffix_refl _
      · cases h
  | seq p q ihp ihq =>
    rw [run] at h
    split at h
    · cases h
    next u hu => exact (ihp hu).trans (ihq h)
  | alt p q ihp ihq =>
    rw [run] at h
    split at h
    next g hg => exact ihq (s := { s with furthest := g }) h
    next u hu =>
      cases h
      exact ihp hu
  | star p ih =>
    cases h
    exact State.log_suffix_again (fun _ _ => ih) _ s
  | not p ih =>
    rw [run] at h
    split at h
    · cases h
      exact List.suffix_refl _
    · cases h
  | rule r p ih =>
    rw [run] at h
    split at h
    · cases h
    next u hu =>
      cases h
      exact (ih hu).trans (u.log_suffix_complete r s.offset)

/-- The state at the start of a text. -/
def State.start (cs : List Char) : State := ⟨cs, 0, [], none⟩

end Peg

end Fexpr.Grammar
