import Fexpr.Proofs.Grammar.Derivation
import Mathlib.Logic.ExistsUnique

/-!
# Matching on one board

A run of a parsing expression hands its state on, and one that fails hands back none, so what an
alternative has read and logged is given up with it. One can also keep a single board for the whole
run, with the cursor, the log, the furthest match and the count of open calls, which every matcher
moves on in place. A matcher that fails half way then leaves the cursor where it got stuck, and its
tokens in the log, unless it puts them back: `attempt` and `notAhead` note where the cursor is and
how long the log is, and set the one back and cut the other off.

`Matcher.Follows` says that a matcher does what a parsing expression does, without a word on the
cursor after a failure. `Matcher.Restores` says that it also leaves the board as it was then, the
furthest match apart. The grammar is written with alternatives that restore the board each by
itself, so it needs to be restored nowhere else, and what is matched on one board is what the
grammar matches (`IsValue.answer_eq`).
-/

namespace Fexpr.Grammar

open Text (byteSize)

/-- What matchers share. -/
structure Board where
  cursor : Cursor
  /-- The log, in the order in which the matches were completed. -/
  tokens : Array Token
  furthest : Option Token
  /-- How many calls are open. -/
  nesting : Nat

namespace Board

/-- The state that the board shows. -/
def state (b : Board) : Peg.State :=
  ⟨b.cursor.rest, b.cursor.offset, b.tokens.toList.reverse, b.furthest⟩

/-- The board that shows the given state, with as many calls open. -/
def showing (b : Board) (s : Peg.State) : Board :=
  ⟨⟨s.rest, s.offset⟩, s.log.reverse.toArray, s.furthest, b.nesting⟩

/-- Sets the cursor back to where it was on a former board, and cuts the log off there. -/
def back (b former : Board) : Board :=
  { b with cursor := former.cursor, tokens := b.tokens.take former.tokens.size }

/-- Logs that the rule `r` matched from `start` up to the cursor. -/
def add (r : Rule) (start : Nat) (b : Board) : Board :=
  let t : Token := ⟨r, ⟨start, b.cursor.offset⟩⟩
  { b with tokens := b.tokens.push t, furthest := Peg.further b.furthest t }

def start (cs : List Char) : Board := ⟨⟨cs, 0⟩, #[], none, 0⟩

/-- The answer and the board after a run that fails without a trace. -/
def after (b : Board) : Peg.Result → Bool × Board
  | .ok s => (true, b.showing s)
  | .error g => (false, { b with furthest := g })

@[simp] theorem state_showing (b : Board) (s : Peg.State) : (b.showing s).state = s := by
  simp [state, showing]

@[simp] theorem showing_state (b : Board) : b.showing b.state = b := by
  simp [state, showing]

theorem showing_furthest (b : Board) (g : Option Token) :
    b.showing { b.state with furthest := g } = { b with furthest := g } := by
  simp [state, showing]

/-- A log that has only grown is cut off to what it was. -/
theorem back_eq {b b' : Board} {more : Array Token} (htokens : b'.tokens = b.tokens ++ more)
    (hnesting : b'.nesting = b.nesting) : b'.back b = { b with furthest := b'.furthest } := by
  simp [back, htokens, hnesting]

theorem exists_tokens_showing {b : Board} {s : Peg.State} (h : b.state.log <:+ s.log) :
    ∃ more, (b.showing s).tokens = b.tokens ++ more := by
  obtain ⟨new, hnew⟩ := h
  refine ⟨new.reverse.toArray, ?_⟩
  simp [showing, ← hnew, state]

end Board

/-- The given characters are matched where the text starts with them. -/
theorem Peg.run_exactly (cs : List Char) (s : State) :
    (exactly cs).run s =
      if cs.isPrefixOf s.rest then
        .ok { s with rest := s.rest.drop cs.length, offset := s.offset + byteSize cs }
      else .error s.furthest := by
  induction cs generalizing s with
  | nil => simp [exactly, run, byteSize]
  | cons c cs ih =>
    change ((one c).seq (exactly cs)).run s = _
    obtain ⟨rest, offset, log, furthest⟩ := s
    cases rest with
    | nil => rfl
    | cons x rest =>
      by_cases hx : x = c
      · subst hx
        simp [run, one, State.next, ih, byteSize, Nat.add_assoc]
      · simp [run, one, State.next, hx, Ne.symm hx]

/-- Two classes of characters, one after the other, match what they match together. -/
theorem Peg.run_alt_char {f g h : Char → Bool} (hfg : ∀ x, h x = (f x || g x)) (s : State) :
    (char f <|> char g).run s = (char h).run s := by
  change ((char f).alt (char g)).run s = (char h).run s
  obtain ⟨rest, offset, log, furthest⟩ := s
  cases rest with
  | nil => rfl
  | cons x rest =>
    simp only [run, State.next, hfg x]
    cases f x <;> cases g x <;> rfl

/-- Moves the board on, and tells whether it has matched. -/
abbrev Matcher := Board → Bool × Board

namespace Matcher

/-! ## Matchers -/

/-- Matches one character of a class. -/
def eatIf (accepts : Char → Bool) : Matcher := fun b =>
  match b.cursor.rest with
  | [] => (false, b)
  | c :: cs =>
    if accepts c then (true, { b with cursor := ⟨cs, b.cursor.offset + c.utf8Size⟩ })
    else (false, b)

def eat (c : Char) : Matcher := eatIf (· == c)

def bump : Matcher := eatIf fun _ => true

/-- Matches the given characters, all at once. -/
def eatStr (cs : List Char) : Matcher := fun b =>
  if cs.isPrefixOf b.cursor.rest then
    (true, { b with cursor := ⟨b.cursor.rest.drop cs.length, b.cursor.offset + byteSize cs⟩ })
  else (false, b)

def atEnd : Matcher := fun b => (b.cursor.rest.isEmpty, b)

/-- Matches `c`, then `d`. -/
def both (c d : Matcher) : Matcher := fun b =>
  match c b with
  | (true, b') => d b'
  | (false, b') => (false, b')

/-- Matches `c`, or else `d` from wherever `c` has left the cursor. -/
def either (c d : Matcher) : Matcher := fun b =>
  match c b with
  | (true, b') => (true, b')
  | (false, b') => d b'

instance : Append Matcher := ⟨both⟩

instance : OrElse Matcher := ⟨fun c d => either c (d ())⟩

/-- Matches so many hexadecimal digits, one by one. -/
def eatHexDigits : Nat → Matcher
  | 0 => fun b => (true, b)
  | n + 1 => eatIf isHexDigit ++ eatHexDigits n

/-- Matches `c`, and puts the cursor and the log back if it fails. -/
def attempt (c : Matcher) : Matcher := fun b =>
  match c b with
  | (true, b') => (true, b')
  | (false, b') => (false, b'.back b)

/-- Matches `c` and logs the match, unless it is empty. -/
def rule (r : Rule) (c : Matcher) : Matcher := fun b =>
  match attempt c b with
  | (true, b') =>
    (true, if b'.cursor.offset = b.cursor.offset then b' else b'.add r b.cursor.offset)
  | (false, b') => (false, b')

/-- Attempts `c` again and again, as long as it matches and moves. The text at hand is given as
`fuel`. -/
def again (c : Matcher) : (fuel : List Char) → Board → Board
  | [], b => (attempt c b).2
  | _ :: fuel, b =>
    match attempt c b with
    | (true, b') => if b'.cursor.offset = b.cursor.offset then b' else again c fuel b'
    | (false, b') => b'

def zeroOrMore (c : Matcher) : Matcher := fun b => (true, again c b.cursor.rest b)

def oneOrMore (c : Matcher) : Matcher := attempt c ++ zeroOrMore c

def optional (c : Matcher) : Matcher := fun b => (true, (attempt c b).2)

/-- Matches the empty text where `c` fails, and puts the cursor and the log back in any case. -/
def notAhead (c : Matcher) : Matcher := fun b =>
  let (matched, b') := c b
  (!matched, b'.back b)

/-! ## The grammar -/

def comment : Matcher :=
  attempt (eat ';' ++ zeroOrMore (notAhead (eat '\r' <|> eat '\n') ++ bump) ++
    (eat '\r' <|> eat '\n' <|> atEnd))

def spacing : Matcher :=
  rule .spacing (zeroOrMore (oneOrMore (eatIf ([' ', '\t', '\r', '\n'].contains ·)) <|> comment))

def nameChar : Matcher := eatIf fun c => isWordChar c || c == '-'

def identifier : Matcher := rule .identifier (eatIf isNameStart ++ zeroOrMore nameChar ++ spacing)

def attr : Matcher := rule .attr (eat '.' ++ identifier)

def identifierAttr : Matcher := rule .identifierAttr (identifier ++ oneOrMore attr)

def sign : Matcher := eatIf (['+', '-'].contains ·)

def digitsOf (first further : Char → Bool) : Matcher :=
  eatIf first ++ zeroOrMore (zeroOrMore (eat '_') ++ eatIf further)

def digits : Matcher := digitsOf Char.isDigit Char.isDigit

def exponent : Matcher := rule .exponent (eatIf (['e', 'E'].contains ·) ++ optional sign ++ digits)

def floatLiteral : Matcher :=
  rule .floatLiteral
    (optional sign ++
      (attempt (digits ++ eat '.' ++ optional digits ++ optional exponent)
        <|> attempt (digits ++ exponent)
        <|> attempt (eat '.' ++ digits ++ optional exponent)))

def hexNumeral : Matcher :=
  rule .hexNumeral (attempt (digitsOf isHexDigit isHexDigit) <|> eat '0')

def decimalNumeral : Matcher :=
  rule .decimalNumeral
    (attempt (digitsOf (fun c => '1' ≤ c && c ≤ '9') Char.isDigit) <|> eat '0')

def integerLiteral : Matcher :=
  rule .integerLiteral
    (optional sign ++
      (attempt (eat '0' ++ eatIf (['x', 'X'].contains ·) ++ hexNumeral) <|> decimalNumeral) ++
      optional (eatIf (['u', 'U'].contains ·)))

def longStringLiteral : Matcher :=
  rule .longStringLiteral
    (eatStr ['"', '"', '"'] ++ zeroOrMore (notAhead (eat '"') ++ bump) ++
      eatStr ['"', '"', '"'])

def uChar : Matcher :=
  rule .uChar
    (attempt (eat '\\' ++ eat 'u' ++ eatHexDigits 4)
      <|> attempt (eat '\\' ++ eat 'U' ++ eatHexDigits 8))

def hexByte : Matcher := rule .hexByte (eat '\\' ++ eat 'x' ++ eatHexDigits 2)

def escape : Matcher :=
  rule .escape
    (eat '\\' ++ eatIf (['\'', '"', '\\', 'v', 't', 'r', 'n', 'f', 'b', 'a'].contains ·))

def stringPiece : Matcher :=
  uChar <|> escape <|> hexByte
    <|> attempt (notAhead (eatIf (['\\', '\n', '"'].contains ·)) ++ bump)

def stringLiteral : Matcher := rule .stringLiteral (eat '"' ++ zeroOrMore stringPiece ++ eat '"')

def boolLiteral : Matcher :=
  rule .boolLiteral
    ((eatStr ['#', 'f'] <|> eatStr ['#', 't']) ++ notAhead (eatIf isWordChar))

def nilLiteral : Matcher := rule .nilLiteral (eatStr ['n', 'i', 'l'] ++ notAhead nameChar)

def literal : Matcher :=
  rule .literal
    (floatLiteral <|> longStringLiteral <|> boolLiteral <|> stringLiteral <|> nilLiteral
      <|> integerLiteral)

def atom : Matcher := literal <|> identifierAttr <|> identifier

def option : Matcher := rule .option (eat '#' ++ eat ':' ++ identifier ++ atom ++ spacing)

def optionList : Matcher := rule .optionList (oneOrMore option)

def operator : Matcher := rule .operator identifier

def lpar : Matcher := rule .lpar (spacing ++ eat '(' ++ spacing)

def rpar : Matcher := rule .rpar (spacing ++ eat ')' ++ spacing)

/-- A call whose operands match `operand`, if one more may be opened. -/
def expression (operand : Matcher) : Matcher := fun b =>
  if maxNesting ≤ b.nesting then (false, b)
  else
    let (matched, b') :=
      rule .expression (lpar ++ operator ++ zeroOrMore (optionList <|> operand) ++ rpar)
        { b with nesting := b.nesting + 1 }
    (matched, { b' with nesting := b'.nesting - 1 })

/-- A value: `call`, or else an atom. -/
def valueOr (call : Matcher) : Matcher := rule .value ((call <|> atom) ++ spacing)

/-- The matcher is that of values, whose operands are such values again. -/
def IsValue (value : Matcher) : Prop := value = valueOr (expression value)

/-- A script around a value. -/
def script (value : Matcher) : Matcher := rule .script (spacing ++ value ++ rule .eot atEnd)

/-- The log of a text that is matched as a whole, or else the furthest match. -/
def answer (value : Matcher) (cs : List Char) : Except Token (List Token) :=
  match script value (.start cs) with
  | (true, b) => .ok b.tokens.toList
  | (false, b) => .error (b.furthest.getD ⟨.script, ⟨0, 0⟩⟩)

/-! ## What is restored -/

variable {n : Nat} {c d : Matcher} {p q : Peg}

/-- With `n` calls open, the matcher does what `p` does. If it fails, it may leave the cursor
anywhere, and tokens behind those that were in the log. -/
structure Follows (n : Nat) (c : Matcher) (p : Peg) : Prop where
  ok : ∀ b s, b.nesting = n → p.run b.state = .ok s → c b = (true, b.showing s)
  error : ∀ b g, b.nesting = n → p.run b.state = .error g →
    ∃ cursor more, c b = (false, ⟨cursor, b.tokens ++ more, g, n⟩)

/-- With `n` calls open, the matcher does what `p` does. If it fails, it leaves nothing behind but
the furthest match. -/
def Restores (n : Nat) (c : Matcher) (p : Peg) : Prop :=
  ∀ b, b.nesting = n → c b = b.after (p.run b.state)

namespace Restores

theorem follows (h : Restores n c p) : Follows n c p where
  ok := by
    intro b s hn hs
    rw [h b hn, hs, Board.after]
  error := by
    intro b g hn hg
    refine ⟨b.cursor, #[], ?_⟩
    rw [h b hn, hg, Board.after, Array.append_empty, hn]

theorem congr (h : Restores n c p) (hpq : ∀ s, p.run s = q.run s) : Restores n c q :=
  fun b hn => hpq b.state ▸ h b hn

theorem eatIf (accepts : Char → Bool) : Restores n (eatIf accepts) (.char accepts) := by
  intro b hn
  obtain ⟨⟨rest, offset⟩, tokens, furthest, nesting⟩ := b
  rw [Peg.run, Peg.State.next]
  cases rest with
  | nil => rfl
  | cons x rest =>
    by_cases hx : accepts x = true
    · simp [Matcher.eatIf, Board.state, Board.after, Board.showing, hx]
    · simp [Matcher.eatIf, Board.state, Board.after, hx]

theorem atEnd : Restores n atEnd Peg.atEnd := by
  intro b hn
  obtain ⟨⟨rest, offset⟩, tokens, furthest, nesting⟩ := b
  cases rest with
  | nil => simp [Matcher.atEnd, Peg.atEnd, Peg.any, Peg.run, Peg.State.next, Board.state,
      Board.after, Board.showing]
  | cons x rest => rfl

/-- An alternative that restores the board can be followed by another one. -/
theorem either (hp : Restores n c p) (hq : Restores n d q) :
    Restores n (c <|> d) (p <|> q) := by
  intro b hn
  change Matcher.either c d b = b.after ((p.alt q).run b.state)
  rw [Matcher.either, hp b hn, Peg.run]
  cases p.run b.state with
  | ok s => rfl
  | error g => exact hq { b with furthest := g } hn

end Restores

-- Where the first alternative does not restore the board, the second one goes on from where the
-- first one got stuck.
example : ((eat 'a' ++ eat 'b' <|> eat 'c') (.start ['a', 'c'])).1 = true := by decide

namespace Follows

theorem both (hp : Follows n c p) (hq : Follows n d q) : Follows n (c ++ d) (p ++ q) where
  ok := by
    intro b s hn hs
    change Matcher.both c d b = _
    change (p.seq q).run b.state = .ok s at hs
    rw [Peg.run] at hs
    cases hrun : p.run b.state with
    | error g =>
      rw [hrun] at hs
      cases hs
    | ok t =>
      rw [hrun] at hs
      rw [Matcher.both, hp.ok b t hn hrun]
      exact hq.ok (b.showing t) s hn (by rwa [Board.state_showing])
  error := by
    intro b g hn hg
    change ∃ cursor more, Matcher.both c d b = _
    change (p.seq q).run b.state = .error g at hg
    rw [Peg.run] at hg
    cases hrun : p.run b.state with
    | error g' =>
      rw [hrun] at hg
      cases hg
      obtain ⟨cursor, more, hc⟩ := hp.error b g hn hrun
      refine ⟨cursor, more, ?_⟩
      rw [Matcher.both, hc]
    | ok t =>
      -- What `p` has logged stays when `q` fails, behind what was logged before.
      rw [hrun] at hg
      obtain ⟨cursor, more, hd⟩ := hq.error (b.showing t) g hn (by rwa [Board.state_showing])
      obtain ⟨new, hnew⟩ := Board.exists_tokens_showing (p.log_suffix_run hrun)
      refine ⟨cursor, new ++ more, ?_⟩
      rw [Matcher.both, hp.ok b t hn hrun]
      change d (b.showing t) = _
      rw [hd, hnew, Array.append_assoc]

/-- An attempt restores the board. -/
theorem attempt (h : Follows n c p) : Restores n (attempt c) p := by
  intro b hn
  unfold Matcher.attempt
  cases hrun : p.run b.state with
  | ok s =>
    rw [h.ok b s hn hrun]
    rfl
  | error g =>
    obtain ⟨cursor, more, hc⟩ := h.error b g hn hrun
    rw [hc]
    exact congrArg (Prod.mk false) (Board.back_eq rfl hn.symm)

theorem rule (r : Rule) (h : Follows n c p) : Restores n (rule r c) (p.rule r) := by
  intro b hn
  rw [Matcher.rule, h.attempt b hn, Peg.run]
  cases p.run b.state with
  | error g => rfl
  | ok s =>
    by_cases hmoved : s.offset = b.cursor.offset
    · simp [Board.after, Board.showing, Board.state, Peg.State.complete, hmoved]
    · simp [Board.after, Board.showing, Board.state, Board.add, Peg.State.complete, hmoved]

theorem again (h : Follows n c p) (fuel : List Char) (b : Board) (hn : b.nesting = n) :
    again c fuel b = b.showing (Peg.State.again p.run fuel b.state) := by
  induction fuel generalizing b with
  | nil =>
    rw [Matcher.again, h.attempt b hn, Peg.State.again]
    cases p.run b.state with
    | error g => exact (b.showing_furthest g).symm
    | ok s => rfl
  | cons x fuel ih =>
    rw [Matcher.again, h.attempt b hn, Peg.State.again]
    cases p.run b.state with
    | error g => exact (b.showing_furthest g).symm
    | ok s =>
      change (if s.offset = b.cursor.offset then b.showing s
          else Matcher.again c fuel (b.showing s)) =
        b.showing (if s.offset = b.cursor.offset then s else Peg.State.again p.run fuel s)
      by_cases hmoved : s.offset = b.cursor.offset
      · rw [if_pos hmoved, if_pos hmoved]
      · have hlater := ih (b.showing s) hn
        rw [Board.state_showing] at hlater
        rw [if_neg hmoved, if_neg hmoved]
        exact hlater

theorem zeroOrMore (h : Follows n c p) : Restores n (zeroOrMore c) p.star := by
  intro b hn
  rw [Matcher.zeroOrMore, h.again _ b hn, Peg.run]
  rfl

theorem oneOrMore (h : Follows n c p) : Restores n (oneOrMore c) p.plus := by
  intro b hn
  change Matcher.both (Matcher.attempt c) (Matcher.zeroOrMore c) b = b.after ((p.seq p.star).run _)
  rw [Matcher.both, h.attempt b hn, Peg.run]
  cases p.run b.state with
  | error g => rfl
  | ok s =>
    have hmore := h.zeroOrMore (b.showing s) hn
    rw [Board.state_showing] at hmore
    exact hmore

theorem optional (h : Follows n c p) : Restores n (optional c) p.opt := by
  intro b hn
  change (true, (Matcher.attempt c b).2) = b.after ((p.alt .empty).run b.state)
  rw [h.attempt b hn, Peg.run]
  cases p.run b.state with
  | error g => exact congrArg (Prod.mk true) (b.showing_furthest g).symm
  | ok s => rfl

/-- Looking ahead restores the board, whatever is seen. -/
theorem notAhead (h : Follows n c p) : Restores n (notAhead c) p.not := by
  intro b hn
  unfold Matcher.notAhead
  rw [Peg.run]
  cases hrun : p.run b.state with
  | error g =>
    obtain ⟨cursor, more, hc⟩ := h.error b g hn hrun
    rw [hc]
    refine congrArg (Prod.mk true) ?_
    rw [Board.back_eq rfl hn.symm]
    exact (b.showing_furthest g).symm
  | ok s =>
    obtain ⟨new, hnew⟩ := Board.exists_tokens_showing (p.log_suffix_run hrun)
    rw [h.ok b s hn hrun]
    exact congrArg (Prod.mk false) (Board.back_eq hnew rfl)

end Follows

/-! ## The grammar restores the board -/

namespace Restores

theorem eatStr (cs : List Char) : Restores n (eatStr cs) (.exactly cs) := by
  intro b hn
  rw [Peg.run_exactly, Matcher.eatStr]
  by_cases hpre : cs.isPrefixOf b.cursor.rest = true
  · simp [Board.state, Board.after, Board.showing, hpre]
  · simp [Board.state, Board.after, hpre]

end Restores

theorem follows_eatHexDigits (k : Nat) :
    Follows n (eatHexDigits k) (.times k (.char isHexDigit)) := by
  induction k with
  | zero =>
    have hempty : Restores n (eatHexDigits 0) .empty := by
      intro b hn
      exact congrArg (Prod.mk true) b.showing_state.symm
    exact hempty.follows
  | succ k ih => exact (Restores.eatIf isHexDigit).follows.both ih

section Words

theorem restores_eat (x : Char) : Restores n (eat x) (.one x) := .eatIf _

theorem restores_bump : Restores n bump .any := .eatIf _

theorem restores_nameChar : Restores n nameChar (.char isWordChar <|> .one '-') :=
  (Restores.eatIf _).congr fun s => (Peg.run_alt_char (fun _ => rfl) s).symm

theorem restores_comment : Restores n comment Grammar.comment := by
  have hclass : ∀ x, ['\r', '\n'].contains x = (x == '\r' || x == '\n') := by
    intro x
    rw [List.contains_cons, List.contains_cons, List.contains_nil, Bool.or_false]
  have hbreak : Restores n (eat '\r' <|> eat '\n') (.oneOf ['\r', '\n']) :=
    ((restores_eat '\r').either (restores_eat '\n')).congr (Peg.run_alt_char hclass)
  have hline : Restores n (zeroOrMore (notAhead (eat '\r' <|> eat '\n') ++ bump))
      (.star (.not (.oneOf ['\r', '\n']) ++ .any)) :=
    (hbreak.follows.notAhead.follows.both restores_bump.follows).zeroOrMore
  have hend : Restores n (eat '\r' <|> eat '\n' <|> atEnd) (.one '\r' <|> .one '\n' <|> .atEnd) :=
    (restores_eat '\r').either ((restores_eat '\n').either .atEnd)
  exact (((restores_eat ';').follows.both hline.follows).both hend.follows).attempt

theorem restores_spacing : Restores n spacing Grammar.spacing := by
  have hblanks := (Restores.eatIf (n := n) ([' ', '\t', '\r', '\n'].contains ·)).follows.oneOrMore
  exact (hblanks.either restores_comment).follows.zeroOrMore.follows.rule .spacing

theorem restores_identifier : Restores n identifier Grammar.identifier :=
  (((Restores.eatIf _).follows.both restores_nameChar.follows.zeroOrMore.follows).both
    restores_spacing.follows).rule .identifier

theorem restores_identifierAttr : Restores n identifierAttr Grammar.identifierAttr := by
  have hattr : Restores n attr Grammar.attr :=
    ((restores_eat '.').follows.both restores_identifier.follows).rule .attr
  exact (restores_identifier.follows.both hattr.follows.oneOrMore.follows).rule .identifierAttr

end Words

section Literals

theorem restores_sign : Restores n sign Grammar.sign := .eatIf _

theorem follows_digitsOf (first further : Char → Bool) :
    Follows n (digitsOf first further) (Grammar.digitsOf first further) := by
  have hmore := (restores_eat (n := n) '_').follows.zeroOrMore.follows.both
    (Restores.eatIf further).follows
  exact (Restores.eatIf first).follows.both hmore.zeroOrMore.follows

theorem restores_exponent : Restores n exponent Grammar.exponent :=
  (((Restores.eatIf _).follows.both restores_sign.follows.optional.follows).both
    (follows_digitsOf _ _)).rule .exponent

theorem restores_floatLiteral : Restores n floatLiteral Grammar.floatLiteral := by
  have hdigits : Follows n digits Grammar.digits := follows_digitsOf _ _
  have hpoint := (restores_eat (n := n) '.').follows
  have hexponent := (restores_exponent (n := n)).follows
  have hwhole := (((hdigits.both hpoint).both hdigits.optional.follows).both
    hexponent.optional.follows).attempt
  have hscaled := (hdigits.both hexponent).attempt
  have hfraction := ((hpoint.both hdigits).both hexponent.optional.follows).attempt
  exact (restores_sign.follows.optional.follows.both
    (hwhole.either (hscaled.either hfraction)).follows).rule .floatLiteral

theorem restores_integerLiteral : Restores n integerLiteral Grammar.integerLiteral := by
  have hzero := restores_eat (n := n) '0'
  have hhex : Restores n hexNumeral Grammar.hexNumeral :=
    ((follows_digitsOf _ _).attempt.either hzero).follows.rule .hexNumeral
  have hdecimal : Restores n decimalNumeral Grammar.decimalNumeral :=
    ((follows_digitsOf _ _).attempt.either hzero).follows.rule .decimalNumeral
  have hprefixed := ((hzero.follows.both (Restores.eatIf (['x', 'X'].contains ·)).follows).both
    hhex.follows).attempt
  exact ((restores_sign.follows.optional.follows.both (hprefixed.either hdecimal).follows).both
    (Restores.eatIf _).follows.optional.follows).rule .integerLiteral

theorem restores_longStringLiteral : Restores n longStringLiteral Grammar.longStringLiteral := by
  have hinside := ((restores_eat (n := n) '"').follows.notAhead.follows.both
    restores_bump.follows).zeroOrMore
  exact (((Restores.eatStr _).follows.both hinside.follows).both (Restores.eatStr _).follows).rule
    .longStringLiteral

theorem restores_stringLiteral : Restores n stringLiteral Grammar.stringLiteral := by
  have hmark : ∀ x k, Follows n (eat '\\' ++ eat x ++ eatHexDigits k)
      (.one '\\' ++ .one x ++ .times k (.char isHexDigit)) := fun x k =>
    ((restores_eat '\\').follows.both (restores_eat x).follows).both (follows_eatHexDigits k)
  have hchar : Restores n uChar Grammar.uChar :=
    ((hmark 'u' 4).attempt.either (hmark 'U' 8).attempt).follows.rule .uChar
  have hbyte : Restores n hexByte Grammar.hexByte := (hmark 'x' 2).rule .hexByte
  have hescape : Restores n escape Grammar.escape :=
    ((restores_eat '\\').follows.both (Restores.eatIf _).follows).rule .escape
  have hspecial := Restores.eatIf (n := n) (['\\', '\n', '"'].contains ·)
  have hplain := (hspecial.follows.notAhead.follows.both restores_bump.follows).attempt
  have hpieces : Restores n stringPiece Grammar.stringPiece :=
    hchar.either (hescape.either (hbyte.either hplain))
  exact (((restores_eat '"').follows.both hpieces.follows.zeroOrMore.follows).both
    (restores_eat '"').follows).rule .stringLiteral

theorem restores_boolLiteral : Restores n boolLiteral Grammar.boolLiteral :=
  (((Restores.eatStr _).either (Restores.eatStr _)).follows.both
    (Restores.eatIf _).follows.notAhead.follows).rule .boolLiteral

theorem restores_nilLiteral : Restores n nilLiteral Grammar.nilLiteral :=
  ((Restores.eatStr _).follows.both restores_nameChar.follows.notAhead.follows).rule .nilLiteral

theorem restores_atom : Restores n atom Grammar.atom := by
  have hliteral : Restores n literal Grammar.literal :=
    (restores_floatLiteral.either (restores_longStringLiteral.either (restores_boolLiteral.either
      (restores_stringLiteral.either (restores_nilLiteral.either
        restores_integerLiteral))))).follows.rule .literal
  exact hliteral.either (restores_identifierAttr.either restores_identifier)

end Literals

section Values

variable {value : Matcher}

theorem restores_optionList : Restores n optionList Grammar.optionList := by
  have hkey := ((restores_eat (n := n) '#').follows.both (restores_eat ':').follows).both
    restores_identifier.follows
  have hoption : Restores n option Grammar.option :=
    ((hkey.both restores_atom.follows).both restores_spacing.follows).rule .option
  exact hoption.follows.oneOrMore.follows.rule .optionList

/-- A call is matched with one more call open, which is closed in the end. -/
theorem restores_expression (hn : n < maxNesting) (h : Restores (n + 1) c p) :
    Restores n (expression c) (Grammar.expression p) := by
  have hspacing := (restores_spacing (n := n + 1)).follows
  have hlpar : Restores (n + 1) lpar Grammar.lpar :=
    ((hspacing.both (restores_eat '(').follows).both hspacing).rule .lpar
  have hrpar : Restores (n + 1) rpar Grammar.rpar :=
    ((hspacing.both (restores_eat ')').follows).both hspacing).rule .rpar
  have hoperator : Restores (n + 1) operator Grammar.operator :=
    restores_identifier.follows.rule .operator
  have hcall := (((hlpar.follows.both hoperator.follows).both
    (restores_optionList.either h).follows.zeroOrMore.follows).both hrpar.follows).rule .expression
  intro b hb
  have hbody : rule .expression _ { b with nesting := b.nesting + 1 } =
      Board.after { b with nesting := b.nesting + 1 } ((Grammar.expression p).run b.state) :=
    hcall { b with nesting := b.nesting + 1 } (congrArg (· + 1) hb)
  unfold expression
  rw [if_neg (Nat.not_le_of_lt (hb ▸ hn)), hbody]
  cases (Grammar.expression p).run b.state with
  | ok s => rfl
  | error g => rfl

theorem restores_expression_shut (hn : maxNesting ≤ n) : Restores n (expression c) .fail := by
  intro b hb
  unfold expression
  rw [if_pos (hb.symm ▸ hn), Peg.run]
  rfl

theorem restores_valueOr (h : Restores n c p) : Restores n (valueOr c) (Grammar.valueOr p) :=
  ((h.either restores_atom).follows.both restores_spacing.follows).rule .value

/-- What matches operands as values do matches the values around them. -/
theorem restores_valueOr_expression {k : Nat} (hk : maxNesting - n = k)
    (h : ∀ l, k = l + 1 → Restores (n + 1) c (Grammar.value l)) :
    Restores n (valueOr (expression c)) (Grammar.value k) := by
  cases k with
  | zero => exact restores_valueOr (restores_expression_shut (Nat.sub_eq_zero_iff_le.mp hk))
  | succ l => exact restores_valueOr (restores_expression (by omega) (h l rfl))

/-- A value that is not matched leaves nothing behind but the furthest match. -/
theorem IsValue.restores (h : IsValue value) (n : Nat) :
    Restores n value (Grammar.value (maxNesting - n)) := by
  -- The count goes up from a call to its operands, and with it the room goes down.
  induction hk : maxNesting - n using Nat.strongRecOn generalizing n with
  | ind k ih =>
    intro b hb
    rw [congrFun h b]
    exact restores_valueOr_expression hk (fun l hl => ih l (by omega) (n + 1) (by omega)) b hb

/-- There is exactly one matcher of values. -/
theorem existsUnique_isValue : ∃! value, IsValue value := by
  refine ⟨fun b => b.after ((Grammar.value (maxNesting - b.nesting)).run b.state), ?_,
    fun value h => ?_⟩
  · funext b
    refine (restores_valueOr_expression (n := b.nesting) rfl (fun l hl b' hb' => ?_) b rfl).symm
    have hroom : maxNesting - b'.nesting = l := by omega
    rw [hroom]
  · funext b
    exact h.restores b.nesting b rfl

theorem IsValue.script_restores (h : IsValue value) : Restores 0 (script value) Grammar.script := by
  have hvalue : Restores 0 value (Grammar.value maxNesting) := h.restores 0
  have hend : Restores 0 (rule .eot Matcher.atEnd) (.rule .eot .atEnd) :=
    Restores.atEnd.follows.rule .eot
  exact ((restores_spacing.follows.both hvalue.follows).both hend.follows).rule .script

/-- Matching on one board answers what the grammar does. -/
theorem IsValue.answer_eq (h : IsValue value) (cs : List Char) :
    answer value cs = matchScript cs := by
  have hrun : script value (.start cs) = (Board.start cs).after (Grammar.script.run (.start cs)) :=
    h.script_restores (.start cs) rfl
  unfold answer matchScript
  rw [hrun]
  cases Grammar.script.run (.start cs) with
  | ok s => rfl
  | error g => rfl

end Values

end Matcher

end Fexpr.Grammar
