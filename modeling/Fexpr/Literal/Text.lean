import Fexpr.Literal.Integer

/-!
# String literals

A short string is read as a sequence of pieces: characters taken as they are, bytes and characters
written as escapes. The pieces' bytes together must be the encoding of a text. A long string stands
for the text between its triple quotes.
-/

namespace Fexpr.Literal

/-- `cs` without the mark `mark` in front and the same mark behind; `none` unless both are there. -/
def unwrap? (mark cs : List Char) : Option (List Char) :=
  (mark.isPrefixOf? cs).bind fun rest =>
    (mark.reverse.isPrefixOf? rest.reverse).map List.reverse

/-- The byte that a one-letter escape stands for. -/
def escapedByte? : Char → Option UInt8
  | 'n' => some 0x0A
  | 'r' => some 0x0D
  | 't' => some 0x09
  | 'b' => some 0x08
  | 'f' => some 0x0C
  | 'v' => some 0x0B
  | 'a' => some 0x07
  | '\\' => some 0x5C
  | '"' => some 0x22
  | '\'' => some 0x27
  | _ => none

/-- The escapes written in hexadecimal, and how many digits they have. -/
def hexWidth? : Char → Option Nat
  | 'x' => some 2
  | 'u' => some 4
  | 'U' => some 8
  | _ => none

/-- The bytes of a finished hexadecimal escape: a byte, or a character given by its code. -/
def hexBytes (letter : Char) (code : Nat) : Except Error (List UInt8) :=
  if letter = 'x' then .ok [UInt8.ofNat code]
  else if code.isValidChar then .ok (String.utf8EncodeChar (Char.ofNat code))
  else .error (.invalidCodePoint code)

/-- Where in a piece the reader of a string stands. -/
inductive Mode where
  /-- Between pieces. -/
  | plain
  /-- After a backslash. -/
  | escaped
  /-- After the letter of a hexadecimal escape, with digits left to read and the code so far. -/
  | hex (letter : Char) (left code : Nat)

/-- The bytes that the inside of a string stands for. -/
def bytes : Mode → List Char → Except Error (List UInt8)
  | .plain, [] => .ok []
  | .escaped, [] => .error (.invalidEscape ' ')
  | .hex letter _ _, [] => .error (.invalidEscape letter)
  | .plain, c :: cs =>
    if c = '\\' then bytes .escaped cs
    else (bytes .plain cs).map (String.utf8EncodeChar c ++ ·)
  | .escaped, c :: cs =>
    match escapedByte? c, hexWidth? c with
    | some b, _ => (bytes .plain cs).map (b :: ·)
    | none, some width => bytes (.hex c width 0) cs
    | none, none => .error (.invalidEscape c)
  | .hex letter left code, c :: cs =>
    match digit? 16 c with
    | none => .error (.invalidEscape letter)
    | some d =>
      let code' := code * 16 + d
      if left ≤ 1 then
        match hexBytes letter code' with
        | .error e => .error e
        | .ok piece => (bytes .plain cs).map (piece ++ ·)
      else bytes (.hex letter (left - 1) code') cs

/-- Decodes a short string literal. A text that is not between quotes is taken as the inside. -/
def parseString (text : List Char) : Except Error String :=
  match bytes .plain ((unwrap? ['"'] text).getD text) with
  | .error e => .error e
  | .ok bs =>
    match String.fromUTF8? ⟨bs.toArray⟩ with
    | some s => .ok s
    | none => .error .invalidUtf8

/-- The text between triple quotes; the whole text if it does not stand between them. -/
def longStringBody (text : List Char) : List Char := (unwrap? ['"', '"', '"'] text).getD text

end Fexpr.Literal
