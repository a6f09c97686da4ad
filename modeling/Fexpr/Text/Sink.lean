/-!
# Sinks of bounded room

A sink accepts bytes until its room is used up. Writing a text that does not fit accepts the bytes
that do and fails.
-/

namespace Fexpr.Text

/-- A receiver of bytes. -/
structure Sink where
  /-- How many more bytes are accepted. -/
  room : Nat
  /-- The bytes accepted so far. -/
  written : Array UInt8

namespace Sink

/-- A sink with room for `n` bytes. -/
def withRoom (n : Nat) : Sink := ⟨n, #[]⟩

/-- Writes a text. The answer tells whether all of it was accepted. -/
def write (k : Sink) (text : String) : Sink × Bool :=
  let bytes := text.toUTF8.toList
  (⟨k.room - bytes.length, k.written ++ bytes.take k.room⟩, decide (bytes.length ≤ k.room))

/-- Writes texts one after the other and stops at the first that fails. -/
def writeAll (k : Sink) : List String → Sink × Bool
  | [] => (k, true)
  | text :: texts =>
    match k.write text with
    | (k', true) => k'.writeAll texts
    | (k', false) => (k', false)

/-- The accepted bytes as a text. They are a first part of a text's encoding, so that only the last
character can be broken; it is shown as a replacement character. -/
def text (k : Sink) : String :=
  let decode (missing : Nat) : Option String :=
    String.fromUTF8? ⟨k.written.take (k.written.size - missing)⟩
  match decode 0 with
  | some s => s
  | none => ((decode 1 <|> decode 2 <|> decode 3).getD "").push '�'

end Sink

end Fexpr.Text
