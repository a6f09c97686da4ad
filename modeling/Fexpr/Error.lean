import Fexpr.Arity
import Fexpr.Grammar.Rule
import Fexpr.Literal.Error
import Fexpr.Source
import Fexpr.Text.Quoted
import Fexpr.Value.Basic

/-!
# Errors

An error says what went wrong and, where that is known, at which place of which source. A procedure
does not know where it was called from: what it raises is placed by the call that runs it
(`Error.locate`). All other errors keep the place they have.
-/

namespace Fexpr

open Text (Span Location)
open Grammar (Rule)

/-- A place in a source, with an optional hint for the reader of a report. -/
structure Site where
  /-- The source. -/
  source : Source
  /-- The place. -/
  span : Span
  /-- The hint. -/
  help : Option String := none

/-- The location of a site. -/
def Site.location (s : Site) : Location := s.source.locate s.span

/-- Why a form has no value. -/
inductive Problem where
  /-- Too many calls are in progress. -/
  | recursionLimit (maxDepth : Nat)
  /-- The operator is bound to something that cannot be called. -/
  | notProcedure (id : String) (type : ValueType)
  /-- A key is selected from a value without keys. -/
  | notIndexable (key : String) (type : ValueType)
  /-- A key is selected that the value does not have. -/
  | notFound (key : String) (type : ValueType)
  /-- An integer literal denotes nothing. -/
  | badInteger (text : List Char) (e : Literal.Error)
  /-- A float literal denotes nothing. -/
  | badFloat (text : List Char) (e : Literal.Error)
  /-- A string literal denotes nothing. -/
  | badString (e : Literal.Error)
  /-- A procedure failed, with the texts of the causes behind it, the nearest first. -/
  | raised (message : String) (causes : List String)

namespace Problem

/-- The problem in words. -/
def message : Problem → String
  | recursionLimit n => s!"recursion limit exceeded (max depth {n})"
  | notProcedure id type => s!"<{id}> is not a procedure, but {type.name}"
  | notIndexable key type =>
    s!"index({key}) not found: value(type={type.name}) is not indexable"
  | notFound key type => s!"index({key}) not found for value(type={type.name})"
  | badInteger text e => s!"invalid literal {Text.quote text}: {e.message}"
  | badFloat text e => s!"invalid float literal {Text.quote text}: {e.message}"
  | badString e => s!"invalid string literal: {e.message}"
  | raised m _ => m

/-- The texts of the causes behind the problem. -/
def causes : Problem → List String
  | raised _ causes => causes
  | _ => []

end Problem

/-- The classes of errors. -/
inductive ErrorKind where
  | syntaxError
  | unboundIdentifier
  | evaluate
  | arity
  | procedure
  | host
deriving DecidableEq

/-- The name of a class. -/
def ErrorKind.name : ErrorKind → String
  | syntaxError => "syntax"
  | unboundIdentifier => "unbounded-identifier"
  | evaluate => "evaluate"
  | arity => "arity"
  | procedure => "procedure"
  | host => "host"

/-- An error. -/
inductive Error where
  /-- The text is no script; the furthest match is given. -/
  | rejected (rule : Rule) (site : Site)
  /-- An identifier is not bound. -/
  | unbound (id : String) (site : Site)
  /-- A form has no value. -/
  | failed (problem : Problem) (site : Site)
  /-- A procedure was given a wrong number of operands. -/
  | arity (mismatch : Arity.Mismatch)
  /-- A procedure failed, and the failure has no place yet. -/
  | raised (message : String) (causes : List String)
  /-- An identifier was to be bound to nothing. -/
  | noValue (id : String)
  /-- The text is no arity pattern. -/
  | badPattern (pattern : String)

namespace Error

/-- A failure of a procedure with nothing behind it. -/
def custom (message : String) : Error := raised message []

/-- The class of an error. -/
def kind : Error → ErrorKind
  | rejected _ _ => .syntaxError
  | unbound _ _ => .unboundIdentifier
  | failed _ _ => .evaluate
  | arity _ => .arity
  | raised _ _ => .procedure
  | noValue _ => .host
  | badPattern _ => .host

/-- The place of an error. -/
def site? : Error → Option Site
  | rejected _ s => some s
  | unbound _ s => some s
  | failed _ s => some s
  | _ => none

/-- The error as one line, with its location. -/
def render : Error → String
  | rejected rule s =>
    s!"parse error near {rule.name} ({s.location.render}): " ++
      Text.quote (Text.slice s.source.chars s.span)
  | unbound id s => s!"unbounded identifier ({s.location.render}): {id}"
  | failed p s => s!"evaluate error ({s.location.render}): {p.message}"
  | arity m => m.message
  | raised m _ => m
  | noValue id => s!"cannot bind {id}: no value given"
  | badPattern p =>
    s!"invalid arity pattern {Text.quote p.toList}, expecting a number, " ++
      "\"+\", \"?\", \"*\" or \"\""

/-- The bare cause, without the location. -/
def message : Error → String
  | failed p _ => p.message
  | raised m _ => m
  | unbound id _ => id
  | e => e.render

/-- The texts of the causes behind the error, the nearest first. -/
def causes : Error → List String
  | failed p _ => p.causes
  | raised _ causes => causes
  | _ => []

/-- The code that reports are headed by. -/
def code (e : Error) : String := "gendsl::" ++ e.kind.name

/-- What a report writes under a place of a source. -/
structure Label where
  /-- What is written. -/
  text : String
  /-- Where the place starts. -/
  offset : Nat
  /-- How many bytes are marked. -/
  length : Nat

/-- The label of a report at a place. At least one byte is marked. -/
def Label.at (text : String) (s : Site) : Label := ⟨text, s.span.start, max 1 s.span.size⟩

/-- The label of a report on the error. -/
def label? : Error → Option Label
  | rejected rule s => some (.at s!"matched up to this {rule.name}" s)
  | unbound _ s => some (.at "not bound in any enclosing scope" s)
  | failed p s => some (.at p.message s)
  | _ => none

/-- The hint of an error. -/
def help? (e : Error) : Option String := e.site?.bind (·.help)

/-- Gives an error a hint. An error without a place has nowhere to put it. -/
def withHelp (help : String) : Error → Error
  | rejected rule s => rejected rule { s with help := some help }
  | unbound id s => unbound id { s with help := some help }
  | failed p s => failed p { s with help := some help }
  | e => e

/-- Places a failure of a procedure; other errors stay as they are. -/
def locate (source : Source) (span : Span) : Error → Error
  | raised message causes => failed (.raised message causes) ⟨source, span, none⟩
  | e => e

/-- A failure of a procedure that was caused by the error `e`. -/
def wrap (e : Error) : Error := raised e.render (e.render :: e.causes)

end Error

/-- Reads a pattern. What is no pattern is quoted in the error as it was given. -/
def Arity.ofPattern (pattern : String) : Except Error Arity :=
  match ofPattern? pattern with
  | some a => .ok a
  | none => .error (.badPattern pattern)

end Fexpr
