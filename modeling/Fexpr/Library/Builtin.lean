import Fexpr.Arity
import Fexpr.Value.Basic

/-!
# The procedures of the library

The library is a set of procedures for scripts: arithmetic, records, control, scopes, quoted
operands, failures. `Builtin` names them, and `Builtin.table` gives the identifiers that they are
bound to. A closure is the procedure that `LAMBDA` makes; it has no identifier of its own.
-/

namespace Fexpr

/-- The procedures of the library. -/
inductive Builtin where
  /-- Answers its operand. -/
  | itself
  /-- Adds integers. -/
  | plus
  /-- Evaluates a body with one more binding. -/
  | define
  /-- Evaluates operands in order and answers the last value. -/
  | block
  /-- Makes a list. -/
  | array
  /-- Makes a record. -/
  | record (kind : RecordKind)
  /-- Evaluates one of two operands. -/
  | choose
  /-- Compares two values. -/
  | equal
  /-- Answers its options. -/
  | options
  /-- Binds an identifier in the active scope. -/
  | set
  /-- Evaluates a body with its options layered over. -/
  | layer
  /-- Evaluates a body in a new scope, which stays. -/
  | derive
  /-- Evaluates a body in a new scope, which is released. -/
  | withDerived
  /-- Evaluates a body in a scope that was released. -/
  | stale
  /-- Counts the scopes. -/
  | scopes
  /-- Answers the limit of calls in progress. -/
  | maxDepth
  /-- Looks an identifier up. -/
  | lookup
  /-- Looks an identifier up in the active scope alone. -/
  | lookupLocal
  /-- Looks an identifier up in the enclosing scope alone. -/
  | lookupOuter
  /-- Answers its operand unevaluated. -/
  | quote
  /-- Evaluates a quoted operand. -/
  | force
  /-- Evaluates a quoted operand with its options layered over. -/
  | forceWith
  /-- Compares the scopes of two quoted operands. -/
  | sameScope
  /-- Describes its operands. -/
  | inspect
  /-- Keeps an operand under a name. -/
  | capture
  /-- Makes a closure. -/
  | lambda
  /-- A procedure made by `LAMBDA`; it has captured its body. -/
  | closure (parameters : List String)
  /-- Calls a procedure with its remaining operands. -/
  | call
  /-- Evaluates a body a number of times. -/
  | iterate
  /-- Evaluates a body a number of times with a counter bound. -/
  | loop
  /-- Evaluates a body for each line of a text. -/
  | eachLine
  /-- Moves the counter of the host. -/
  | tick
  /-- Puts values out. -/
  | emit
  /-- Fails. -/
  | failure
  /-- Fails, with a hint that has no place to go to. -/
  | failureWithHelp
  /-- Fails with a cause behind the failure. -/
  | wrap
  /-- Wraps the failure of its operand. -/
  | nest
  /-- Gives the failure of its operand a hint. -/
  | help
  /-- Evaluates another operand if the first one fails. -/
  | attempt
  /-- Binds an identifier to nothing, which fails. -/
  | emptyBinding
  /-- Checks a number against an arity pattern. -/
  | checkArity
  /-- Counts its operands, which have to be as many as the arity allows. -/
  | count (arity : Arity)
  /-- Answers its operand, which has to be of a type. -/
  | convert (type : ValueType)
  /-- Answers the name of the type of its operand. -/
  | typeName
  /-- Answers its operand as a text. -/
  | render
  /-- Selects a key. -/
  | get
deriving DecidableEq

namespace Builtin

/-- The identifiers of the procedures. -/
def table : List (String × Builtin) :=
  [("RETURN", itself), ("PLUS", plus), ("DEFINE", define), ("BLOCK", block), ("ARRAY", array),
    ("MAP", record .ordered), ("HASH", record .hashed), ("IF", choose), ("EQUAL", equal),
    ("OPTIONS", options), ("SET", set), ("LAYER", layer), ("DERIVE", derive),
    ("WITH_DERIVED", withDerived), ("STALE", stale), ("SCOPES", scopes), ("MAX_DEPTH", maxDepth),
    ("LOOKUP", lookup), ("LOCAL", lookupLocal), ("OUTER", lookupOuter), ("QUOTE", quote),
    ("FORCE", force), ("FORCE_WITH", forceWith), ("SAME_SCOPE", sameScope), ("INSPECT", inspect),
    ("CAPTURE", capture), ("LAMBDA", lambda), ("CALL", call), ("REPEAT", iterate), ("LOOP", loop),
    ("EACH_LINE", eachLine), ("TICK", tick), ("EMIT", emit), ("FAIL", failure),
    ("FAIL_HELP", failureWithHelp), ("WRAP", wrap), ("NEST", nest), ("HELP", help),
    ("TRY", attempt), ("EMPTY_BINDING", emptyBinding), ("CHECK_ARITY", checkArity),
    ("ZERO", count (.exactly 0)), ("TWO", count (.exactly 2)), ("ONE_OR_MORE", count .oneOrMore),
    ("OPTIONAL", count .zeroOrOne), ("ANY", count .any), ("TO_INT", convert .int),
    ("TO_UINT", convert .uint), ("TO_FLOAT", convert .float), ("TO_BOOL", convert .bool),
    ("TO_STRING", convert .string), ("TO_PROCEDURE", convert .procedure),
    ("TO_USERDATA", convert .userData), ("TYPE", typeName), ("SHOW", render), ("GET", get)]

/-- The procedure of a given identifier. -/
def ofName? (id : String) : Option Builtin := table.lookup id

end Builtin

end Fexpr
