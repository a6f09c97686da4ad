import Fexpr.Library.Control
import Fexpr.Library.Data
import Fexpr.Library.Failures
import Fexpr.Library.Scopes

/-!
# The library as a host

`Library.host` tells what each procedure of the library does, and `Library.environment` binds them
to their identifiers.
-/

namespace Fexpr.Library

open Fexpr.Action Fexpr.Behaviour

/-- Puts the values of operands out and answers `count`. -/
def emitAll (count : Nat) : List Operand → Action Builtin
  | [] => done (.int (Int64.ofNat count))
  | x :: xs => value x fun v => withData (emit v.render (emitAll count xs))

/-- What a procedure does that calls no other procedure directly. -/
def plain (captured : List Operand) : Builtin → Behaviour Builtin
  | .itself => unary fun x _ => tail x .own
  | .plus => variadic (addFrom 0 0)
  | .define => ternary defineIn
  | .block => variadic (inSequence .nil)
  | .array => variadic fun xs => values xs fun vs => userData (.list vs)
  | .record kind => variadic (makeRecord kind)
  | .choose => ternary chooseBy
  | .equal => binary fun x y => value x fun v => value y fun w => done (.bool (v.equals w))
  | .options => fun call => userData (.record .ordered call.options.entries)
  | .set => binary setActive
  | .layer => unary fun body env => tail body (.layered env)
  | .derive => unary inDerived
  | .withDerived => unary inReleased
  | .stale => unary inStale
  | .scopes => nullary (scopeCount fun n => done (.uint (UInt64.ofNat n)))
  | .maxDepth => nullary (Action.maxDepth fun n => done (.uint (UInt64.ofNat n)))
  | .lookup => unary fun x _ => text x fun id => Action.lookup id found
  | .lookupLocal => unary fun x _ => text x fun id => Action.lookupLocal id found
  | .lookupOuter => unary fun x _ => text x fun id => Action.lookupOuter id foundOutside
  | .quote => unary fun x _ => userData (.operand x)
  | .force => unary fun x _ => quoted x fun y => tail y .own
  | .forceWith => unary fun x env => quoted x fun y => tail y (.layered env)
  | .sameScope =>
    binary fun x y => quoted x fun p => quoted y fun q => done (.bool (p.scope == q.scope))
  | .inspect => variadic fun xs => done (.string ("|".intercalate (xs.map describe)))
  | .capture =>
    binary fun name x => text name fun n => withData (Action.capture n x (done .nil))
  | .lambda => variadic makeClosure
  | .closure parameters => callClosure parameters captured
  | .call => Arity.oneOrMore.guard fun _ => done .nil
  | .iterate =>
    binary fun n body => value n fun v => require v.toInt fun k =>
      iterateTimes body k.toInt.toNat .nil
  | .loop =>
    binary fun n body => value n fun v => require v.toInt fun k =>
      countingFrom body k.toInt.toNat 0 fun vs => userData (.list vs)
  | .eachLine =>
    binary fun s body => text s fun lines =>
      inEach body ((splitAt '\n' lines).map lineBindings) fun vs => userData (.list vs)
  | .tick => nullary (withData (Action.tick fun n => done (.uint (UInt64.ofNat n))))
  | .emit => variadic fun xs => emitAll xs.length xs
  | .failure => unary fun m _ => text m failWith
  | .failureWithHelp =>
    binary fun m h => text m fun m => text h fun h => fail ((Error.custom m).withHelp h)
  | .wrap => unary fun m _ => text m fun m => fail (.raised m [m])
  | .nest => unary fun x _ => mapFailure Error.wrap x
  | .help => binary fun h x => text h fun h => mapFailure (Error.withHelp h) x
  | .attempt => binary attemptOr
  | .emptyBinding => unary fun x _ => text x fun id => fail (.noValue id)
  | .checkArity => binary checkPattern
  | .count arity =>
    arity.guard fun call => done (.uint (UInt64.ofNat call.operands.length))
  | .convert type => unary fun x _ => value x fun v => require (v.ofType type) done
  | .typeName => unary fun x _ => value x fun v => done (.string v.type.name)
  | .render => unary fun x _ => value x fun v => done (.string v.render)
  | .get => binary getKey

/-- What a procedure does with the given operands and options. A procedure that calls another one
directly hands over fewer operands than it was given. -/
def invoke (options : Environment Builtin) : List Operand → Procedure Builtin → Action Builtin
  | [], p => plain p.captured p.code ⟨[], options⟩
  | x :: xs, p =>
    match p.code with
    | .call => value x fun v => require v.toProcedure fun q => invoke options xs q
    | code => plain p.captured code ⟨x :: xs, options⟩

/-- What the procedures of the library do. -/
def host : Host Builtin := fun p call => invoke call.options call.operands p

/-- The procedures of the library under their identifiers, with identities from `first` on. -/
def environment (first : Nat) : Environment Builtin :=
  Bindings.ofList
    ((Builtin.table.zipIdx first).map fun ((id, code), i) => (id, .procedure ⟨i, code, []⟩))

end Fexpr.Library
