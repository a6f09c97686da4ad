import Fexpr.Behaviour
import Fexpr.Library.Builtin
import Fexpr.Text.Pieces

/-!
# Procedures that control evaluation

Sequences, choices, loops, definitions and closures.
-/

namespace Fexpr.Library

open Fexpr.Action Fexpr.Behaviour

variable {κ : Type}

/-- Evaluates operands in order and answers the last value, or `last` if there is none. -/
def inSequence : (last : Value κ) → List Operand → Action κ
  | last, [] => done last
  | _, x :: xs => value x fun v => inSequence v xs

/-- Evaluates `a` or `b`, as the value of `c` tells. -/
def chooseBy (c a b : Operand) : Action κ :=
  value c fun v =>
    match v with
    | .bool true => tail a .own
    | .bool false => tail b .own
    | v => failWith s!"condition must be bool, but got {v.type.name}"

/-- Evaluates `body` with an identifier bound. -/
def defineIn (id x body : Operand) : Action κ :=
  value id fun v =>
    match v with
    | .string name => value x fun v => tail body (.layered (Bindings.ofList [(name, v)]))
    | v => failWith s!"expecting a string as id, but got {v.type.name}"

/-- Evaluates an operand `n` times and answers the last value, or `last` if there is none. -/
def iterateTimes (body : Operand) : (n : Nat) → (last : Value κ) → Action κ
  | 0, last => done last
  | n + 1, _ => value body fun v => iterateTimes body n v

/-- Evaluates an operand in each of the environments and goes on with the values. -/
def inEach (body : Operand) : List (Environment κ) → (List (Value κ) → Action κ) → Action κ
  | [], next => next []
  | env :: envs, next =>
    force body (.layered env) fun r =>
      require r fun v => inEach body envs fun vs => next (v :: vs)

/-- Evaluates an operand `n` times, with the counter bound to `i` and what follows, and goes on
with the values. -/
def countingFrom (body : Operand) :
    (n i : Nat) → (List (Value κ) → Action κ) → Action κ
  | 0, _, next => next []
  | n + 1, i, next =>
    force body (.layered (Bindings.ofList [("i", .int (Int64.ofNat i))])) fun r =>
      require r fun v => countingFrom body n (i + 1) fun vs => next (v :: vs)

/-- The pieces of a string between the characters `c`. -/
def splitAt (c : Char) (s : String) : List String :=
  (Text.pieces c s.toList).map String.ofList

/-- The bindings of a line: the whole line, and its words under their numbers. -/
def lineBindings (line : String) : Environment κ :=
  let words := (splitAt ' ' line).zipIdx 1
  Bindings.ofList
    (("$0", .string line) :: words.map fun (word, i) => (s!"${i}", .string word))

/-- Makes a closure: all operands but the last are its parameters, the last is its body. -/
def makeClosure (xs : List Operand) : Action Builtin :=
  match xs.getLast? with
  | none => failWith "no body"
  | some body =>
    texts xs.dropLast fun parameters =>
      fresh fun i => done (.procedure ⟨i, .closure parameters, [body]⟩)

/-- Calls a closure: its body is evaluated with the parameters bound to the values of the
operands. Of parameters with the same name the last one counts. -/
def callClosure (parameters : List String) (captured : List Operand) : Behaviour Builtin :=
  (Arity.exactly parameters.length).guard fun call =>
    match captured with
    | body :: _ =>
      values call.operands fun vs => tail body (.layered (Bindings.ofList (parameters.zip vs)))
    | [] => done .nil

end Fexpr.Library
