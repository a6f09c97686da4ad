import Fexpr.Action
import Fexpr.Value.Convert

/-!
# Building behaviours

Most procedures evaluate some of their operands in order, go on with the values, and pass every
error on. The functions of this module build such actions.
-/

namespace Fexpr

variable {κ : Type}

namespace Action

/-- Ends with a reply. -/
def ofReply : Reply κ → Action κ
  | .ok v => done v
  | .error e => fail e

/-- Goes on with a result, or fails with its error. -/
def require {α : Type} (result : Except Error α) (next : α → Action κ) : Action κ :=
  match result with
  | .ok a => next a
  | .error e => fail e

/-- Evaluates an operand and goes on with its value. -/
def value (x : Operand) (next : Value κ → Action κ) : Action κ :=
  force x .own fun r => require r next

/-- Evaluates an operand, which has to be a string. -/
def text (x : Operand) (next : String → Action κ) : Action κ :=
  value x fun v => require v.toText next

/-- Evaluates operands in order. -/
def values : List Operand → (List (Value κ) → Action κ) → Action κ
  | [], next => next []
  | x :: xs, next => value x fun v => values xs fun vs => next (v :: vs)

/-- Evaluates operands in order, which have to be strings. -/
def texts : List Operand → (List String → Action κ) → Action κ
  | [], next => next []
  | x :: xs, next => text x fun s => texts xs fun ss => next (s :: ss)

/-- Evaluates an operand at a place and ends with the reply. -/
def tail (x : Operand) (place : Place κ) : Action κ := force x place ofReply

/-- Answers new user data. -/
def userData (content : UserData κ) : Action κ := fresh fun i => done (.userData i content)

/-- Fails with a message. -/
def failWith (message : String) : Action κ := fail (.custom message)

/-- Goes on if the data of the host can be reached. -/
def withData (next : Action κ) : Action κ :=
  hasData fun present => if present then next else failWith "no user data"

end Action

namespace Behaviour

/-- The failure of a call that was to have `n` operands. -/
def wrongCount (n : Nat) (call : Call κ) : Action κ :=
  .fail (.arity ⟨.exactly n, call.operands.length⟩)

/-- A procedure without operands. -/
def nullary (body : Action κ) : Behaviour κ := fun call =>
  match call.operands with
  | [] => body
  | _ => wrongCount 0 call

/-- A procedure of one operand. -/
def unary (body : Operand → Environment κ → Action κ) : Behaviour κ := fun call =>
  match call.operands with
  | [x] => body x call.options
  | _ => wrongCount 1 call

/-- A procedure of two operands. -/
def binary (body : Operand → Operand → Action κ) : Behaviour κ := fun call =>
  match call.operands with
  | [x, y] => body x y
  | _ => wrongCount 2 call

/-- A procedure of three operands. -/
def ternary (body : Operand → Operand → Operand → Action κ) : Behaviour κ := fun call =>
  match call.operands with
  | [x, y, z] => body x y z
  | _ => wrongCount 3 call

/-- A procedure of any number of operands. -/
def variadic (body : List Operand → Action κ) : Behaviour κ := fun call => body call.operands

end Behaviour

end Fexpr
