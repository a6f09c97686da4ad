import Fexpr.Behaviour
import Fexpr.Library.Builtin

/-!
# Procedures on failures

Raising errors, catching them, and checking arities.
-/

namespace Fexpr.Library

open Fexpr.Action Fexpr.Behaviour

variable {κ : Type}

/-- Evaluates `x`; a failure goes through `f`. -/
def mapFailure (f : Error → Error) (x : Operand) : Action κ :=
  force x .own fun r => ofReply (r.mapError f)

/-- Evaluates `x`, and if that fails `y`, with the failure bound. -/
def attemptOr (x y : Operand) : Action κ :=
  force x .own fun r =>
    match r with
    | .ok v => done v
    | .error e =>
      tail y (.layered (Bindings.ofList
        [("kind", .string e.kind.name), ("message", .string e.render),
          ("cause", .string e.message)]))

/-- Checks a number against an arity pattern and answers the arity. The number is evaluated after
the pattern was read. -/
def checkPattern (pattern n : Operand) : Action κ :=
  text pattern fun p =>
    require (Arity.ofPattern p) fun a =>
      value n fun v =>
        require v.toUInt fun k =>
          match a.check k.toNat with
          | some mismatch => fail (.arity mismatch)
          | none => done (.string a.pattern)

end Fexpr.Library
