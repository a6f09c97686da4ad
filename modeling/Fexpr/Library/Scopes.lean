import Fexpr.Behaviour
import Fexpr.Library.Builtin

/-!
# Procedures on scopes and operands

Opening scopes, looking into them, and handling operands without evaluating them.
-/

namespace Fexpr.Library

open Fexpr.Action Fexpr.Behaviour

variable {κ : Type}

/-- Evaluates an operand, which has to answer a quoted operand. -/
def quoted (x : Operand) (next : Operand → Action κ) : Action κ :=
  value x fun v =>
    match v with
    | .userData _ (.operand y) => next y
    | v => failWith s!"expecting a quoted operand, but got {v.type.name}"

/-- Binds an identifier in the active scope and answers the value. -/
def setActive (id x : Operand) : Action κ :=
  text id fun name => value x fun v => define name v (done v)

/-- Evaluates `body` in a new scope, which stays. -/
def inDerived (body : Operand) (env : Environment κ) : Action κ :=
  derive env fun s => tail body (.scope s)

/-- Evaluates `body` in a new scope, which is released. -/
def inReleased (body : Operand) (env : Environment κ) : Action κ :=
  withDerived env (fun s => tail body (.scope s)) fun _ r => ofReply r

/-- Evaluates `body` in a scope that was released before. -/
def inStale (body : Operand) (env : Environment κ) : Action κ :=
  withDerived env (fun _ => done .nil) fun s _ => tail body (.scope s)

/-- Answers what an identifier is bound to, which may be nothing. -/
def found (v : Option (Value κ)) : Action κ := done (v.getD .nil)

/-- Looks an identifier up in the scope around the active one. -/
def foundOutside : Option (Option (Value κ)) → Action κ
  | none => failWith "no outer scope"
  | some v => found v

end Fexpr.Library
