import Fexpr.Behaviour
import Fexpr.Library.Builtin
import Fexpr.Value.Render

/-!
# Procedures on data

Arithmetic, lists and records, comparison, conversion and selection.
-/

namespace Fexpr.Library

open Fexpr.Action Fexpr.Behaviour

variable {κ : Type}

/-- Adds the values of the operands from place `i` on to `sum`. An operand is checked before the
next one is evaluated. -/
def addFrom : (i : Nat) → (sum : Int64) → List Operand → Action κ
  | _, sum, [] => done (.int sum)
  | i, sum, x :: xs =>
    value x fun v =>
      match v with
      | .int n =>
        match Literal.signed? (sum.toInt + n.toInt) with
        | some total => addFrom (i + 1) total xs
        | none => failWith "integer overflow"
      | v => failWith s!"invalid type for #{i} arg: {v.type.name}"

/-- Evaluates keys, which have to be strings, and values in turn. -/
def fields : List Operand → (List (String × Value κ) → Action κ) → Action κ
  | key :: x :: rest, next =>
    text key fun k => value x fun v => fields rest fun pairs => next ((k, v) :: pairs)
  | _, next => next []

/-- Makes a record of keys and values. -/
def makeRecord (kind : RecordKind) (xs : List Operand) : Action κ :=
  if xs.length % 2 = 0 then
    fields xs fun pairs => userData (.record kind (Bindings.ofList pairs).entries)
  else failWith s!"expecting pairs, but got {xs.length} operands"

/-- Selects a key. The key is evaluated first. -/
def getKey (x key : Operand) : Action κ :=
  text key fun k =>
    value x fun v =>
      match v.select k with
      | .ok w => done w
      | .error .notIndexable => failWith "not indexable"
      | .error .notFound => failWith "not found"

/-- Describes an operand: its shape, its text, and where it stands. -/
def describe (x : Operand) : String :=
  s!"{x.shape.name}:{x.text}:{x.span.start}:{x.span.stop}"

end Fexpr.Library
