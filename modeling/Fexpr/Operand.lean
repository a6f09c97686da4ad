import Fexpr.Form.Basic
import Fexpr.Source

/-!
# Operands

A procedure receives its operands unevaluated. An operand is a form together with the source it was
read from and the scope that was active where it was written. It can be evaluated any number of
times, by the context that made it.
-/

namespace Fexpr

open Text (Span)

/-- Names a scope: its place in the arena and its serial number. The serial number tells apart the
scopes that took the same place one after the other. -/
structure ScopeId where
  /-- The place in the arena. -/
  index : Nat
  /-- The running number of the scope. -/
  serial : Nat
deriving DecidableEq

namespace ScopeId

/-- The outermost scope. -/
def root : ScopeId := ⟨0, 0⟩

/-- A scope id as it is written in messages. -/
def render (s : ScopeId) : String := s!"ScopeId \x7b index: {s.index}, serial: {s.serial} \x7d"

end ScopeId

/-- An unevaluated operand. -/
structure Operand where
  /-- The script it stands in. -/
  source : Source
  /-- What is to be evaluated. -/
  form : Form
  /-- The scope it was written in. -/
  scope : ScopeId
  /-- The number of the context that made it. -/
  owner : Nat

namespace Operand

/-- Where the operand stands. -/
def span (x : Operand) : Span := x.form.span

/-- The text of the operand. -/
def text (x : Operand) : String := x.source.slice x.span

/-- The shape of the operand. -/
def shape (x : Operand) : Form.Shape := x.form.shape

end Operand

end Fexpr
