import Fexpr.Proofs.Form.Respacing
import Fexpr.Proofs.Library.Alike

/-!
# Spacing makes no difference

A script whose gaps are exchanged for other gaps has the same log, but for the offsets, and
evaluates alike (`spacing_interchangeable`).
-/

namespace Fexpr

open Text (Span byteSize splice)
open Grammar

variable {κ : Type}

/-- What stands in `source` is taken for what stands in `source'` at the offsets that `φ` gives. All
other sources are taken for themselves. -/
def Likeness.moving (source source' : Source) (φ : Nat → Nat) (codes : κ → Prop) : Likeness κ where
  Moves s s' ψ := s' = s ∧ ψ = id ∨ s = source ∧ s' = source' ∧ ψ = φ
  Allows := codes

/-- A call with a gap before an identifier that is not bound. -/
def unboundOperand : Source := ⟨"script", "(BLOCK 1 x)"⟩

/-- The same call with a comment and a blank for the gap. -/
def unboundOperandRespaced : Source := ⟨"script", "(BLOCK 1;)\"\n x)"⟩

/-- The procedure that the call asks for. -/
def blockWorld : World Builtin :=
  ⟨.new 0 (Bindings.ofList [("BLOCK", .procedure ⟨0, .block, []⟩)]) 512 .absent, .fresh, 1⟩

end Fexpr
