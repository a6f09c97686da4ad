import Fexpr.Action
import Fexpr.Proofs.Value.Operands
import Mathlib.Data.Set.Insert

/-!
# The handles that a procedure uses

A procedure gets hold of an operand only if it was called with it, keeps it, or is answered it:
there is no way to make one up. `Action.UsesOnly` says so for an action, and `Host.UsesOnly` for the
procedures of a host. It also tells for which scopes they ask by id.
-/

namespace Fexpr

variable {κ : Type}

/-- The operands that a reply brings. -/
def Reply.operands : Reply κ → List Operand
  | .ok v => v.operands
  | .error _ => []

/-- The operands that an answer of the arena brings. -/
def Value.operandsOfFound (v : Option (Value κ)) : List Operand := v.elim [] Value.operands

/-- To evaluate at the place takes only the operands `xs` and scopes of `S`. -/
def Place.UsesOnly (xs : List Operand) (S : Set ScopeId) : Place κ → Prop
  | own => True
  | layered env => env.KeepsOnly (· ∈ xs)
  | scope s => s ∈ S

/-- The action uses only the operands `xs` and those that it is answered on the way. It asks by id
only for scopes of `S`, for the active scope, and for scopes that it has opened and not yet
released. -/
def Action.UsesOnly : List Operand → Set ScopeId → Action κ → Prop
  | xs, _, done v => v.KeepsOnly (· ∈ xs)
  | _, _, fail _ => True
  | xs, S, force x place next =>
    x ∈ xs ∧ place.UsesOnly xs S ∧ ∀ r, UsesOnly (Reply.operands r ++ xs) S (next r)
  | xs, S, lookup _ next => ∀ v, UsesOnly (Value.operandsOfFound v ++ xs) S (next v)
  | xs, S, lookupFrom s _ next =>
    s ∈ S ∧ ∀ v, UsesOnly (Value.operandsOfFound v ++ xs) S (next v)
  | xs, S, lookupLocal _ next => ∀ v, UsesOnly (Value.operandsOfFound v ++ xs) S (next v)
  | xs, S, lookupOuter _ next => ∀ v, UsesOnly (Value.operandsOfFound v.join ++ xs) S (next v)
  | xs, S, define _ v next => v.KeepsOnly (· ∈ xs) ∧ UsesOnly xs S next
  | xs, S, derive env next => env.KeepsOnly (· ∈ xs) ∧ ∀ s, UsesOnly xs (insert s S) (next s)
  | xs, S, withDerived env body next =>
    env.KeepsOnly (· ∈ xs) ∧ (∀ s, UsesOnly xs (insert s S) (body s)) ∧
      ∀ s r, UsesOnly (Reply.operands r ++ xs) S (next s r)
  | xs, S, activeScope next => ∀ s, UsesOnly xs (insert s S) (next s)
  | xs, S, scopeCount next => ∀ n, UsesOnly xs S (next n)
  | xs, S, maxDepth next => ∀ n, UsesOnly xs S (next n)
  | xs, S, hasData next => ∀ b, UsesOnly xs S (next b)
  | xs, S, tick next => ∀ n, UsesOnly xs S (next n)
  | xs, S, emit _ next => UsesOnly xs S next
  | xs, S, capture _ x next => x ∈ xs ∧ UsesOnly xs S next
  | xs, S, fresh next => ∀ i, UsesOnly xs S (next i)

/-- The operands at hand when a procedure is called. -/
def Call.handles (call : Call κ) (p : Procedure κ) : List Operand :=
  p.captured ++ call.operands ++ Environment.operands call.options

/-- The procedures make no operands up. Besides the scopes of the operands that they are called
with, and the scopes that they know to be live, they ask by id only for scopes of `S`. -/
def Host.UsesOnly (S : Set ScopeId) (host : Host κ) : Prop :=
  ∀ p call, (host p call).UsesOnly (call.handles p) {s | s ∈ S ∨ ∃ x ∈ call.operands, x.scope = s}

end Fexpr
