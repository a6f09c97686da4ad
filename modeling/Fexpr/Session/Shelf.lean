import Fexpr.Library.Recipe

/-!
# Named environments

A host builds environments step by step, under names. An environment that was not used before is
empty.
-/

namespace Fexpr

/-- Environments under names. -/
structure Shelf where
  /-- The environments. -/
  environments : Bindings (Environment Builtin)
  /-- The next identity for a procedure or user data. -/
  nextIdentity : Nat

namespace Shelf

/-- No environment was used yet. -/
def empty : Shelf := ⟨∅, 0⟩

/-- The environment of a name. -/
def environment (s : Shelf) (name : String) : Environment Builtin :=
  (s.environments.find? name).getD ∅

/-- A step on an environment. -/
inductive Step where
  /-- Makes it empty. -/
  | reset
  /-- Binds an identifier. -/
  | define (id : String) (r : Recipe)
  /-- Binds an identifier, if a value is given. -/
  | tryDefine (id : String) (r : Option Recipe)
  /-- Replaces it by the given bindings. -/
  | collect (pairs : List (String × Recipe))
  /-- Copies it under another name. -/
  | copyTo (name : String)
  /-- Looks an identifier up. -/
  | lookup (id : String)
  /-- Asks whether an identifier is bound. -/
  | contains (id : String)

/-- What a step answers. -/
inductive Answer where
  /-- Nothing. -/
  | nothing
  /-- An error. -/
  | error (e : Error)
  /-- What an identifier is bound to. -/
  | found (v : Option (Value Builtin))
  /-- Yes or no. -/
  | flag (b : Bool)

/-- The shelf with another environment under a name. -/
def store (s : Shelf) (name : String) (env : Environment Builtin) (next : Nat) : Shelf :=
  ⟨s.environments.insert name env, next⟩

/-- Takes a step on the environment of a name. -/
def step (s : Shelf) (name : String) : Step → Answer × Shelf
  | .reset => (.nothing, s.store name ∅ s.nextIdentity)
  | .define id r =>
    let env := s.environment name
    let (v, next) := r.make env s.nextIdentity
    (.nothing, s.store name (env.insert id v) next)
  | .tryDefine id none => (.error (.noValue id), s)
  | .tryDefine id (some r) =>
    let env := s.environment name
    let (v, next) := r.make env s.nextIdentity
    (.nothing, s.store name (env.insert id v) next)
  | .collect pairs =>
    let (env, next) := Recipe.makeBindings ∅ pairs s.nextIdentity
    (.nothing, s.store name env next)
  | .copyTo copy => (.nothing, s.store copy (s.environment name) s.nextIdentity)
  | .lookup id => (.found ((s.environment name).find? id), s)
  | .contains id => (.flag ((s.environment name).contains id), s)

end Shelf

end Fexpr
