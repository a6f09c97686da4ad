import Fexpr.Library.Host

/-!
# Recipes for values

A host hands values to scripts by recipes. Making a value from a recipe gives every procedure and
every piece of user data in it a new identity, while a recipe can also refer to a value that is
bound already.
-/

namespace Fexpr

/-- How to make a value. -/
inductive Recipe where
  /-- A value without identity, as it is. -/
  | scalar (v : Value Builtin)
  /-- A list. -/
  | list (items : List Recipe)
  /-- A record. -/
  | record (kind : RecordKind) (fields : List (String × Recipe))
  /-- A byte that scripts cannot look into. -/
  | byte (b : UInt8)
  /-- A procedure of the library. -/
  | builtin (name : String)
  /-- The very value that an identifier is bound to. -/
  | bound (id : String)

namespace Recipe

variable (env : Environment Builtin)

mutual

/-- Makes a value, with identities from `next` on. Answers the value and the next identity. -/
def make : Recipe → (next : Nat) → Value Builtin × Nat
  | scalar v, next => (v, next)
  | list items, next =>
    let (vs, next) := makeList items next
    (.userData next (.list vs), next + 1)
  | record kind fields, next =>
    let (pairs, next) := makeFields fields next
    (.userData next (.record kind (Bindings.ofList pairs).entries), next + 1)
  | byte b, next => (.userData next (.byte b), next + 1)
  | builtin name, next =>
    match Builtin.ofName? name with
    | some code => (.procedure ⟨next, code, []⟩, next + 1)
    | none => (.nil, next)
  | bound id, next => ((env.find? id).getD .nil, next)

/-- Makes values in a row. -/
def makeList : List Recipe → (next : Nat) → List (Value Builtin) × Nat
  | [], next => ([], next)
  | r :: rs, next =>
    let (v, next) := make r next
    let (vs, next) := makeList rs next
    (v :: vs, next)

/-- Makes values by key. -/
def makeFields : List (String × Recipe) → (next : Nat) → List (String × Value Builtin) × Nat
  | [], next => ([], next)
  | (key, r) :: fields, next =>
    let (v, next) := make r next
    let (pairs, next) := makeFields fields next
    ((key, v) :: pairs, next)

end

/-- Makes bindings in order, on top of `env`. A recipe can refer to those made before it. -/
def makeBindings :
    Environment Builtin → List (String × Recipe) → (next : Nat) → Environment Builtin × Nat
  | env, [], next => (env, next)
  | env, (id, r) :: rest, next =>
    let (v, next) := r.make env next
    makeBindings (env.insert id v) rest next

end Recipe

end Fexpr
