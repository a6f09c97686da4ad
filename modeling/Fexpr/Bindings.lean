/-!
# Bindings

A finite map from identifiers, as a list of entries with different keys. Defining a bound identifier
again replaces its value. Environments, the options of a call and the fields of records are
bindings.
-/

namespace Fexpr

/-- A finite map from identifiers to `α`. -/
structure Bindings (α : Type) where
  /-- The entries, in the order in which their keys were first bound. -/
  entries : List (String × α)

namespace Bindings

variable {α : Type}

/-- Nothing is bound. -/
def empty : Bindings α := ⟨[]⟩

instance : EmptyCollection (Bindings α) := ⟨empty⟩

instance : Inhabited (Bindings α) := ⟨empty⟩

/-- The entry of `id` replaced, or added at the end. -/
def put (id : String) (a : α) : List (String × α) → List (String × α)
  | [] => [(id, a)]
  | (key, b) :: rest => if key = id then (id, a) :: rest else (key, b) :: put id a rest

/-- What `id` is bound to in a list of entries. -/
def get? (id : String) : List (String × α) → Option α
  | [] => none
  | (key, a) :: rest => if key = id then some a else get? id rest

/-- Binds `id` to `a`. -/
def insert (b : Bindings α) (id : String) (a : α) : Bindings α := ⟨put id a b.entries⟩

/-- What `id` is bound to. -/
def find? (b : Bindings α) (id : String) : Option α := get? id b.entries

/-- Whether `id` is bound. -/
def contains (b : Bindings α) (id : String) : Bool := (b.find? id).isSome

/-- Removes the binding of `id`. -/
def erase (b : Bindings α) (id : String) : Bindings α := ⟨b.entries.filter (·.1 ≠ id)⟩

/-- The number of bound identifiers. -/
def size (b : Bindings α) : Nat := b.entries.length

/-- Whether nothing is bound. -/
def isEmpty (b : Bindings α) : Bool := b.entries.isEmpty

/-- Binds the pairs in order; of pairs with the same key the last one counts. -/
def ofList (pairs : List (String × α)) : Bindings α :=
  pairs.foldl (fun b (id, a) => b.insert id a) empty

/-- The bound values. -/
def values (b : Bindings α) : List α := b.entries.map (·.2)

/-- The entries in the order of their keys. -/
def sorted (b : Bindings α) : List (String × α) :=
  b.entries.mergeSort fun x y => decide (x.1 ≤ y.1)

theorem get?_put (id key : String) (a : α) (entries : List (String × α)) :
    get? key (put id a entries) = if id = key then some a else get? key entries := by
  induction entries with
  | nil => simp [put, get?]
  | cons e es ih =>
    obtain ⟨k, b⟩ := e
    by_cases hk : k = id
    · subst hk
      by_cases hid : k = key <;> simp [put, get?, hid]
    · by_cases hid : id = key
      · subst hid
        simp [put, get?, hk, ih]
      · simp [put, get?, hk, ih, hid]

/-- A definition is seen under its own identifier and nowhere else. -/
@[simp] theorem find?_insert (b : Bindings α) (id key : String) (a : α) :
    (b.insert id a).find? key = if id = key then some a else b.find? key :=
  get?_put id key a b.entries

end Bindings

end Fexpr
