import Fexpr.Bindings
import Fexpr.Operand

/-!
# Values

Scripts compute with scalars, procedures and user data. A procedure is data of the host: a code of
type `κ`, which the host knows how to run, and the operands it has captured. User data and
procedures have an identity, by which they are compared. User data may be an object of a type of the
host's own, which holds values and answers to keys in its own way.
-/

namespace Fexpr

/-- A procedure of a host whose procedures are named by `κ`. -/
structure Procedure (κ : Type) where
  /-- What tells it from other procedures. -/
  identity : Nat
  /-- What the host runs. -/
  code : κ
  /-- The operands that it keeps. -/
  captured : List Operand

/-- The two kinds of records. They answer to keys alike. -/
inductive RecordKind where
  /-- Fields in the order of their keys. -/
  | ordered
  /-- Fields in no particular order. -/
  | hashed
deriving DecidableEq

/-- A value that holds nothing else. -/
inductive Scalar where
  | nil
  | int (n : Int64)
  | uint (n : UInt64)
  | float (x : Float)
  | bool (b : Bool)
  | string (s : String)

/-- What an object answers to a key: one of the values that it holds, by its place, or a scalar that
is made for the answer. -/
inductive Selection where
  | part (place : Nat)
  | scalar (s : Scalar)

mutual

/-- A value. -/
inductive Value (κ : Type) where
  | nil
  | int (n : Int64)
  | uint (n : UInt64)
  | float (x : Float)
  | bool (b : Bool)
  | string (s : String)
  | procedure (p : Procedure κ)
  /-- User data: its identity and what it holds. -/
  | userData (identity : Nat) (content : UserData κ)

/-- What user data holds. -/
inductive UserData (κ : Type) where
  /-- Values in a row. -/
  | list (items : List (Value κ))
  /-- Values by key. -/
  | record (kind : RecordKind) (fields : List (String × Value κ))
  /-- An unevaluated operand. -/
  | operand (x : Operand)
  /-- A byte that scripts cannot look into. -/
  | byte (b : UInt8)
  /-- An object of a type of the host's own: the name of the type, the values that the object holds,
  and what it answers to keys, if the type has any. -/
  | object (typeName : String) (parts : List (Value κ))
    (selector : Option (String → Option Selection))

end

/-- Bindings of values. -/
abbrev Environment (κ : Type) := Bindings (Value κ)

/-- The types of values. -/
inductive ValueType where
  | int
  | uint
  | float
  | bool
  | string
  | nil
  | procedure
  | userData
deriving DecidableEq

/-- The name of a type. -/
def ValueType.name : ValueType → String
  | int => "int"
  | uint => "uint"
  | float => "float"
  | bool => "bool"
  | string => "string"
  | nil => "nil"
  | procedure => "procedure"
  | userData => "userdata"

variable {κ : Type}

namespace UserData

/-- Whether keys can be selected. -/
def isSelectable : UserData κ → Bool
  | record _ _ => true
  | object _ _ selector => selector.isSome
  | _ => false

/-- The name of the type of what is held. -/
def typeName : UserData κ → String
  | list _ => "alloc::vec::Vec<gendsl::runtime::value::Value>"
  | record .ordered _ =>
    "alloc::collections::btree::map::BTreeMap<alloc::string::String, gendsl::runtime::value::Value>"
  | record .hashed _ =>
    "std::collections::hash::map::HashMap<alloc::string::String, gendsl::runtime::value::Value>"
  | operand _ => "gendsl::runtime::expr::Expr"
  | byte _ => "u8"
  | object name _ _ => name

end UserData

/-- The scalar as a value. -/
def Scalar.value : Scalar → Value κ
  | nil => .nil
  | int n => .int n
  | uint n => .uint n
  | float x => .float x
  | bool b => .bool b
  | string s => .string s

/-- The value that an object with the given parts answers. -/
def Selection.value? (parts : List (Value κ)) : Selection → Option (Value κ)
  | part place => parts[place]?
  | scalar s => some s.value

namespace Value

/-- The type of a value. -/
def type : Value κ → ValueType
  | nil => .nil
  | int _ => .int
  | uint _ => .uint
  | float _ => .float
  | bool _ => .bool
  | string _ => .string
  | procedure _ => .procedure
  | userData _ _ => .userData

/-- Whether a value is nil. -/
def isNil : Value κ → Bool
  | nil => true
  | _ => false

/-- Whether two values are equal: scalars by value, all others by identity. A float that is not a
number differs from itself. -/
def equals : Value κ → Value κ → Bool
  | nil, nil => true
  | int m, int n => m == n
  | uint m, uint n => m == n
  | float x, float y => x == y
  | bool a, bool b => a == b
  | string s, string t => s == t
  | procedure p, procedure q => p.identity == q.identity
  | userData i _, userData j _ => i == j
  | _, _ => false

/-- Why a key cannot be selected. -/
inductive SelectError where
  /-- The value has no keys. -/
  | notIndexable
  /-- The value does not have this key. -/
  | notFound
deriving DecidableEq

/-- The value under a key. -/
def select (key : String) : Value κ → Except SelectError (Value κ)
  | userData _ (.record _ fields) =>
    match Bindings.get? key fields with
    | some v => .ok v
    | none => .error .notFound
  | userData _ (.object _ parts (some selector)) =>
    match (selector key).bind (Selection.value? parts) with
    | some v => .ok v
    | none => .error .notFound
  | _ => .error .notIndexable

mutual

/-- The operands that a value keeps. -/
def operands : Value κ → List Operand
  | nil => []
  | int _ => []
  | uint _ => []
  | float _ => []
  | bool _ => []
  | string _ => []
  | procedure p => p.captured
  | userData _ content => UserData.operands content

/-- The operands that user data keeps. -/
def UserData.operands : UserData κ → List Operand
  | .list items => operandsOfList items
  | .record _ fields => operandsOfFields fields
  | .operand x => [x]
  | .byte _ => []
  | .object _ parts _ => operandsOfList parts

/-- The operands that values in a row keep. -/
def operandsOfList : List (Value κ) → List Operand
  | [] => []
  | v :: vs => operands v ++ operandsOfList vs

/-- The operands that values by key keep. -/
def operandsOfFields : List (String × Value κ) → List Operand
  | [] => []
  | (_, v) :: fields => operands v ++ operandsOfFields fields

end

end Value

/-- The operands that the values of an environment keep. -/
def Environment.operands (env : Environment κ) : List Operand := Value.operandsOfFields env.entries

end Fexpr
