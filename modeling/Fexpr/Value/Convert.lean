import Fexpr.Error

/-!
# Values of an expected type
-/

namespace Fexpr.Value

variable {κ : Type}

/-- The failure of a value to be of the type `expected`. -/
def mismatch (expected : ValueType) (v : Value κ) : Error :=
  .custom s!"expecting {expected.name} value, but got {v.type.name}"

/-- The value itself, if it is of the type `expected`. -/
def ofType? (expected : ValueType) (v : Value κ) : Option (Value κ) :=
  if v.type = expected then some v else none

/-- The value itself, which has to be of the type `expected`. -/
def ofType (expected : ValueType) (v : Value κ) : Except Error (Value κ) :=
  match v.ofType? expected with
  | some v => .ok v
  | none => .error (v.mismatch expected)

/-- The integer that a value has to be. -/
def toInt : Value κ → Except Error Int64
  | int n => .ok n
  | v => .error (v.mismatch .int)

/-- The unsigned integer that a value has to be. -/
def toUInt : Value κ → Except Error UInt64
  | uint n => .ok n
  | v => .error (v.mismatch .uint)

/-- The string that a value has to be. -/
def toText : Value κ → Except Error String
  | string s => .ok s
  | v => .error (v.mismatch .string)

/-- The procedure that a value has to be. -/
def toProcedure : Value κ → Except Error (Procedure κ)
  | procedure p => .ok p
  | v => .error (v.mismatch .procedure)

/-- The types in the order in which conversions are listed. -/
def convertible : List ValueType :=
  [.int, .uint, .float, .bool, .string, .procedure, .userData]

end Fexpr.Value
