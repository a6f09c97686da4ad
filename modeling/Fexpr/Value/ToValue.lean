import Fexpr.Value.Basic

/-!
# Values from data of the host

Numbers of either width become the widest number of their kind, a unit and a missing value become
nil.
-/

namespace Fexpr

/-- Data that a host can hand to scripts as it is. -/
class ToValue (α : Type) where
  /-- The value of the data. -/
  toValue {κ : Type} : α → Value κ

export ToValue (toValue)

instance : ToValue Int32 := ⟨fun n => .int n.toInt64⟩

instance : ToValue Int64 := ⟨.int⟩

instance : ToValue UInt32 := ⟨fun n => .uint n.toUInt64⟩

instance : ToValue UInt64 := ⟨.uint⟩

instance : ToValue Float32 := ⟨fun x => .float x.toFloat⟩

instance : ToValue Float := ⟨.float⟩

instance : ToValue Bool := ⟨.bool⟩

instance : ToValue String := ⟨.string⟩

instance : ToValue Unit := ⟨fun _ => .nil⟩

instance {α : Type} [ToValue α] : ToValue (Option α) :=
  ⟨fun
    | some a => toValue a
    | none => .nil⟩

end Fexpr
