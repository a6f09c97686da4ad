import Fexpr.Decimal.Render
import Fexpr.Text.Quoted
import Fexpr.Value.Basic

/-!
# Values as texts
-/

namespace Fexpr

variable {κ : Type}

/-- A value as a text. Strings are shown as they are. -/
def Value.render : Value κ → String
  | nil => "nil"
  | int n => toString n.toInt
  | uint n => toString n.toNat
  | float x => Decimal.render x
  | bool true => "true"
  | bool false => "false"
  | string s => s
  | procedure _ => "<procedure>"
  | userData _ content => "<userdata " ++ content.typeName ++ ">"

/-- User data with its type and whether it has keys. -/
def UserData.describe (d : UserData κ) : String :=
  "UserData \x7b type: \"" ++ d.typeName ++ "\", selectable: " ++
    (if d.isSelectable then "true" else "false") ++ " \x7d"

/-- An operand with its shape, its text and its scope. -/
def Operand.describe (x : Operand) : String :=
  s!"Expr \x7b kind: {x.shape.name}, text: {Text.quote x.text.toList}, " ++
    s!"scope: {x.scope.render} \x7d"

end Fexpr
