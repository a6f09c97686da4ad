import Fexpr.Error
import Fexpr.Form.OfTree
import Fexpr.Grammar.Script

/-!
# Programs

A program is a compiled script: its source, its tree, and the form that the tree stands for.
Compiling fails for a text that is no script, and reports the furthest match.
-/

namespace Fexpr

/-- A compiled script. -/
structure Program where
  /-- The text it was made from. -/
  source : Source
  /-- The trees of its log. -/
  forest : Forest
  /-- What is evaluated. -/
  body : Except Form.Fault Form

namespace Program

/-- The tree of the whole script. -/
def tree? (p : Program) : Option Tree := p.forest.root?

/-- Compiles a source. -/
def compile (source : Source) : Except Error Program :=
  let cs := source.chars
  match Grammar.matchScript cs with
  | .error t => .error (.rejected t.rule ⟨source, t.span, none⟩)
  | .ok tokens =>
    let forest := Forest.ofTokens tokens
    let body :=
      match forest.root? with
      | none => .error .noRoot
      | some t => Form.ofTree cs t
    .ok ⟨source, forest, body⟩

theorem compile_eq_ok_of_toOption {source : Source} {p : Program}
    (h : (compile source).toOption = some p) : compile source = .ok p := by
  cases hcompile : compile source with
  | error e =>
    rw [hcompile] at h
    cases h
  | ok p' =>
    rw [hcompile] at h
    cases h
    rfl

end Program

end Fexpr
