import Fexpr.Action
import Fexpr.Literal.Float
import Fexpr.Literal.Text
import Fexpr.Program

/-!
# Evaluation

An atom is evaluated by decoding or looking up. A call is evaluated by looking its operator up,
evaluating its options, and running the procedure on its operands, which are not evaluated before
the procedure asks.

Calls in progress are counted, and a call beyond the context's limit fails. That limit also bounds
the evaluator's own recursion.
-/

namespace Fexpr

variable {κ : Type}

/-- Why an atom has no value. -/
inductive Stop where
  /-- With an error for the script. -/
  | error (e : Error)
  /-- The evaluation has to be given up. -/
  | abort (a : Abort)

namespace Form

/-- Decodes a literal. -/
def Literal.value (source : Source) (l : Literal) : Reply κ :=
  let failed (p : Problem) : Error := .failed p ⟨source, l.span, none⟩
  match l.kind with
  | .nil => .ok .nil
  | .bool => .ok (.bool (l.text == ['#', 't']))
  | .integer =>
    match Fexpr.Literal.parseInteger l.text with
    | .ok (.signed n) => .ok (.int n)
    | .ok (.unsigned n) => .ok (.uint n)
    | .error e => .error (failed (.badInteger l.text e))
  | .float =>
    match Fexpr.Literal.parseFloat l.text with
    | .ok x => .ok (.float x)
    | .error e => .error (failed (.badFloat l.text e))
  | .string =>
    match Fexpr.Literal.parseString l.text with
    | .ok s => .ok (.string s)
    | .error e => .error (failed (.badString e))
  | .longString => .ok (.string (String.ofList (Fexpr.Literal.longStringBody l.text)))

/-- Looks a name up from the active scope outwards. -/
def Name.value (source : Source) (arena : Arena κ) (n : Name) : Except Stop (Value κ) :=
  match arena.lookup n.text with
  | .error s => .error (.abort (.notLive s))
  | .ok none => .error (.error (.unbound n.text ⟨source, n.span, none⟩))
  | .ok (some v) => .ok v

/-- Follows the steps of a path. -/
def follow (source : Source) : List Attribute → Value κ → Reply κ
  | [], v => .ok v
  | a :: as, v =>
    match v.select a.key with
    | .ok w => follow source as w
    | .error .notIndexable =>
      .error (.failed (.notIndexable a.key v.type) ⟨source, a.span, none⟩)
    | .error .notFound => .error (.failed (.notFound a.key v.type) ⟨source, a.span, none⟩)

/-- Evaluates an atom. -/
def Atom.value (source : Source) (arena : Arena κ) : Atom → Except Stop (Value κ)
  | .literal l => (l.value source).mapError .error
  | .name n => n.value source arena
  | .path base attributes _ =>
    match base.value source arena with
    | .error stop => .error stop
    | .ok v => (follow source attributes v).mapError .error

/-- What a call hands over: the operands, bound to the active scope, and the values of the options.
Of options with the same key the last one counts. -/
def collect (source : Source) (c : Context κ) : List Item → Call κ → Except Stop (Call κ)
  | [], given => .ok given
  | .operand f :: items, given =>
    collect source c items
      { given with operands := given.operands ++ [⟨source, f, c.arena.active, c.id⟩] }
  | .option key chosen :: items, given =>
    match chosen.value source c.arena with
    | .error stop => .error stop
    | .ok v => collect source c items { given with options := given.options.insert key.text v }

/-- Calls the procedure that `operator` is bound to. -/
def dispatch (host : Host κ) (eval : Evaluator κ) (source : Source) (operator : Name)
    (items : List Item) (span : Text.Span) (w : World κ) : Outcome κ :=
  match operator.value source w.context.arena with
  | .error (.abort a) => .abort a
  | .error (.error e) => .reply (.error e) w
  | .ok (.procedure p) =>
    match collect source w.context items ⟨[], ∅⟩ with
    | .error (.abort a) => .abort a
    | .error (.error e) => .reply (.error e) w
    | .ok given =>
      ((host p given).run eval w).andThen fun r w' =>
        .reply (r.mapError (Error.locate source span)) w'
  | .ok v =>
    .reply (.error (.failed (.notProcedure operator.text v.type) ⟨source, span, none⟩)) w

end Form

namespace World

/-- The world with one more call in progress. -/
def enter (w : World κ) : World κ :=
  { w with context := { w.context with depth := w.context.depth + 1 } }

/-- The world with one call less in progress. -/
def leave (w : World κ) : World κ :=
  { w with context := { w.context with depth := w.context.depth - 1 } }

end World

/-- Evaluates a form; operands of a call are evaluated by `eval`. -/
def Form.step (host : Host κ) (eval : Evaluator κ) : Evaluator κ := fun source form w =>
  match form with
  | .atom a =>
    match a.value source w.context.arena with
    | .error (.abort abort) => .abort abort
    | .error (.error e) => .reply (.error e) w
    | .ok v => .reply (.ok v) w
  | .call operator items span =>
    if w.context.maxDepth ≤ w.context.depth then
      .reply (.error (.failed (.recursionLimit w.context.maxDepth) ⟨source, span, none⟩)) w
    else
      (Form.dispatch host eval source operator items span w.enter).andThen fun r w' =>
        .reply r w'.leave

/-- Evaluates a form in which calls go less than `bound` deep. -/
def Form.evalWithin (host : Host κ) : (bound : Nat) → Evaluator κ
  | 0 => fun _ _ _ => .abort .exhausted
  | bound + 1 => Form.step host (evalWithin host bound)

namespace World

/-- The evaluator of a world: its calls cannot go deeper than the context allows. -/
def evaluator (host : Host κ) (w : World κ) : Evaluator κ :=
  Form.evalWithin host (w.context.maxDepth - w.context.depth + 1)

/-- Evaluates a program in the active scope. -/
def run (host : Host κ) (w : World κ) (p : Program) : Outcome κ :=
  match p.body with
  | .error fault => .abort (.malformed fault)
  | .ok form => w.evaluator host p.source form w

/-- Evaluates an operand at a place. -/
def forceAt (host : Host κ) (w : World κ) (x : Operand) (place : Place κ) : Outcome κ :=
  w.force (w.evaluator host) x place

end World

end Fexpr
