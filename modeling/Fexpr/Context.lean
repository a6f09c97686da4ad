import Fexpr.Error
import Fexpr.Form.OfTree
import Fexpr.Scope.Arena
import Fexpr.Text.Line

/-!
# Contexts and worlds

A context is where scripts are evaluated: its scopes, its depth of calls, and how it reaches the
data of the host. The world of an evaluation is the context together with that data.

An evaluation ends with a reply, which is a value or an error, or is aborted because the host used
an operand or a scope where it does not belong.
-/

namespace Fexpr

variable {κ : Type}

/-- How a context reaches the data of the host. -/
inductive DataAccess where
  /-- Not at all. -/
  | absent
  /-- The data is shared with the host. -/
  | shared
  /-- The context owns a reference to the data. -/
  | owned
deriving DecidableEq

/-- Where scripts are evaluated. -/
structure Context (κ : Type) where
  /-- What tells it from other contexts. -/
  id : Nat
  /-- Its scopes. -/
  arena : Arena κ
  /-- How many calls are in progress. -/
  depth : Nat
  /-- How many calls may be in progress. -/
  maxDepth : Nat
  /-- Its access to the data of the host. -/
  data : DataAccess

/-- The depth of calls that a context allows unless told otherwise. -/
def Context.defaultMaxDepth : Nat := 512

/-- A context of one scope. -/
def Context.new (id : Nat) (env : Environment κ) (maxDepth : Nat) (data : DataAccess) :
    Context κ :=
  { id, arena := .ofRoot env, depth := 0, maxDepth, data }

/-- The data of the host: a counter, the lines put out, and operands kept under names. -/
structure HostData where
  /-- How often the counter was moved. -/
  ticks : Nat
  /-- The lines, in order. -/
  out : Array String
  /-- The operands kept. -/
  captured : Bindings Operand

/-- The data before anything has happened. -/
def HostData.fresh : HostData := ⟨0, #[], ∅⟩

/-- A context and the data around it. -/
structure World (κ : Type) where
  /-- The context that evaluates. -/
  context : Context κ
  /-- The data of the host. -/
  host : HostData
  /-- The next identity for a procedure or user data. -/
  nextIdentity : Nat

/-- Why an evaluation was given up. -/
inductive Abort where
  /-- A scope was used that is gone. -/
  | notLive (s : ScopeId)
  /-- An operand was used by another context than its own. -/
  | foreignOperand (text : String)
  /-- The tree of a script lacks a part. -/
  | malformed (fault : Form.Fault)
  /-- Calls went deeper than the bound of the evaluation. -/
  | exhausted

/-- What was wrong. The text of an operand can go over several lines. -/
def Abort.describe : Abort → String
  | notLive s => s!"scope {s.render} is not live in this context"
  | foreignOperand text => s!"expr `{text}` evaluated with a context it was not created under"
  | malformed _ => "malformed script"
  | exhausted => "evaluation went too deep"

/-- What was wrong, in one line. -/
def Abort.message (a : Abort) : String := String.ofList (Text.firstLine a.describe.toList)

/-- What an evaluation answers. -/
abbrev Reply (κ : Type) := Except Error (Value κ)

/-- How an evaluation ends. -/
inductive Outcome (κ : Type) where
  /-- With a reply, in the world it leaves behind. -/
  | reply (r : Reply κ) (w : World κ)
  /-- It was given up. -/
  | abort (a : Abort)

namespace Outcome

/-- Goes on with the reply. -/
def andThen (o : Outcome κ) (next : Reply κ → World κ → Outcome κ) : Outcome κ :=
  match o with
  | reply r w => next r w
  | abort a => abort a

end Outcome

/-- Evaluates a form of a source. -/
abbrev Evaluator (κ : Type) := Source → Form → World κ → Outcome κ

namespace World

/-- The world with another arena. -/
def withArena (w : World κ) (a : Arena κ) : World κ :=
  { w with context := { w.context with arena := a } }

/-- The operands kept outside the scopes: those of a reply and those kept under names. -/
def heldOperands (w : World κ) (r : Reply κ) : List Operand :=
  let ofReply :=
    match r with
    | .ok v => v.operands
    | .error _ => []
  ofReply ++ w.host.captured.values

/-- Runs `body` with a new scope inside `parent`, then releases that scope and those pushed since. -/
def withChild (w : World κ) (parent : ScopeId) (env : Environment κ)
    (body : ScopeId → World κ → Outcome κ) : Outcome κ :=
  let mark := w.context.arena.size
  match w.context.arena.push parent env with
  | .error s => .abort (.notLive s)
  | .ok (child, arena) =>
    (body child (w.withArena arena)).andThen fun r w' =>
      .reply r
        (w'.withArena (w'.context.arena.release w'.context.id (w'.heldOperands r) mark))

/-- Evaluates an operand with the scope `s` active. -/
def evalIn (eval : Evaluator κ) (w : World κ) (x : Operand) (s : ScopeId) : Outcome κ :=
  if x.owner ≠ w.context.id then .abort (.foreignOperand x.text)
  else
    match w.context.arena.activate s with
    | .error dead => .abort (.notLive dead)
    | .ok arena =>
      (eval x.source x.form (w.withArena arena)).andThen fun r w' =>
        match w'.context.arena.activate w.context.arena.active with
        | .error dead => .abort (.notLive dead)
        | .ok restored => .reply r (w'.withArena restored)

/-- Evaluates an operand with `env` layered over the scope it was written in. -/
def evalLayered (eval : Evaluator κ) (w : World κ) (x : Operand) (env : Environment κ) :
    Outcome κ :=
  if x.owner ≠ w.context.id then .abort (.foreignOperand x.text)
  else w.withChild x.scope env fun child w' => w'.evalIn eval x child

end World

end Fexpr
