import Fexpr.Proofs.Value.Rebinding

/-!
# Lexical evaluation

Evaluation as lexical scoping has it, without an arena. A scope is what is seen in it, a list of
environments with the innermost first, and it never changes. An operand carries the scope that it
was written in wherever it goes: it can be kept in values and bindings, answered, and handed to the
host. To evaluate it is to evaluate its form in that scope, with an environment in front if one is
layered over it, no matter where and when that happens.

Handles do not hold scopes themselves. So everything that keeps operands comes with the list of
their scopes (`Lexical.Closed`), and the scope id of an operand is a number in that list.

Procedures have a meaning here if they do nothing with the context but evaluate operands that they
have got hold of, and reach the data of the host (`Host.OnlyForces`). Calls are counted by a budget
that goes down by one with every call inside another.
-/

namespace Fexpr

variable {κ : Type}

/-! ## Procedures that only force operands -/

/-- The second action is the first one with all operands in it replaced by their images. Both ask
for nothing but the evaluation of operands, in the scope they were written in or with an environment
layered over it, for the limit of calls, for the data of the host, and for identities. -/
def Action.ForcesAlike (f : Operand → Operand) : Action κ → Action κ → Prop
  | done v, b => b = done (v.mapOperands f)
  | fail e, b => b = fail e
  | force x .own next, b =>
    ∃ next', b = force (f x) .own next' ∧ ∀ r, ForcesAlike f (next r) (next' (r.mapOperands f))
  | force x (.layered env) next, b =>
    ∃ next', b = force (f x) (.layered (env.mapOperands f)) next' ∧
      ∀ r, ForcesAlike f (next r) (next' (r.mapOperands f))
  | maxDepth next, b => ∃ next', b = maxDepth next' ∧ ∀ n, ForcesAlike f (next n) (next' n)
  | hasData next, b => ∃ next', b = hasData next' ∧ ∀ d, ForcesAlike f (next d) (next' d)
  | tick next, b => ∃ next', b = tick next' ∧ ∀ n, ForcesAlike f (next n) (next' n)
  | emit line next, b => ∃ next', b = emit line next' ∧ ForcesAlike f next next'
  | capture name x next, b => ∃ next', b = capture name (f x) next' ∧ ForcesAlike f next next'
  | fresh next, b => ∃ next', b = fresh next' ∧ ∀ i, ForcesAlike f (next i) (next' i)
  | _, _ => False

/-- The procedures of this code touch the context only by forcing operands, those of their call or
any others that they are given or answered. They may keep operands, answer them and hand them to the
host. They do not look at the scopes of operands and make none up: with operands that are bound to
other scopes they do the same. -/
def Host.OnlyForces (host : Host κ) (code : κ) : Prop :=
  ∀ f, Operand.IsRebinding f → ∀ (p : Procedure κ) (call : Call κ), p.code = code →
    Action.ForcesAlike f (host p call) (host (p.mapOperands f) (call.mapOperands f))

/-- The action asks only for what `Action.ForcesAlike` allows. Of the operands that it answers,
layers over others or hands to the host, all satisfy `P`, as long as the replies that it gets keep
no others. -/
def Action.KeepsOnly (P : Operand → Prop) : Action κ → Prop
  | done v => v.KeepsOnly P
  | fail _ => True
  | force _ .own next => ∀ r, Reply.KeepsOnly P r → KeepsOnly P (next r)
  | force _ (.layered env) next =>
    env.KeepsOnly P ∧ ∀ r, Reply.KeepsOnly P r → KeepsOnly P (next r)
  | maxDepth next => ∀ n, KeepsOnly P (next n)
  | hasData next => ∀ d, KeepsOnly P (next d)
  | tick next => ∀ n, KeepsOnly P (next n)
  | emit _ next => KeepsOnly P next
  | capture _ x next => P x ∧ KeepsOnly P next
  | fresh next => ∀ i, KeepsOnly P (next i)
  | _ => False

/-- The procedures of this code keep none of the operands that they are called with: whatever they
keep comes from their captured operands, their options, and the replies that they get. -/
def Host.KeepsNone (host : Host κ) (code : κ) : Prop :=
  ∀ (P : Operand → Prop) (p : Procedure κ) (call : Call κ), p.code = code →
    (∀ x ∈ p.captured, P x) → Environment.KeepsOnly P call.options → (host p call).KeepsOnly P

namespace Lexical

/-! ## Scopes -/

/-- Something that keeps operands, with their scopes: an operand with the scope id `⟨n, 0⟩` was
written in the scope number `n`. -/
structure Closed (α σ : Type) where
  it : α
  scopes : List σ

/-- What is seen in a scope: environments, the innermost first. -/
inductive Scope (κ : Type) where
  | mk (envs : List (Closed (Environment κ) (Scope κ)))

abbrev ClosedEnv (κ : Type) := Closed (Environment κ) (Scope κ)

abbrev ClosedValue (κ : Type) := Closed (Value κ) (Scope κ)

def Scope.envs : Scope κ → List (ClosedEnv κ)
  | mk envs => envs

/-- The operand where `n` scopes are put before those that it is numbered by. -/
def shift (id n : Nat) (x : Operand) : Operand := x.rebind id fun k => ⟨n + k, 0⟩

/-! ## Evaluation -/

/-- What stays the same in an evaluation. -/
structure Setting (κ : Type) where
  host : Host κ
  /-- The context that evaluates. It cannot evaluate the operands of others. -/
  id : Nat
  /-- How many calls may be in progress. -/
  maxDepth : Nat
  data : DataAccess

/-- What changes in an evaluation: the data of the host, and the next identity. -/
structure State (κ : Type) where
  ticks : Nat
  out : Array String
  captured : Bindings (Closed Operand (Scope κ))
  nextIdentity : Nat

/-- How an evaluation ends. -/
inductive Answer (κ : Type) where
  | reply (r : Except Error (ClosedValue κ)) (st : State κ)
  /-- It is given up, since the operand of another context was to be evaluated. -/
  | foreign (text : String)
  /-- A procedure asked for something that has no meaning here. -/
  | beyond

/-- Goes on with the reply. -/
def Answer.andThen (a : Answer κ) (next : Except Error (ClosedValue κ) → State κ → Answer κ) :
    Answer κ :=
  match a with
  | reply r st => next r st
  | foreign text => foreign text
  | beyond => beyond

/-- Evaluates a form of a source in the scope of the given environments. -/
abbrev Evaluator (κ : Type) := List (ClosedEnv κ) → Source → Form → State κ → Answer κ

/-- The innermost binding of an identifier. -/
def lookup (envs : List (ClosedEnv κ)) (id : String) : Option (ClosedValue κ) :=
  envs.findSome? fun env => (env.it.find? id).map fun v => ⟨v, env.scopes⟩

def closedName (source : Source) (envs : List (ClosedEnv κ)) (n : Form.Name) :
    Except Error (ClosedValue κ) :=
  match lookup envs n.text with
  | none => .error (.unbound n.text ⟨source, n.span, none⟩)
  | some v => .ok v

def closedAtom (source : Source) (envs : List (ClosedEnv κ)) :
    Form.Atom → Except Error (ClosedValue κ)
  | .literal l => (l.value source).map fun v => ⟨v, []⟩
  | .name n => closedName source envs n
  | .path base attributes _ =>
    (closedName source envs base).bind fun v =>
      (Form.follow source attributes v.it).map fun w => ⟨w, v.scopes⟩

/-- What a call hands over: its operands, which are written in the scope of the call, and the values
of its options. The scopes are those of `given` and then the new ones. -/
def gather (id : Nat) (source : Source) (envs : List (ClosedEnv κ)) :
    List Form.Item → Closed (Call κ) (Scope κ) → Except Error (Closed (Call κ) (Scope κ))
  | [], given => .ok given
  | .operand f :: items, given =>
    let x : Operand := ⟨source, f, ⟨given.scopes.length, 0⟩, id⟩
    gather id source envs items
      ⟨{ given.it with operands := given.it.operands ++ [x] }, given.scopes ++ [.mk envs]⟩
  | .option key chosen :: items, given =>
    (closedAtom source envs chosen).bind fun v =>
      let w := v.it.mapOperands (shift id given.scopes.length)
      gather id source envs items
        ⟨{ given.it with options := given.it.options.insert key.text w },
          given.scopes ++ v.scopes⟩

/-- Evaluates an operand in the scope that it was written in, with `layers` in front. -/
def force (s : Setting κ) (eval : Evaluator κ) (scopes : List (Scope κ)) (x : Operand)
    (layers : List (ClosedEnv κ)) (st : State κ) : Answer κ :=
  if x.owner ≠ s.id then .foreign x.text
  else
    match scopes[x.scope.index]? with
    | none => .beyond
    | some scope => eval (layers ++ scope.envs) x.source x.form st

/-- What a procedure gets to know from a reply, besides the scopes that it knows. -/
def receive (id : Nat) (scopes : List (Scope κ)) :
    Except Error (ClosedValue κ) → Closed (Reply κ) (Scope κ)
  | .error e => ⟨.error e, scopes⟩
  | .ok v => ⟨.ok (v.it.mapOperands (shift id scopes.length)), scopes ++ v.scopes⟩

/-- Carries out what a procedure does that knows the given scopes. -/
def perform (s : Setting κ) (eval : Evaluator κ) :
    Action κ → List (Scope κ) → State κ → Answer κ
  | .done v, scopes, st => .reply (.ok ⟨v, scopes⟩) st
  | .fail e, _, st => .reply (.error e) st
  | .force x .own next, scopes, st =>
    (force s eval scopes x [] st).andThen fun r st' =>
      perform s eval (next (receive s.id scopes r).it) (receive s.id scopes r).scopes st'
  | .force x (.layered env) next, scopes, st =>
    (force s eval scopes x [⟨env, scopes⟩] st).andThen fun r st' =>
      perform s eval (next (receive s.id scopes r).it) (receive s.id scopes r).scopes st'
  | .maxDepth next, scopes, st => perform s eval (next s.maxDepth) scopes st
  | .hasData next, scopes, st => perform s eval (next (s.data != .absent)) scopes st
  | .tick next, scopes, st =>
    perform s eval (next (st.ticks + 1)) scopes { st with ticks := st.ticks + 1 }
  | .emit line next, scopes, st =>
    perform s eval next scopes { st with out := st.out.push line }
  | .capture name x next, scopes, st =>
    perform s eval next scopes { st with captured := st.captured.insert name ⟨x, scopes⟩ }
  | .fresh next, scopes, st =>
    perform s eval (next st.nextIdentity) scopes { st with nextIdentity := st.nextIdentity + 1 }
  | _, _, _ => .beyond

/-- Calls the procedure that `operator` is bound to. It knows the scopes of the operands that it has
captured and that it is called with. -/
def dispatch (s : Setting κ) (eval : Evaluator κ) (envs : List (ClosedEnv κ)) (source : Source)
    (operator : Form.Name) (items : List Form.Item) (span : Text.Span) (st : State κ) : Answer κ :=
  match closedName source envs operator with
  | .error e => .reply (.error e) st
  | .ok ⟨.procedure p, scopes⟩ =>
    match gather s.id source envs items ⟨⟨[], ∅⟩, scopes⟩ with
    | .error e => .reply (.error e) st
    | .ok given =>
      (perform s eval (s.host p given.it) given.scopes st).andThen fun r st' =>
        .reply (r.mapError (Error.locate source span)) st'
  | .ok ⟨v, _⟩ =>
    .reply (.error (.failed (.notProcedure operator.text v.type) ⟨source, span, none⟩)) st

/-- Evaluates a form. `budget` calls may go inside one another. -/
def eval (s : Setting κ) : (budget : Nat) → Evaluator κ
  | _, envs, source, .atom a, st => .reply (closedAtom source envs a) st
  | 0, _, source, .call _ _ span, st =>
    .reply (.error (.failed (.recursionLimit s.maxDepth) ⟨source, span, none⟩)) st
  | budget + 1, envs, source, .call operator items span, st =>
    dispatch s (eval s budget) envs source operator items span st

/-- The evaluation of a script in an environment of its own. No operand in the environment or in the
data of the host is one of the context that evaluates, so none has a scope. -/
def run (s : Setting κ) (env : Environment κ) (around : HostData) (identity : Nat)
    (source : Source) (form : Form) : Answer κ :=
  eval s s.maxDepth [⟨env, []⟩] source form
    ⟨around.ticks, around.out, around.captured.map fun x => ⟨x, []⟩, identity⟩

end Lexical

end Fexpr
