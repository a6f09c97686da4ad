import Fexpr.Context

/-!
# Actions of procedures

A procedure acts on the context it is called in only by asking: to evaluate an operand, to look an
identifier up, to define one, to open a scope, and so on. What it does is an `Action`, a tree of
requests in which every answer picks the way to go on. `Action.run` carries the requests out.

A host gives every procedure its action (`Host`). Procedures are data to scripts, so they can be
bound, passed on and compared, while all that they can do shows in their actions.
-/

namespace Fexpr

variable {κ : Type}

/-- Where an operand is evaluated. -/
inductive Place (κ : Type) where
  /-- In the scope it was written in. -/
  | own
  /-- In that scope, with an environment layered over it. -/
  | layered (env : Environment κ)
  /-- In another scope. -/
  | scope (s : ScopeId)

/-- What a procedure does. -/
inductive Action (κ : Type) where
  /-- Answers a value. -/
  | done (v : Value κ)
  /-- Fails. -/
  | fail (e : Error)
  /-- Evaluates an operand. -/
  | force (x : Operand) (place : Place κ) (next : Reply κ → Action κ)
  /-- Looks an identifier up from the active scope outwards. -/
  | lookup (id : String) (next : Option (Value κ) → Action κ)
  /-- Looks an identifier up from a scope outwards. -/
  | lookupFrom (s : ScopeId) (id : String) (next : Option (Value κ) → Action κ)
  /-- Looks an identifier up in the active scope alone. -/
  | lookupLocal (id : String) (next : Option (Value κ) → Action κ)
  /-- Looks an identifier up in the scope around the active one alone, if there is one. -/
  | lookupOuter (id : String) (next : Option (Option (Value κ)) → Action κ)
  /-- Binds an identifier in the active scope. -/
  | define (id : String) (v : Value κ) (next : Action κ)
  /-- Opens a scope inside the active one. -/
  | derive (env : Environment κ) (next : ScopeId → Action κ)
  /-- Acts with a scope open inside the active one, and goes on after its release. -/
  | withDerived (env : Environment κ) (body : ScopeId → Action κ)
      (next : ScopeId → Reply κ → Action κ)
  /-- Asks which scope is active. -/
  | activeScope (next : ScopeId → Action κ)
  /-- Asks how many scopes there are. -/
  | scopeCount (next : Nat → Action κ)
  /-- Asks how many calls may be in progress. -/
  | maxDepth (next : Nat → Action κ)
  /-- Asks whether the data of the host can be reached. -/
  | hasData (next : Bool → Action κ)
  /-- Moves the counter of the host and asks for the new count. -/
  | tick (next : Nat → Action κ)
  /-- Puts a line out. -/
  | emit (line : String) (next : Action κ)
  /-- Keeps an operand under a name. -/
  | capture (name : String) (x : Operand) (next : Action κ)
  /-- Asks for an identity that was not given out before. -/
  | fresh (next : Nat → Action κ)

/-- What a procedure is called with. -/
structure Call (κ : Type) where
  /-- The operands, in source order. -/
  operands : List Operand
  /-- The options. -/
  options : Bindings (Value κ)

/-- What a procedure does when it is called. -/
abbrev Behaviour (κ : Type) := Call κ → Action κ

/-- Tells what each procedure does. -/
abbrev Host (κ : Type) := Procedure κ → Behaviour κ

/-- Allows only the numbers of operands of an arity. Where any number is allowed, there is nothing
to check. -/
def Arity.guard (a : Arity) (body : Behaviour κ) : Behaviour κ :=
  if a = .any then body
  else fun call =>
    match a.check call.operands.length with
    | some mismatch => .fail (.arity mismatch)
    | none => body call

/-- A body that is not guarded behaves as if it was checked. -/
theorem Arity.guard_apply (a : Arity) (body : Behaviour κ) (call : Call κ) :
    a.guard body call =
      (a.check call.operands.length).elim (body call) fun mismatch => .fail (.arity mismatch) := by
  unfold guard
  by_cases ha : a = .any
  · subst ha
    rfl
  · rw [if_neg ha]
    cases a.check call.operands.length <;> rfl

namespace World

/-- Evaluates an operand at a place. -/
def force (eval : Evaluator κ) (w : World κ) (x : Operand) : Place κ → Outcome κ
  | .own => w.evalIn eval x x.scope
  | .layered env => w.evalLayered eval x env
  | .scope s => w.evalIn eval x s

end World

namespace Action

/-- Goes on with an answer of the arena, or gives up if a scope is gone. -/
def answered {α : Type} (answer : Except ScopeId α) (next : α → Outcome κ) : Outcome κ :=
  match answer with
  | .error s => .abort (.notLive s)
  | .ok a => next a

/-- Carries an action out. Operands are evaluated by `eval`. -/
def run (eval : Evaluator κ) : Action κ → World κ → Outcome κ
  | done v, w => .reply (.ok v) w
  | fail e, w => .reply (.error e) w
  | force x place next, w => (w.force eval x place).andThen fun r w' => run eval (next r) w'
  | lookup id next, w =>
    answered (w.context.arena.lookup id) fun v => run eval (next v) w
  | lookupFrom s id next, w =>
    answered (w.context.arena.lookupFrom s id) fun v => run eval (next v) w
  | lookupLocal id next, w =>
    answered w.context.arena.env fun env => run eval (next (env.find? id)) w
  | lookupOuter id next, w =>
    answered w.context.arena.outerEnv fun env => run eval (next (env.map (·.find? id))) w
  | define id v next, w => run eval next (w.withArena (w.context.arena.define id v))
  | derive env next, w =>
    answered (w.context.arena.push w.context.arena.active env) fun (s, arena) =>
      run eval (next s) (w.withArena arena)
  | withDerived env body next, w =>
    let s : ScopeId := ⟨w.context.arena.size, w.context.arena.nextSerial⟩
    (w.withChild w.context.arena.active env fun child w' => run eval (body child) w').andThen
      fun r w' => run eval (next s r) w'
  | activeScope next, w => run eval (next w.context.arena.active) w
  | scopeCount next, w => run eval (next w.context.arena.size) w
  | maxDepth next, w => run eval (next w.context.maxDepth) w
  | hasData next, w => run eval (next (w.context.data != .absent)) w
  | tick next, w =>
    let ticks := w.host.ticks + 1
    run eval (next ticks) { w with host := { w.host with ticks } }
  | emit line next, w =>
    run eval next { w with host := { w.host with out := w.host.out.push line } }
  | capture name x next, w =>
    run eval next { w with host := { w.host with captured := w.host.captured.insert name x } }
  | fresh next, w => run eval (next w.nextIdentity) { w with nextIdentity := w.nextIdentity + 1 }

end Action

end Fexpr
