import Fexpr.Eval
import Fexpr.Library.Recipe

/-!
# Sessions

A session is a host at work: several contexts, compiled scripts and scopes under names, and one
piece of host data that all contexts share. Each step is a use of the engine. An aborted
evaluation ends the session.
-/

namespace Fexpr

namespace Session

/-- What a step asks of a context. -/
inductive Request where
  /-- Evaluates a compiled script. -/
  | evalScript (name : String)
  /-- Compiles and evaluates a text. -/
  | evalText (text : String)
  /-- Binds an identifier in the active scope. -/
  | define (id : String) (r : Recipe)
  /-- Looks an identifier up from the active scope outwards. -/
  | lookup (id : String)
  /-- Looks an identifier up from a named scope outwards. -/
  | lookupFrom (scope id : String)
  /-- Looks an identifier up in the active scope. -/
  | lookupLocal (id : String)
  /-- Looks an identifier up in the scope around the active one. -/
  | lookupOuter (id : String)
  /-- Counts the scopes. -/
  | scopeCount
  /-- Asks for the limit of calls in progress. -/
  | maxDepth
  /-- Asks how the data of the host is reached. -/
  | dataAccess
  /-- Names the active scope. -/
  | nameActive (name : String)
  /-- Compares two named scopes. -/
  | sameScope (first second : String)
  /-- Opens a scope and names it. -/
  | derive (name : String) (env : List (String × Recipe))
  /-- Opens a scope and names it, takes steps, and releases it. -/
  | withDerived (name : String) (env : List (String × Recipe)) (requests : List Request)
  /-- Evaluates a kept operand in the scope it was written in. -/
  | force (operand : String)
  /-- Evaluates a kept operand with an environment layered over. -/
  | forceWith (operand : String) (env : List (String × Recipe))
  /-- Evaluates a kept operand in a named scope. -/
  | forceIn (operand scope : String)
  /-- Describes a kept operand. -/
  | describe (operand : String)
  /-- Forgets a kept operand. -/
  | drop (operand : String)

/-- What a step answers. -/
inductive Answer where
  /-- It is done. -/
  | done
  /-- A value. -/
  | value (v : Value Builtin)
  /-- An error. -/
  | error (e : Error)
  /-- The evaluation was given up. -/
  | abort (a : Abort)
  /-- How many identifiers are bound. -/
  | size (n : Nat)
  /-- What an identifier is bound to. -/
  | found (v : Option (Value Builtin))
  /-- There is no scope around. -/
  | noOuterScope
  /-- How many scopes there are. -/
  | scopes (n : Nat)
  /-- The limit of calls in progress. -/
  | maxDepth (n : Nat)
  /-- How the data of the host is reached. -/
  | dataAccess (d : DataAccess)
  /-- Whether two scopes are the same. -/
  | same (b : Bool)
  /-- The answers of steps inside, and how many scopes there are afterwards. -/
  | steps (answers : List Answer) (scopes : Nat)
  /-- An operand. -/
  | operand (x : Operand)
  /-- No operand is kept under the name. -/
  | noOperand
  /-- The lines put out. -/
  | lines (out : Array String)
  /-- No context, script or scope goes by the name. -/
  | unknown

/-- Whether an answer ends the session. -/
def Answer.isAbort : Answer → Bool
  | abort _ => true
  | _ => false

/-- Where requests are carried out: the world of one context, and what goes by names. -/
structure Stage where
  /-- The context and the data around it. -/
  world : World Builtin
  /-- The compiled scripts. -/
  programs : Bindings Program
  /-- The named scopes. -/
  scopes : Bindings ScopeId

namespace Stage

/-- The arena of the context. -/
def arena (s : Stage) : Arena Builtin := s.world.context.arena

/-- The stage with another arena. -/
def withArena (s : Stage) (a : Arena Builtin) : Stage := { s with world := s.world.withArena a }

/-- The answer of an evaluation, and the stage after it. -/
def ofOutcome (s : Stage) : Outcome Builtin → Answer × Stage
  | .reply (.ok v) w => (.value v, { s with world := w })
  | .reply (.error e) w => (.error e, { s with world := w })
  | .abort a => (.abort a, s)

/-- Makes an environment from recipes. -/
def makeEnvironment (s : Stage) (pairs : List (String × Recipe)) :
    Environment Builtin × Stage :=
  let (env, next) := Recipe.makeBindings ∅ pairs s.world.nextIdentity
  (env, { s with world := { s.world with nextIdentity := next } })

/-- Answers what the arena answers; a scope that is gone ends the session. -/
def answered {α : Type} (s : Stage) (answer : Except ScopeId α) (next : α → Answer × Stage) :
    Answer × Stage :=
  match answer with
  | .ok a => next a
  | .error dead => (.abort (.notLive dead), s)

/-- Goes on with a named scope. -/
def withScope (s : Stage) (name : String) (next : ScopeId → Answer × Stage) : Answer × Stage :=
  match s.scopes.find? name with
  | some scope => next scope
  | none => (.unknown, s)

/-- Goes on with a kept operand. -/
def withOperand (s : Stage) (name : String) (next : Operand → Answer × Stage) : Answer × Stage :=
  match s.world.host.captured.find? name with
  | some x => next x
  | none => (.noOperand, s)

/-- Evaluates a program. -/
def run (s : Stage) (p : Program) : Answer × Stage :=
  s.ofOutcome (s.world.run Library.host p)

/-- Evaluates an operand. -/
def force (s : Stage) (x : Operand) (place : Place Builtin) : Answer × Stage :=
  s.ofOutcome (s.world.forceAt Library.host x place)

/-- Opens a scope inside the active one and names it. -/
def openScope (s : Stage) (name : String) (env : List (String × Recipe)) :
    Except ScopeId Stage :=
  let (env, s) := s.makeEnvironment env
  match s.arena.push s.arena.active env with
  | .error dead => .error dead
  | .ok (scope, arena) =>
    .ok { s.withArena arena with scopes := s.scopes.insert name scope }

/-- Releases the scopes above the first `mark` ones. -/
def release (s : Stage) (mark : Nat) : Stage :=
  s.withArena
    (s.arena.release s.world.context.id (s.world.heldOperands (.ok .nil)) mark)

/-- The source of a text that was given no name. -/
def unnamed (text : String) : Source := ⟨"script", text⟩

mutual

/-- Carries a request out. -/
def request : Request → Stage → Answer × Stage
  | .evalScript name, s =>
    match s.programs.find? name with
    | some p => s.run p
    | none => (.unknown, s)
  | .evalText text, s =>
    match Program.compile (unnamed text) with
    | .ok p => s.run p
    | .error e => (.error e, s)
  | .define id r, s =>
    s.answered s.arena.env fun env =>
      let (v, next) := r.make env s.world.nextIdentity
      let s' := s.withArena (s.arena.define id v)
      (.size (env.insert id v).size,
        { s' with world := { s'.world with nextIdentity := next } })
  | .lookup id, s => s.answered (s.arena.lookup id) fun v => (.found v, s)
  | .lookupFrom scope id, s =>
    s.withScope scope fun from' => s.answered (s.arena.lookupFrom from' id) fun v => (.found v, s)
  | .lookupLocal id, s => s.answered s.arena.env fun env => (.found (env.find? id), s)
  | .lookupOuter id, s =>
    s.answered s.arena.outerEnv fun env =>
      match env with
      | some env => (.found (env.find? id), s)
      | none => (.noOuterScope, s)
  | .scopeCount, s => (.scopes s.arena.size, s)
  | .maxDepth, s => (.maxDepth s.world.context.maxDepth, s)
  | .dataAccess, s => (.dataAccess s.world.context.data, s)
  | .nameActive name, s => (.done, { s with scopes := s.scopes.insert name s.arena.active })
  | .sameScope first second, s =>
    s.withScope first fun a => s.withScope second fun b => (.same (a == b), s)
  | .derive name env, s =>
    s.answered (s.openScope name env) fun s' => (.scopes s'.arena.size, s')
  | .withDerived name env requests, s =>
    s.answered (s.openScope name env) fun opened =>
      let (answers, after) := requestAll requests opened
      match answers.find? Answer.isAbort with
      | some stop => (stop, after)
      | none =>
        let released := after.release s.arena.size
        (.steps answers released.arena.size, released)
  | .force operand, s => s.withOperand operand fun x => s.force x .own
  | .forceWith operand env, s =>
    s.withOperand operand fun x =>
      let (env, s) := s.makeEnvironment env
      s.force x (.layered env)
  | .forceIn operand scope, s =>
    s.withOperand operand fun x => s.withScope scope fun place => s.force x (.scope place)
  | .describe operand, s => s.withOperand operand fun x => (.operand x, s)
  | .drop operand, s =>
    s.withOperand operand fun _ =>
      let host := { s.world.host with captured := s.world.host.captured.erase operand }
      (.done, { s with world := { s.world with host } })

/-- Carries requests out in order, up to one that is given up. -/
def requestAll : List Request → Stage → List Answer × Stage
  | [], s => ([], s)
  | r :: rs, s =>
    let (answer, s) := request r s
    if answer.isAbort then ([answer], s)
    else
      let (answers, s) := requestAll rs s
      (answer :: answers, s)

end

end Stage

/-- A step of a session. -/
inductive Step where
  /-- Makes a context under a name. -/
  | context (name : String) (env : List (String × Recipe)) (withLibrary : Bool) (maxDepth : Nat)
      (data : DataAccess)
  /-- Compiles a text under a name. -/
  | compile (name text : String)
  /-- Asks for the lines put out. -/
  | lines
  /-- Asks something of a context. -/
  | ask (context : String) (r : Request)

end Session

/-- A host at work. -/
structure Session where
  /-- The contexts. -/
  contexts : Bindings (Context Builtin)
  /-- The compiled scripts. -/
  programs : Bindings Program
  /-- The named scopes. -/
  scopes : Bindings ScopeId
  /-- The data that the contexts share. -/
  host : HostData
  /-- The next identity for a procedure or user data. -/
  nextIdentity : Nat
  /-- The number of the next context. -/
  nextContext : Nat

namespace Session

/-- A session before its first step. -/
def start : Session := ⟨∅, ∅, ∅, .fresh, 0, 0⟩

/-- The environment that a context starts with, and the next identity. -/
def initialEnvironment (env : List (String × Recipe)) (withLibrary : Bool) (next : Nat) :
    Environment Builtin × Nat :=
  if withLibrary then
    Recipe.makeBindings (Library.environment next) env (next + Builtin.table.length)
  else Recipe.makeBindings ∅ env next

/-- Takes a step. -/
def step (s : Session) : Step → Answer × Session
  | .context name env withLibrary maxDepth data =>
    let (env, next) := initialEnvironment env withLibrary s.nextIdentity
    (.done,
      { s with
        contexts := s.contexts.insert name (.new s.nextContext env maxDepth data)
        nextIdentity := next
        nextContext := s.nextContext + 1 })
  | .compile name text =>
    match Program.compile (Stage.unnamed text) with
    | .ok p => (.done, { s with programs := s.programs.insert name p })
    | .error e => (.error e, s)
  | .lines => (.lines s.host.out, s)
  | .ask name r =>
    match s.contexts.find? name with
    | none => (.unknown, s)
    | some context =>
      let (answer, stage) :=
        Stage.request r ⟨⟨context, s.host, s.nextIdentity⟩, s.programs, s.scopes⟩
      (answer,
        { s with
          contexts := s.contexts.insert name stage.world.context
          scopes := stage.scopes
          host := stage.world.host
          nextIdentity := stage.world.nextIdentity })

/-- Takes steps in order, up to one that is given up. -/
def run : Session → List Step → List Answer
  | _, [] => []
  | s, r :: rs =>
    let (answer, s) := s.step r
    if answer.isAbort then [answer] else answer :: run s rs

end Session

end Fexpr
