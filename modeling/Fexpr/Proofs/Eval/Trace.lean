import Fexpr.Eval
import Fexpr.Proofs.Scope.Moment
import Mathlib.Logic.Relation

/-!
# What is seen of an evaluation

The evaluator tells how an evaluation ends. Here is a second one that also tells what happens on the
way: which forms are evaluated, which calls are refused, what procedures ask for, and what ends.
Each `Sight` has the world at that time and what is in progress then. The two evaluators end alike
(`Form.traceWithin_outcome`).

An evaluation goes from one stage to the next by few kinds of steps (`Stage.Step`), whatever the
procedures ask for. Every sight is reached by such steps from the stage at which the evaluation
began (`Form.traceWithin_proceeds`), so what these steps keep holds at every sight.
-/

namespace Fexpr

variable {κ : Type}

/-! ## Sights -/

/-- A world, and what is in progress in it, the innermost call first. -/
structure Stage (κ : Type) where
  world : World κ
  pending : List Pending

/-- What happens in an evaluation. -/
inductive Event (κ : Type) where
  /-- A form is evaluated. -/
  | begins (source : Source) (form : Form)
  /-- A call is refused, since as many are in progress as may be. -/
  | refuses (source : Source) (span : Text.Span)
  /-- A procedure comes to an action. -/
  | acts (a : Action κ)
  /-- The innermost of what is in progress has a reply and is about to end. -/
  | ends (r : Reply κ)

def Event.isEnd : Event κ → Bool
  | ends _ => true
  | _ => false

structure Sight (κ : Type) extends Stage κ where
  event : Event κ

/-- What is in progress around what is seen. -/
def Sight.around (s : Sight κ) : List Pending :=
  match s.event with
  | .ends _ => s.pending.tail
  | _ => s.pending

/-- An evaluation with all that is seen of it, in order. -/
structure Traced (κ : Type) where
  sights : List (Sight κ)
  outcome : Outcome κ

/-- What a call in progress does when it ends with a reply. -/
def Pending.finish (r : Reply κ) (w : World κ) : Pending → Outcome κ
  | .release mark =>
    .reply r (w.withArena (w.context.arena.release w.context.id (w.heldOperands r) mark))
  | .restore s => Action.answered (w.context.arena.activate s) fun a => .reply r (w.withArena a)
  | .leave => .reply r w.leave

namespace Traced

/-- Nothing is seen of it. -/
def ofOutcome (o : Outcome κ) : Traced κ := ⟨[], o⟩

def see (event : Event κ) (st : Stage κ) (t : Traced κ) : Traced κ :=
  ⟨⟨st, event⟩ :: t.sights, t.outcome⟩

/-- Goes on with the reply. -/
def andThen (t : Traced κ) (next : Reply κ → World κ → Traced κ) : Traced κ :=
  match t.outcome with
  | .reply r w => ⟨t.sights ++ (next r w).sights, (next r w).outcome⟩
  | .abort a => ⟨t.sights, .abort a⟩

/-- Goes on with an answer of the arena, or gives up if a scope is gone. -/
def answered {α : Type} (answer : Except ScopeId α) (next : α → Traced κ) : Traced κ :=
  match answer with
  | .error s => ofOutcome (.abort (.notLive s))
  | .ok a => next a

/-- Ends the call `p`, with `pending` in progress around it. -/
def ending (p : Pending) (pending : List Pending) (t : Traced κ) : Traced κ :=
  t.andThen fun r w => see (.ends r) ⟨w, p :: pending⟩ (ofOutcome (p.finish r w))

end Traced

/-- Goes on with what was looked up or decoded, unless that stops the evaluation. -/
def World.resume {α : Type} (w : World κ) (answer : Except Stop α) (next : α → Traced κ) :
    Traced κ :=
  match answer with
  | .error (.abort a) => .ofOutcome (.abort a)
  | .error (.error e) => .ofOutcome (.reply (.error e) w)
  | .ok a => next a

/-! ## The tracing evaluator -/

/-- Evaluates a form of a source, with calls in progress around it. -/
abbrev Tracer (κ : Type) := List Pending → Source → Form → World κ → Traced κ

open Traced

namespace World

def traceChild (w : World κ) (pending : List Pending) (parent : ScopeId) (env : Environment κ)
    (body : List Pending → ScopeId → World κ → Traced κ) : Traced κ :=
  let p := Pending.release w.context.arena.size
  answered (w.context.arena.push parent env) fun (child, arena) =>
    (body (p :: pending) child (w.withArena arena)).ending p pending

def traceIn (eval : Tracer κ) (w : World κ) (pending : List Pending) (x : Operand) (s : ScopeId) :
    Traced κ :=
  let p := Pending.restore w.context.arena.active
  if x.owner ≠ w.context.id then ofOutcome (.abort (.foreignOperand x.text))
  else
    answered (w.context.arena.activate s) fun arena =>
      (eval (p :: pending) x.source x.form (w.withArena arena)).ending p pending

def traceForce (eval : Tracer κ) (w : World κ) (pending : List Pending) (x : Operand) :
    Place κ → Traced κ
  | .own => w.traceIn eval pending x x.scope
  | .layered env =>
    if x.owner ≠ w.context.id then ofOutcome (.abort (.foreignOperand x.text))
    else
      w.traceChild pending x.scope env fun pending' child w' => w'.traceIn eval pending' x child
  | .scope s => w.traceIn eval pending x s

end World

/-- Carries an action out. Operands are evaluated by `eval`. -/
def Action.trace (eval : Tracer κ) : List Pending → Action κ → World κ → Traced κ
  | pending, a, w => see (.acts a) ⟨w, pending⟩ <|
    match a with
    | done v => ofOutcome (.reply (.ok v) w)
    | fail e => ofOutcome (.reply (.error e) w)
    | force x place next =>
      (w.traceForce eval pending x place).andThen fun r w' => trace eval pending (next r) w'
    | lookup id next =>
      Traced.answered (w.context.arena.lookup id) fun v => trace eval pending (next v) w
    | lookupFrom s id next =>
      Traced.answered (w.context.arena.lookupFrom s id) fun v => trace eval pending (next v) w
    | lookupLocal id next =>
      Traced.answered w.context.arena.env fun env => trace eval pending (next (env.find? id)) w
    | lookupOuter id next =>
      Traced.answered w.context.arena.outerEnv fun env =>
        trace eval pending (next (env.map (·.find? id))) w
    | define id v next => trace eval pending next (w.withArena (w.context.arena.define id v))
    | derive env next =>
      Traced.answered (w.context.arena.push w.context.arena.active env) fun (s, arena) =>
        trace eval pending (next s) (w.withArena arena)
    | withDerived env body next =>
      let s : ScopeId := ⟨w.context.arena.size, w.context.arena.nextSerial⟩
      (w.traceChild pending w.context.arena.active env fun pending' child w' =>
        trace eval pending' (body child) w').andThen fun r w' => trace eval pending (next s r) w'
    | activeScope next => trace eval pending (next w.context.arena.active) w
    | scopeCount next => trace eval pending (next w.context.arena.size) w
    | maxDepth next => trace eval pending (next w.context.maxDepth) w
    | hasData next => trace eval pending (next (w.context.data != .absent)) w
    | tick next =>
      let ticks := w.host.ticks + 1
      trace eval pending (next ticks) { w with host := { w.host with ticks } }
    | emit line next =>
      trace eval pending next { w with host := { w.host with out := w.host.out.push line } }
    | capture name x next =>
      trace eval pending next
        { w with host := { w.host with captured := w.host.captured.insert name x } }
    | fresh next =>
      trace eval pending (next w.nextIdentity) { w with nextIdentity := w.nextIdentity + 1 }

namespace Form

/-- What the procedure is asked to do that `operator` is bound to. -/
def request (host : Host κ) (source : Source) (operator : Name) (items : List Item)
    (span : Text.Span) (c : Context κ) : Except Stop (Action κ) :=
  match operator.value source c.arena with
  | .error stop => .error stop
  | .ok (.procedure p) => (collect source c items ⟨[], ∅⟩).map (host p)
  | .ok v =>
    .error (.error (.failed (.notProcedure operator.text v.type) ⟨source, span, none⟩))

def traceDispatch (host : Host κ) (eval : Tracer κ) (pending : List Pending) (source : Source)
    (operator : Name) (items : List Item) (span : Text.Span) (w : World κ) : Traced κ :=
  w.resume (request host source operator items span w.context) fun a =>
    (a.trace eval pending w).andThen fun r w' =>
      ofOutcome (.reply (r.mapError (Error.locate source span)) w')

def traceStep (host : Host κ) (eval : Tracer κ) : Tracer κ := fun pending source form w =>
  see (.begins source form) ⟨w, pending⟩ <|
    match form with
    | .atom a =>
      w.resume (a.value source w.context.arena) fun v => ofOutcome (.reply (.ok v) w)
    | .call operator items span =>
      if w.context.maxDepth ≤ w.context.depth then
        see (.refuses source span) ⟨w, pending⟩ <| ofOutcome <|
          .reply (.error (.failed (.recursionLimit w.context.maxDepth) ⟨source, span, none⟩)) w
      else
        (traceDispatch host eval (.leave :: pending) source operator items span w.enter).ending
          .leave pending

def traceWithin (host : Host κ) : (bound : Nat) → Tracer κ
  | 0 => fun _ _ _ _ => ofOutcome (.abort .exhausted)
  | bound + 1 => traceStep host (traceWithin host bound)

end Form

namespace World

def tracer (host : Host κ) (w : World κ) : Tracer κ :=
  Form.traceWithin host (w.context.maxDepth - w.context.depth + 1)

/-- Evaluates a program in the active scope, with calls in progress around it. -/
def trace (host : Host κ) (w : World κ) (pending : List Pending) (p : Program) : Traced κ :=
  match p.body with
  | .error fault => ofOutcome (.abort (.malformed fault))
  | .ok form => w.tracer host pending p.source form w

/-- Evaluates an operand at a place, with calls in progress around it. -/
def traceAt (host : Host κ) (w : World κ) (pending : List Pending) (x : Operand)
    (place : Place κ) : Traced κ :=
  w.traceForce (w.tracer host) pending x place

end World

/-! ## Both evaluators end alike -/

section Outcomes

variable {eval : Evaluator κ} {tracer : Tracer κ}

namespace Traced

@[simp] theorem outcome_see (event : Event κ) (st : Stage κ) (t : Traced κ) :
    (see event st t).outcome = t.outcome := rfl

@[simp] theorem outcome_andThen (t : Traced κ) (next : Reply κ → World κ → Traced κ) :
    (t.andThen next).outcome = t.outcome.andThen fun r w => (next r w).outcome := by
  unfold andThen
  cases t.outcome <;> rfl

@[simp] theorem outcome_answered {α : Type} (answer : Except ScopeId α) (next : α → Traced κ) :
    (answered answer next).outcome = Action.answered answer fun a => (next a).outcome := by
  cases answer <;> rfl

theorem outcome_ending (p : Pending) (pending : List Pending) (t : Traced κ) :
    (t.ending p pending).outcome = t.outcome.andThen fun r w => p.finish r w :=
  outcome_andThen t _

end Traced

/-- The tracing evaluator ends as the other one does. -/
def Tracer.Traces (tracer : Tracer κ) (eval : Evaluator κ) : Prop :=
  ∀ pending source form w, (tracer pending source form w).outcome = eval source form w

theorem World.traceChild_outcome (w : World κ) (pending : List Pending) (parent : ScopeId)
    (env : Environment κ) {body : List Pending → ScopeId → World κ → Traced κ}
    {body' : ScopeId → World κ → Outcome κ}
    (hbody : ∀ pending s u, (body pending s u).outcome = body' s u) :
    (w.traceChild pending parent env body).outcome = w.withChild parent env body' := by
  unfold World.traceChild World.withChild
  rw [outcome_answered]
  cases w.context.arena.push parent env with
  | error s => rfl
  | ok opened =>
    rw [Action.answered, outcome_ending, hbody]
    rfl

theorem World.traceIn_outcome (h : tracer.Traces eval) (w : World κ) (pending : List Pending)
    (x : Operand) (s : ScopeId) :
    (w.traceIn tracer pending x s).outcome = w.evalIn eval x s := by
  unfold World.traceIn World.evalIn
  dsimp only
  split
  · rfl
  · rw [outcome_answered]
    cases w.context.arena.activate s with
    | error dead => rfl
    | ok arena =>
      rw [Action.answered, outcome_ending, h]
      -- What is left is the end of the call, which restores the scope that was active before.
      refine congrArg _ (funext fun r => funext fun u => ?_)
      rw [Pending.finish]
      cases u.context.arena.activate w.context.arena.active <;> rfl

theorem World.traceForce_outcome (h : tracer.Traces eval) (w : World κ) (pending : List Pending)
    (x : Operand) (place : Place κ) :
    (w.traceForce tracer pending x place).outcome = w.force eval x place := by
  cases place with
  | own => exact w.traceIn_outcome h pending x x.scope
  | layered env =>
    rw [World.traceForce, World.force, World.evalLayered]
    split
    · rfl
    · exact w.traceChild_outcome pending x.scope env fun pending' s u =>
        u.traceIn_outcome h pending' x s
  | scope s => exact w.traceIn_outcome h pending x s

theorem Action.trace_outcome (h : tracer.Traces eval) (a : Action κ) (pending : List Pending)
    (w : World κ) : (a.trace tracer pending w).outcome = a.run eval w := by
  induction a generalizing pending w with
  | done v | fail e => rfl
  | force x place next ih =>
    simp only [Action.trace, Action.run, outcome_see, outcome_andThen, w.traceForce_outcome h, ih]
  | lookup id next ih | lookupFrom s id next ih | lookupLocal id next ih | lookupOuter id next ih
  | derive env next ih =>
    simp only [Action.trace, Action.run, outcome_see, outcome_answered, ih]
  | withDerived env body next ihbody ihnext =>
    simp only [Action.trace, Action.run, outcome_see, outcome_andThen, ihnext]
    rw [w.traceChild_outcome pending _ env fun pending' s u => ihbody s pending' u]
  | define id v next ih | activeScope next ih | scopeCount next ih | maxDepth next ih
  | hasData next ih | tick next ih | emit line next ih | capture name x next ih | fresh next ih =>
    simp only [Action.trace, Action.run, outcome_see, ih]

namespace Form

/-- What is to be done for a call is what the host says of some procedure. -/
theorem exists_of_request {host : Host κ} {source : Source} {operator : Name} {items : List Item}
    {span : Text.Span} {c : Context κ} {a : Action κ}
    (h : request host source operator items span c = .ok a) : ∃ p given, a = host p given := by
  unfold request at h
  split at h
  · cases h
  next p _ =>
    cases hgiven : collect source c items ⟨[], ∅⟩ with
    | error stop =>
      rw [hgiven] at h
      cases h
    | ok given =>
      rw [hgiven] at h
      cases h
      exact ⟨p, given, rfl⟩
  · cases h

/-- A call is dispatched by asking what to do and doing it. -/
theorem traceDispatch_outcome (host : Host κ) (h : tracer.Traces eval) (pending : List Pending)
    (source : Source) (operator : Name) (items : List Item) (span : Text.Span) (w : World κ) :
    (traceDispatch host tracer pending source operator items span w).outcome =
      dispatch host eval source operator items span w := by
  unfold traceDispatch request dispatch
  cases operator.value source w.context.arena with
  | error stop => cases stop <;> rfl
  | ok v =>
    cases v with
    | procedure p =>
      dsimp only
      cases collect source w.context items ⟨[], ∅⟩ with
      | error stop => cases stop <;> rfl
      | ok given =>
        rw [Except.map, World.resume, outcome_andThen, Action.trace_outcome h]
        rfl
    | _ => rfl

theorem traceStep_outcome (host : Host κ) (h : tracer.Traces eval) :
    (traceStep host tracer).Traces (step host eval) := by
  intro pending source form w
  cases form with
  | atom a =>
    rw [traceStep, step, outcome_see]
    cases a.value source w.context.arena with
    | error stop => cases stop <;> rfl
    | ok v => rfl
  | call operator items span =>
    rw [traceStep, step, outcome_see]
    split
    · rfl
    · rw [outcome_ending, traceDispatch_outcome host h]
      rfl

theorem traceWithin_outcome (host : Host κ) (bound : Nat) :
    (traceWithin host bound).Traces (evalWithin host bound) := by
  induction bound with
  | zero => exact fun _ _ _ _ => rfl
  | succ bound ih => exact traceStep_outcome host ih

end Form

theorem World.trace_outcome (host : Host κ) (w : World κ) (pending : List Pending) (p : Program) :
    (w.trace host pending p).outcome = w.run host p := by
  unfold World.trace World.run
  cases p.body with
  | error fault => rfl
  | ok form => exact Form.traceWithin_outcome host _ pending p.source form w

theorem World.traceAt_outcome (host : Host κ) (w : World κ) (pending : List Pending) (x : Operand)
    (place : Place κ) : (w.traceAt host pending x place).outcome = w.forceAt host x place :=
  w.traceForce_outcome (Form.traceWithin_outcome host _) pending x place

end Outcomes

/-! ## Steps from stage to stage -/

namespace Stage

/-- What can happen to a world and to what is in progress. In contrast to the steps of a moment,
nothing is asked of the handles that are used. -/
inductive Step : Stage κ → Stage κ → Prop
  | hostData {w : World κ} {pending : List Pending} (host : HostData) (identity : Nat) :
    Step ⟨w, pending⟩ ⟨{ w with host, nextIdentity := identity }, pending⟩
  | define {w : World κ} {pending : List Pending} (id : String) (v : Value κ) :
    Step ⟨w, pending⟩ ⟨w.withArena (w.context.arena.define id v), pending⟩
  | derive {w : World κ} {pending : List Pending} {env : Environment κ} {s : ScopeId} {a : Arena κ}
    (h : w.context.arena.push w.context.arena.active env = .ok (s, a)) :
    Step ⟨w, pending⟩ ⟨w.withArena a, pending⟩
  | openScope {w : World κ} {pending : List Pending} {parent s : ScopeId} {env : Environment κ}
    {a : Arena κ} (h : w.context.arena.push parent env = .ok (s, a)) :
    Step ⟨w, pending⟩ ⟨w.withArena a, .release w.context.arena.size :: pending⟩
  | closeScope {w : World κ} {pending : List Pending} (held : List Operand) (mark : Nat) :
    Step ⟨w, .release mark :: pending⟩
      ⟨w.withArena (w.context.arena.release w.context.id held mark), pending⟩
  | activate {w : World κ} {pending : List Pending} {s : ScopeId} {a : Arena κ}
    (h : w.context.arena.activate s = .ok a) :
    Step ⟨w, pending⟩ ⟨w.withArena a, .restore w.context.arena.active :: pending⟩
  | restore {w : World κ} {pending : List Pending} {s : ScopeId} {a : Arena κ}
    (h : w.context.arena.activate s = .ok a) :
    Step ⟨w, .restore s :: pending⟩ ⟨w.withArena a, pending⟩
  | enter {w : World κ} {pending : List Pending} (h : w.context.depth < w.context.maxDepth) :
    Step ⟨w, pending⟩ ⟨w.enter, .leave :: pending⟩
  | leave {w : World κ} {pending : List Pending} : Step ⟨w, .leave :: pending⟩ ⟨w.leave, pending⟩

abbrev Reaches : Stage κ → Stage κ → Prop := Relation.ReflTransGen Step

/-- What each step keeps is kept on the way. -/
theorem Reaches.keeps {P : Stage κ → Prop} {st st' : Stage κ} (h : st.Reaches st')
    (hstep : ∀ {st st'}, Step st st' → P st → P st') (hst : P st) : P st' := by
  induction h with
  | refl => exact hst
  | tail _ hlast ih => exact hstep hlast ih

end Stage

def Moment.stage (m : Moment κ) : Stage κ := ⟨m.world, m.pending⟩

theorem Moment.Step.stage {m m' : Moment κ} (h : m.Step m') : m.stage.Step m'.stage := by
  obtain ⟨w, held, pending, log⟩ := m
  cases h with
  | handles host identity held h => exact .hostData host identity
  | define id hv => exact .define id _
  | derive henv h => exact .derive h
  | openScope henv h => exact .openScope h
  | closeScope h =>
    cases h
    exact .closeScope _ _
  | activate h => exact .activate h
  | restore h ha =>
    cases h
    exact .restore ha
  | enter h => exact .enter h
  | leave h =>
    cases h
    exact .leave

/-- What a call does in the end is a step. -/
theorem Pending.finish_step {p : Pending} {r r' : Reply κ} {w w' : World κ}
    (h : p.finish r w = .reply r' w') (pending : List Pending) :
    Stage.Step ⟨w, p :: pending⟩ ⟨w', pending⟩ := by
  cases p with
  | release mark =>
    cases h
    exact .closeScope _ mark
  | restore s =>
    rw [Pending.finish] at h
    cases ha : w.context.arena.activate s with
    | error dead =>
      rw [ha] at h
      cases h
    | ok a =>
      rw [ha] at h
      cases h
      exact .restore ha
  | leave =>
    cases h
    exact .leave

/-! ## Evaluations proceed by steps -/

/-- The evaluation goes on from the stage by steps alone, and comes back to what was in progress
there. What ends on the way began on the way. -/
structure Traced.Proceeds (st : Stage κ) (t : Traced κ) : Prop where
  sights : ∀ s ∈ t.sights, st.Reaches s.toStage
  reply : ∀ r w, t.outcome = .reply r w → st.Reaches ⟨w, st.pending⟩
  around : ∀ s ∈ t.sights, st.pending <:+ s.around

namespace Traced.Proceeds

variable {st st' : Stage κ} {t : Traced κ} {w : World κ} {pending : List Pending}

theorem ofReply (r : Reply κ) (w : World κ) (pending : List Pending) :
    (ofOutcome (.reply r w)).Proceeds ⟨w, pending⟩ where
  sights := List.forall_mem_nil _
  reply := by
    intro r' w' h
    cases h
    exact .refl
  around := List.forall_mem_nil _

theorem ofAbort (a : Abort) (st : Stage κ) : (ofOutcome (.abort a)).Proceeds st where
  sights := List.forall_mem_nil _
  reply := by
    intro r w h
    cases h
  around := List.forall_mem_nil _

theorem see (h : t.Proceeds st) {event : Event κ} (hevent : event.isEnd = false) :
    (see event st t).Proceeds st where
  sights := List.forall_mem_cons.mpr ⟨.refl, h.sights⟩
  reply := h.reply
  around := by
    refine List.forall_mem_cons.mpr ⟨?_, h.around⟩
    -- At an end the innermost call would be left out of what is around.
    cases event with
    | begins | refuses | acts => exact List.suffix_refl _
    | ends r => cases hevent

/-- A step comes before, which begins and ends nothing. -/
theorem after (h : t.Proceeds st') (hstep : st.Step st') (hpending : st'.pending = st.pending) :
    t.Proceeds st where
  sights := fun s hs => .head hstep (h.sights s hs)
  reply := fun r w hr => .head hstep (hpending ▸ h.reply r w hr)
  around := fun s hs => hpending ▸ h.around s hs

theorem andThen {next : Reply κ → World κ → Traced κ} (h : t.Proceeds st)
    (hnext : ∀ r w, (next r w).Proceeds ⟨w, st.pending⟩) : (t.andThen next).Proceeds st := by
  unfold Traced.andThen
  split
  next r w hr =>
    have hmiddle := h.reply r w hr
    refine ⟨fun s hs => ?_, fun r' w' hr' => ?_, fun s hs => ?_⟩
    · rcases List.mem_append.mp hs with hs | hs
      · exact h.sights s hs
      · exact hmiddle.trans ((hnext r w).sights s hs)
    · exact hmiddle.trans ((hnext r w).reply r' w' hr')
    · rcases List.mem_append.mp hs with hs | hs
      · exact h.around s hs
      · exact (hnext r w).around s hs
  · refine ⟨h.sights, fun r w hr => ?_, h.around⟩
    cases hr

theorem answered {α : Type} {answer : Except ScopeId α} {next : α → Traced κ}
    (hnext : ∀ a, answer = .ok a → (next a).Proceeds st) : (answered answer next).Proceeds st := by
  cases answer with
  | error s => exact ofAbort (.notLive s) st
  | ok a => exact hnext a rfl

theorem resume {α : Type} {answer : Except Stop α} {next : α → Traced κ}
    (hnext : ∀ a, (next a).Proceeds ⟨w, pending⟩) :
    (w.resume answer next).Proceeds ⟨w, pending⟩ := by
  cases answer with
  | error stop =>
    cases stop with
    | error e => exact ofReply (.error e) w pending
    | abort a => exact ofAbort a _
  | ok a => exact hnext a

/-- A call begins with a step, proceeds, and ends. -/
theorem ending {p : Pending} (hstep : st.Step ⟨w, p :: st.pending⟩)
    (h : t.Proceeds ⟨w, p :: st.pending⟩) : (t.ending p st.pending).Proceeds st := by
  have hsights : ∀ s ∈ t.sights, st.pending <:+ s.around :=
    fun s hs => .trans (List.suffix_cons p st.pending) (h.around s hs)
  unfold Traced.ending Traced.andThen
  split
  next r u hr =>
    -- The end is seen while the call is still in progress. Leaving it is one more step.
    have hend : st.Reaches ⟨u, p :: st.pending⟩ := .head hstep (h.reply r u hr)
    refine ⟨fun s hs => ?_, fun r' u' hr' => ?_, fun s hs => ?_⟩
    · rcases List.mem_append.mp hs with hs | hs
      · exact .head hstep (h.sights s hs)
      · cases List.mem_singleton.mp hs
        exact hend
    · exact hend.tail (Pending.finish_step hr' st.pending)
    · rcases List.mem_append.mp hs with hs | hs
      · exact hsights s hs
      · cases List.mem_singleton.mp hs
        exact List.suffix_refl _
  · refine ⟨fun s hs => .head hstep (h.sights s hs), fun r u hr => ?_, hsights⟩
    cases hr

end Traced.Proceeds

def Tracer.Proceeds (tracer : Tracer κ) : Prop :=
  ∀ pending source form w, (tracer pending source form w).Proceeds ⟨w, pending⟩

section Runs

variable {tracer : Tracer κ}

theorem World.traceChild_proceeds (w : World κ) (pending : List Pending) (parent : ScopeId)
    (env : Environment κ) {body : List Pending → ScopeId → World κ → Traced κ}
    (hbody : ∀ pending s u, (body pending s u).Proceeds ⟨u, pending⟩) :
    (w.traceChild pending parent env body).Proceeds ⟨w, pending⟩ :=
  .answered fun _ hpush => .ending (.openScope hpush) (hbody _ _ _)

theorem World.traceIn_proceeds (h : tracer.Proceeds) (w : World κ) (pending : List Pending)
    (x : Operand) (s : ScopeId) : (w.traceIn tracer pending x s).Proceeds ⟨w, pending⟩ := by
  unfold World.traceIn
  dsimp only
  split
  · exact .ofAbort _ _
  · exact .answered fun arena ha => .ending (.activate ha) (h _ _ _ _)

theorem World.traceForce_proceeds (h : tracer.Proceeds) (w : World κ) (pending : List Pending)
    (x : Operand) (place : Place κ) :
    (w.traceForce tracer pending x place).Proceeds ⟨w, pending⟩ := by
  cases place with
  | own => exact w.traceIn_proceeds h pending x x.scope
  | layered env =>
    rw [World.traceForce]
    split
    · exact .ofAbort _ _
    · exact w.traceChild_proceeds pending x.scope env fun pending' s u =>
        u.traceIn_proceeds h pending' x s
  | scope s => exact w.traceIn_proceeds h pending x s

/-- Whatever a procedure asks for takes steps alone. -/
theorem Action.trace_proceeds (h : tracer.Proceeds) (a : Action κ) (pending : List Pending)
    (w : World κ) : (a.trace tracer pending w).Proceeds ⟨w, pending⟩ := by
  induction a generalizing pending w with
  | done v | fail e =>
    rw [Action.trace]
    exact .see (.ofReply _ w pending) rfl
  | force x place next ih =>
    rw [Action.trace]
    refine .see ?_ rfl
    exact .andThen (w.traceForce_proceeds h pending x place) fun r u => ih r pending u
  | lookup id next ih | lookupFrom s id next ih | lookupLocal id next ih
  | lookupOuter id next ih =>
    rw [Action.trace]
    refine .see ?_ rfl
    exact .answered fun v _ => ih _ pending w
  | define id v next ih =>
    rw [Action.trace]
    refine .see ?_ rfl
    exact (ih pending _).after (.define id v) rfl
  | derive env next ih =>
    rw [Action.trace]
    refine .see ?_ rfl
    exact .answered fun opened hpush => (ih opened.1 pending _).after (.derive hpush) rfl
  | withDerived env body next ihbody ihnext =>
    rw [Action.trace]
    refine .see ?_ rfl
    -- The body has the release of its scope in progress around it, and what comes next has not.
    refine .andThen (w.traceChild_proceeds pending _ env fun pending' s u => ?_) fun r u => ?_
    · exact ihbody s pending' u
    · exact ihnext _ r pending u
  | activeScope next ih | scopeCount next ih | maxDepth next ih | hasData next ih =>
    rw [Action.trace]
    refine .see ?_ rfl
    exact ih _ pending w
  | tick next ih | fresh next ih =>
    rw [Action.trace]
    refine .see ?_ rfl
    exact (ih _ pending _).after (.hostData _ _) rfl
  | emit line next ih | capture name x next ih =>
    rw [Action.trace]
    refine .see ?_ rfl
    exact (ih pending _).after (.hostData _ _) rfl

namespace Form

theorem traceDispatch_proceeds (host : Host κ) (h : tracer.Proceeds) (pending : List Pending)
    (source : Source) (operator : Name) (items : List Item) (span : Text.Span) (w : World κ) :
    (traceDispatch host tracer pending source operator items span w).Proceeds ⟨w, pending⟩ :=
  .resume fun a => .andThen (a.trace_proceeds h pending w) fun _ u => .ofReply _ u pending

theorem traceStep_proceeds (host : Host κ) (h : tracer.Proceeds) :
    (traceStep host tracer).Proceeds := by
  intro pending source form w
  cases form with
  | atom a => exact .see (.resume fun v => .ofReply _ w pending) rfl
  | call operator items span =>
    rw [traceStep]
    refine .see ?_ rfl
    split
    · exact .see (.ofReply _ w pending) rfl
    next hroom =>
      exact .ending (.enter (Nat.lt_of_not_le hroom)) (traceDispatch_proceeds host h _ _ _ _ _ _)

theorem traceWithin_proceeds (host : Host κ) (bound : Nat) :
    (traceWithin host bound).Proceeds := by
  induction bound with
  | zero => exact fun _ _ _ _ => .ofAbort _ _
  | succ bound ih => exact traceStep_proceeds host ih

end Form

theorem World.trace_proceeds (host : Host κ) (w : World κ) (pending : List Pending) (p : Program) :
    (w.trace host pending p).Proceeds ⟨w, pending⟩ := by
  unfold World.trace
  split
  · exact .ofAbort _ _
  · exact Form.traceWithin_proceeds host _ pending _ _ w

theorem World.traceAt_proceeds (host : Host κ) (w : World κ) (pending : List Pending) (x : Operand)
    (place : Place κ) : (w.traceAt host pending x place).Proceeds ⟨w, pending⟩ :=
  w.traceForce_proceeds (Form.traceWithin_proceeds host _) pending x place

end Runs

end Fexpr
