import Fexpr.Behaviour
import Fexpr.Proofs.Eval.Bracketing
import Fexpr.Proofs.Eval.Trace
import Mathlib.Logic.ExistsUnique

/-!
# The depth of calls

The depth of a context is at every moment the number of calls in progress in it, and never above the
limit (`Stage.Counted`). A step keeps it so, whoever takes it.

What bounds an evaluation is this depth and nothing else: the syntax does not, since a procedure can
evaluate an operand that it was not called with, even the one that it is called from. Each call goes
one deeper, and below the limit there is no call. So an evaluation that may go deeper than the limit
allows does not make use of it (`Form.evalWithin_settlesAt`), and the equations of evaluation, in
which no bound occurs, have one solution (`Form.existsUnique_step_eq`).
-/

namespace Fexpr

variable {κ : Type}

/-! ## Counting calls -/

/-- How many calls of procedures are in progress. -/
def Pending.calls : List Pending → Nat
  | [] => 0
  | .leave :: pending => calls pending + 1
  | .release _ :: pending => calls pending
  | .restore _ :: pending => calls pending

/-- The depth of the context counts the calls in progress. -/
structure Stage.Counted (st : Stage κ) : Prop where
  depth_eq : st.world.context.depth = Pending.calls st.pending
  depth_le : st.world.context.depth ≤ st.world.context.maxDepth
  /-- A call that is about to be left was counted. -/
  depth_pos : ∀ pending, st.pending = .leave :: pending → 0 < st.world.context.depth

namespace Stage

theorem Counted.intro {w : World κ} {pending : List Pending}
    (heq : w.context.depth = Pending.calls pending) (hle : w.context.depth ≤ w.context.maxDepth) :
    Counted ⟨w, pending⟩ := by
  refine ⟨heq, hle, fun rest hrest => ?_⟩
  obtain rfl : pending = .leave :: rest := hrest
  have hdepth : w.context.depth = Pending.calls rest + 1 := heq
  exact hdepth ▸ Nat.succ_pos _

theorem Step.counted {st st' : Stage κ} (h : Step st st') (hst : st.Counted) : st'.Counted := by
  obtain ⟨heq, hle, -⟩ := hst
  cases h with
  | enter hroom => exact .intro (congrArg (· + 1) heq) hroom
  | @leave w pending =>
    have heq : w.context.depth = Pending.calls pending + 1 := heq
    have hle : w.context.depth ≤ w.context.maxDepth := hle
    refine .intro ?_ ?_
    · show w.context.depth - 1 = Pending.calls pending
      omega
    · show w.context.depth - 1 ≤ w.context.maxDepth
      omega
  | hostData | define | derive | openScope | closeScope | activate | restore => exact .intro heq hle

end Stage

theorem Moment.Reachable.counted {m : Moment κ} (h : m.Reachable) : m.stage.Counted := by
  obtain ⟨new, ms, ⟨id, env, maxDepth, data, hcontext, -, hpending, -⟩, hrun⟩ := h
  have hnew : new.stage.Counted := by
    refine .intro ?_ ?_
    · rw [hcontext, hpending]
      rfl
    · rw [hcontext]
      exact Nat.zero_le _
  exact hrun.forall_mem hnew (fun hstep => hstep.stage.counted) m hrun.last_mem

theorem Traced.Proceeds.counted {st : Stage κ} {t : Traced κ} (h : t.Proceeds st)
    (hst : st.Counted) : ∀ s ∈ t.sights, s.toStage.Counted :=
  fun s hs => (h.sights s hs).keeps Stage.Step.counted hst

/-! ## The bound of an evaluation -/

/-- The outcomes are the same, and no bound is to blame for them. -/
structure Outcome.Settles (o o' : Outcome κ) : Prop where
  eq : o = o'
  ne_exhausted : o' ≠ .abort .exhausted

namespace Outcome.Settles

theorem reply (r : Reply κ) (w : World κ) : Settles (.reply r w) (.reply r w) :=
  ⟨rfl, fun h => nomatch h⟩

theorem notLive (s : ScopeId) : Settles (.abort (.notLive s) : Outcome κ) (.abort (.notLive s)) :=
  ⟨rfl, fun h => nomatch h⟩

theorem foreignOperand (text : String) :
    Settles (.abort (.foreignOperand text) : Outcome κ) (.abort (.foreignOperand text)) :=
  ⟨rfl, fun h => nomatch h⟩

theorem andThen {o o' : Outcome κ} {next next' : Reply κ → World κ → Outcome κ} (h : o.Settles o')
    (hnext : ∀ r w, o' = .reply r w → (next r w).Settles (next' r w)) :
    (o.andThen next).Settles (o'.andThen next') := by
  obtain ⟨rfl, hne⟩ := h
  cases o with
  | reply r w => exact hnext r w rfl
  | abort a => exact ⟨rfl, hne⟩

theorem answered {α : Type} {answer : Except ScopeId α} {next next' : α → Outcome κ}
    (hnext : ∀ a, answer = .ok a → (next a).Settles (next' a)) :
    (Action.answered answer next).Settles (Action.answered answer next') := by
  cases answer with
  | error s => exact notLive s
  | ok a => exact hnext a rfl

end Outcome.Settles

/-- The world has the given limit and depth. -/
structure World.At (limit depth : Nat) (w : World κ) : Prop where
  maxDepth : w.context.maxDepth = limit
  depth : w.context.depth = depth

theorem World.At.after {limit depth : Nat} {w w' : World κ} (h : w.At limit depth)
    (hw : w.Bracketed w') : w'.At limit depth :=
  ⟨hw.maxDepth.trans h.maxDepth, hw.depth.trans h.depth⟩

/-- In worlds of the given limit and depth the evaluators agree, and do not run out of bounds. -/
def Evaluator.SettlesAt (limit depth : Nat) (eval eval' : Evaluator κ) : Prop :=
  ∀ source form (w : World κ), w.At limit depth → (eval source form w).Settles (eval' source form w)

section Settling

open Outcome

variable {limit depth : Nat} {eval eval' : Evaluator κ} {w : World κ}

theorem World.At.withChild_settles (hw : w.At limit depth) (parent : ScopeId)
    (env : Environment κ) {body body' : ScopeId → World κ → Outcome κ}
    (hbody : ∀ s (u : World κ), u.At limit depth → (body s u).Settles (body' s u)) :
    (w.withChild parent env body).Settles (w.withChild parent env body') := by
  unfold World.withChild
  dsimp only
  split
  · exact .notLive _
  · exact .andThen (hbody _ _ ⟨hw.maxDepth, hw.depth⟩) fun r u _ => .reply r _

theorem World.At.evalIn_settles (hw : w.At limit depth) (h : eval.SettlesAt limit depth eval')
    (x : Operand) (s : ScopeId) : (w.evalIn eval x s).Settles (w.evalIn eval' x s) := by
  unfold World.evalIn
  split
  · exact .foreignOperand _
  · split
    · exact .notLive _
    · refine .andThen (h _ _ _ ⟨hw.maxDepth, hw.depth⟩) fun r u _ => ?_
      split
      · exact .notLive _
      · exact .reply r _

theorem World.At.force_settles (hw : w.At limit depth) (h : eval.SettlesAt limit depth eval')
    (x : Operand) (place : Place κ) : (w.force eval x place).Settles (w.force eval' x place) := by
  cases place with
  | own => exact hw.evalIn_settles h x x.scope
  | layered env =>
    rw [World.force, World.force, World.evalLayered, World.evalLayered]
    split
    · exact .foreignOperand _
    · exact hw.withChild_settles x.scope env fun s u hu => hu.evalIn_settles h x s
  | scope s => exact hw.evalIn_settles h x s

/-- Every operand that a procedure evaluates is evaluated at the same depth. -/
theorem Action.run_settles (h : eval.SettlesAt limit depth eval') (hbrackets : eval'.Brackets)
    (a : Action κ) (hw : w.At limit depth) : (a.run eval w).Settles (a.run eval' w) := by
  induction a generalizing w with
  | done v | fail e => exact .reply _ w
  | force x place next ih =>
    rw [Action.run, Action.run]
    -- The evaluation of the operand is bracketed, so the action goes on at the depth it had.
    refine .andThen (hw.force_settles h x place) fun r u hu => ih r ?_
    exact hw.after (w.force_brackets hbrackets x place r u hu)
  | lookup id next ih | lookupFrom s id next ih | lookupLocal id next ih
  | lookupOuter id next ih =>
    rw [Action.run, Action.run]
    exact .answered fun v _ => ih _ hw
  | derive env next ih =>
    rw [Action.run, Action.run]
    exact .answered fun opened _ => ih _ ⟨hw.maxDepth, hw.depth⟩
  | withDerived env body next ihbody ihnext =>
    rw [Action.run, Action.run]
    refine .andThen (hw.withChild_settles _ env fun s u hu => ihbody s hu) fun r u hu => ?_
    refine ihnext _ r (hw.after (w.withChild_brackets _ env (fun s v => ?_) r u hu))
    exact Action.run_brackets hbrackets (body s) v
  | activeScope next ih | scopeCount next ih | maxDepth next ih | hasData next ih | tick next ih
  | fresh next ih =>
    rw [Action.run, Action.run]
    exact ih _ ⟨hw.maxDepth, hw.depth⟩
  | define id v next ih | emit line next ih | capture name x next ih =>
    rw [Action.run, Action.run]
    exact ih ⟨hw.maxDepth, hw.depth⟩

namespace Form

variable {host : Host κ}

/-- Looking up and decoding give up only if a scope is gone. -/
theorem Name.exists_of_value_abort {source : Source} {arena : Arena κ} {n : Name} {a : Abort}
    (h : n.value source arena = .error (.abort a)) : ∃ s, a = .notLive s := by
  unfold Name.value at h
  split at h
  next s _ =>
    cases h
    exact ⟨s, rfl⟩
  · cases h
  · cases h

theorem Atom.exists_of_value_abort {source : Source} {arena : Arena κ} {atom : Atom} {a : Abort}
    (h : atom.value source arena = .error (.abort a)) : ∃ s, a = .notLive s := by
  have hreply : ∀ r : Reply κ, r.mapError Stop.error ≠ .error (.abort a) := by
    intro r h
    cases r <;> cases h
  cases atom with
  | literal l => exact absurd h (hreply _)
  | name n => exact n.exists_of_value_abort h
  | path base attributes span =>
    rw [Atom.value] at h
    split at h
    next stop hstop =>
      cases h
      exact base.exists_of_value_abort hstop
    · exact absurd h (hreply _)

theorem exists_of_collect_abort {source : Source} {c : Context κ} {items : List Item}
    {given : Call κ} {a : Abort} (h : collect source c items given = .error (.abort a)) :
    ∃ s, a = .notLive s := by
  induction items generalizing given with
  | nil => cases h
  | cons item items ih =>
    cases item with
    | operand f => exact ih h
    | option key chosen =>
      rw [collect] at h
      split at h
      next stop hstop =>
        cases h
        exact chosen.exists_of_value_abort hstop
      · exact ih h

theorem dispatch_settles (h : eval.SettlesAt limit depth eval') (hbrackets : eval'.Brackets)
    (source : Source) (operator : Name) (items : List Item) (span : Text.Span)
    (hw : w.At limit depth) :
    (dispatch host eval source operator items span w).Settles
      (dispatch host eval' source operator items span w) := by
  unfold dispatch
  split
  next a ha =>
    obtain ⟨s, rfl⟩ := operator.exists_of_value_abort ha
    exact .notLive s
  · exact .reply _ w
  · split
    next a ha =>
      obtain ⟨s, rfl⟩ := exists_of_collect_abort ha
      exact .notLive s
    · exact .reply _ w
    · exact .andThen (Action.run_settles h hbrackets _ hw) fun r u _ => .reply _ u
  · exact .reply _ w

/-- A call takes the operands of its procedure one deeper, if it is not refused. -/
theorem step_settlesAt
    (h : depth < limit → eval.SettlesAt limit (depth + 1) eval') (hbrackets : eval'.Brackets) :
    Evaluator.SettlesAt limit depth (step host eval) (step host eval') := by
  intro source form w hw
  cases form with
  | atom a =>
    rw [step, step]
    split
    next abort ha =>
      obtain ⟨s, rfl⟩ := a.exists_of_value_abort ha
      exact .notLive s
    · exact .reply _ w
    · exact .reply _ w
  | call operator items span =>
    rw [step, step]
    split
    · exact .reply _ w
    next hroom =>
      have hroom : depth < limit := by
        rw [hw.maxDepth, hw.depth] at hroom
        omega
      have henter : w.enter.At limit (depth + 1) := ⟨hw.maxDepth, congrArg (· + 1) hw.depth⟩
      refine .andThen (dispatch_settles (h hroom) hbrackets source operator items span henter) ?_
      exact fun r u _ => .reply r _

/-- A bound that is above what the limit leaves makes no difference. -/
theorem evalWithin_settlesAt (host : Host κ) {bound bound' : Nat} (hbound : limit - depth < bound)
    (hbound' : limit - depth < bound') :
    Evaluator.SettlesAt limit depth (evalWithin host bound) (evalWithin host bound') := by
  -- A call takes one from either bound and one from what the limit leaves.
  induction bound generalizing depth bound' with
  | zero => omega
  | succ bound ih =>
    cases bound' with
    | zero => omega
    | succ bound' =>
      refine step_settlesAt (fun hroom => ?_) (evalWithin_brackets host bound')
      exact ih (by omega) (by omega)

/-- What satisfies the equations of evaluation evaluates as far as any bound. -/
theorem settlesAt_of_step_eq {eval : Evaluator κ} (heval : eval = step host eval) {bound : Nat}
    (hbound : limit - depth < bound) :
    Evaluator.SettlesAt limit depth eval (evalWithin host bound) := by
  induction bound generalizing depth with
  | zero => omega
  | succ bound ih =>
    have hstep : Evaluator.SettlesAt limit depth (step host eval) (evalWithin host (bound + 1)) :=
      step_settlesAt (fun hroom => ih (by omega)) (evalWithin_brackets host bound)
    -- The equation is used once for each call that may be entered, and no further.
    rw [heval]
    exact hstep

/-- The equations of evaluation have one solution. -/
theorem existsUnique_step_eq (host : Host κ) : ∃! eval : Evaluator κ, eval = step host eval := by
  refine ⟨fun source form w => w.evaluator host source form w, ?_, fun eval heval => ?_⟩
  · funext source form w
    -- The evaluator has its bound from the world, and below a call the world is another one.
    refine (step_settlesAt (fun hroom source form u hu => ?_) (evalWithin_brackets host _)
      source form w ⟨rfl, rfl⟩).eq.symm
    refine evalWithin_settlesAt host ?_ ?_ source form u hu
    · rw [hu.maxDepth, hu.depth]
      omega
    · omega
  · funext source form w
    exact (settlesAt_of_step_eq heval (Nat.lt_succ_self _) source form w ⟨rfl, rfl⟩).eq

end Form

theorem World.run_ne_exhausted (host : Host κ) (w : World κ) (p : Program) :
    w.run host p ≠ .abort .exhausted := by
  unfold World.run
  split
  · intro h
    cases h
  · exact (Form.evalWithin_settlesAt host (Nat.lt_succ_self _) (Nat.lt_succ_self _) _ _ w
      ⟨rfl, rfl⟩).ne_exhausted

theorem World.forceAt_ne_exhausted (host : Host κ) (w : World κ) (x : Operand) (place : Place κ) :
    w.forceAt host x place ≠ .abort .exhausted :=
  (World.At.force_settles ⟨rfl, rfl⟩
    (Form.evalWithin_settlesAt host (Nat.lt_succ_self _) (Nat.lt_succ_self _)) x place).ne_exhausted

end Settling

/-- The depth counts the calls in progress and bounds every evaluation.

At every moment that can be reached, and at every sight of an evaluation that starts with a correct
count, the depth is the number of calls in progress and not above the limit, and a call that is left
was counted. This holds for any procedures, also for those that evaluate operands that they keep.

An action is a finite branch of requests for every way in which it is answered. Under that condition
alone no evaluation goes on for ever: no bound of the recursion is ever met, a larger one changes
nothing, and the equations of evaluation, which have none, determine the evaluator. -/
theorem depth_counts_calls (host : Host κ) :
    (∀ m : Moment κ, m.Reachable → m.stage.Counted) ∧
    (∀ (w : World κ) (pending : List Pending), Stage.Counted ⟨w, pending⟩ →
      (∀ p, (w.trace host pending p).outcome = w.run host p ∧
        ∀ s ∈ (w.trace host pending p).sights, s.toStage.Counted) ∧
      ∀ x place, (w.traceAt host pending x place).outcome = w.forceAt host x place ∧
        ∀ s ∈ (w.traceAt host pending x place).sights, s.toStage.Counted) ∧
    (∀ w : World κ, (∀ p, w.run host p ≠ .abort .exhausted) ∧
      (∀ x place, w.forceAt host x place ≠ .abort .exhausted) ∧
      ∀ bound, w.context.maxDepth - w.context.depth < bound → ∀ source form,
        Form.evalWithin host bound source form w = w.evaluator host source form w) ∧
    ∃! eval : Evaluator κ, eval = Form.step host eval := by
  refine ⟨fun m hm => hm.counted, fun w pending hw => ⟨fun p => ?_, fun x place => ?_⟩,
    fun w => ⟨w.run_ne_exhausted host, w.forceAt_ne_exhausted host, ?_⟩,
    Form.existsUnique_step_eq host⟩
  · exact ⟨w.trace_outcome host pending p, (w.trace_proceeds host pending p).counted hw⟩
  · exact ⟨w.traceAt_outcome host pending x place,
      (w.traceAt_proceeds host pending x place).counted hw⟩
  · intro bound hbound source form
    exact (Form.evalWithin_settlesAt host hbound (Nat.lt_succ_self _) source form w ⟨rfl, rfl⟩).eq

/-- A call of `F`. -/
def Operand.reentrant : Operand :=
  ⟨⟨"script", "(F)"⟩, .call ⟨"F", ⟨1, 2⟩⟩ [] ⟨0, 3⟩, .root, 0⟩

/-- `F` keeps the call that it is called by. -/
def World.reentrant : World Unit :=
  ⟨Context.new 0 (Bindings.ofList [("F", .procedure ⟨0, (), [.reentrant]⟩)]) 3 .absent, .fresh, 0⟩

/-- Procedures evaluate what they keep, one operand after the other, and fail at last. -/
def Host.reenter : Host Unit := fun p _ =>
  p.captured.foldr (fun x next => .force x .own fun _ => next) (.failWith "nothing left")

/-- A call that enters itself is refused when the limit is reached, with three calls in progress. -/
theorem depth_counts_calls_reentrant :
    ∃ s ∈ (World.reentrant.traceAt .reenter [] .reentrant .own).sights,
      s.event = .refuses ⟨"script", "(F)"⟩ ⟨0, 3⟩ ∧ Pending.calls s.pending = 3 ∧
        s.toStage.Counted := by
  have hrefused : ∃ s ∈ (World.reentrant.traceAt .reenter [] .reentrant .own).sights,
      s.event = .refuses ⟨"script", "(F)"⟩ ⟨0, 3⟩ ∧ Pending.calls s.pending = 3 :=
    ⟨_, List.mem_of_getElem? (i := 7) rfl, rfl, rfl⟩
  have hstart : Stage.Counted ⟨World.reentrant, []⟩ := .intro rfl (Nat.zero_le _)
  obtain ⟨s, hs, hevent, hcalls⟩ := hrefused
  obtain ⟨-, hsights, -⟩ := depth_counts_calls Host.reenter
  obtain ⟨-, hforced⟩ := hsights World.reentrant [] hstart
  exact ⟨s, hs, hevent, hcalls, (hforced .reentrant .own).2 s hs⟩

end Fexpr
