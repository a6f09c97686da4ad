import Fexpr.Proofs.Eval.Depth

/-!
# A larger limit of calls

The limit of a context is looked at when a call is about to be entered, and by procedures that ask
for it. If they do not, and no call is refused, then the evaluation does not find out what the limit
is: with a larger one everything that is seen of it is the same, from the first sight to the last
(`limit_unnoticed`).

Two evaluations are compared by `Traced.Widens`, which is closed under all that an evaluation is
made of.
-/

namespace Fexpr

variable {κ : Type}

/-! ## Procedures that do not ask for the limit -/

/-- The action does not ask how many calls may be in progress, whatever it is answered. -/
def Action.IgnoresLimit : Action κ → Prop
  | done _ => True
  | fail _ => True
  | force _ _ next => ∀ r, IgnoresLimit (next r)
  | lookup _ next => ∀ v, IgnoresLimit (next v)
  | lookupFrom _ _ next => ∀ v, IgnoresLimit (next v)
  | lookupLocal _ next => ∀ v, IgnoresLimit (next v)
  | lookupOuter _ next => ∀ v, IgnoresLimit (next v)
  | define _ _ next => IgnoresLimit next
  | derive _ next => ∀ s, IgnoresLimit (next s)
  | withDerived _ body next => (∀ s, IgnoresLimit (body s)) ∧ ∀ s r, IgnoresLimit (next s r)
  | activeScope next => ∀ s, IgnoresLimit (next s)
  | scopeCount next => ∀ n, IgnoresLimit (next n)
  | maxDepth _ => False
  | hasData next => ∀ b, IgnoresLimit (next b)
  | tick next => ∀ n, IgnoresLimit (next n)
  | emit _ next => IgnoresLimit next
  | capture _ _ next => IgnoresLimit next
  | fresh next => ∀ i, IgnoresLimit (next i)

def Host.IgnoresLimit (host : Host κ) : Prop := ∀ p call, (host p call).IgnoresLimit

/-! ## Worlds with another limit -/

def World.withLimit (limit : Nat) (w : World κ) : World κ :=
  { w with context := { w.context with maxDepth := limit } }

@[simp] theorem World.arena_withLimit (limit : Nat) (w : World κ) :
    (w.withLimit limit).context.arena = w.context.arena := rfl

def Outcome.withLimit (limit : Nat) : Outcome κ → Outcome κ
  | reply r w => reply r (w.withLimit limit)
  | abort a => abort a

def Stage.withLimit (limit : Nat) (st : Stage κ) : Stage κ := ⟨st.world.withLimit limit, st.pending⟩

/-- The same evaluation in a context of another limit: every event is the same, and so is every
world but for the limit. -/
def Traced.withLimit (limit : Nat) (t : Traced κ) : Traced κ :=
  ⟨t.sights.map fun s => ⟨s.toStage.withLimit limit, s.event⟩, t.outcome.withLimit limit⟩

def Event.isRefusal : Event κ → Bool
  | refuses _ _ => true
  | begins _ _ => false
  | acts _ => false
  | ends _ => false

/-- No call was refused. -/
def Traced.Unrefused (t : Traced κ) : Prop := ∀ s ∈ t.sights, s.event.isRefusal = false

instance (t : Traced κ) : Decidable t.Unrefused :=
  inferInstanceAs (Decidable (∀ s ∈ t.sights, s.event.isRefusal = false))

theorem Pending.finish_withLimit (limit : Nat) (p : Pending) (r : Reply κ) (w : World κ) :
    p.finish r (w.withLimit limit) = (p.finish r w).withLimit limit := by
  cases p with
  | release mark | leave => rfl
  | restore s =>
    rw [Pending.finish, Pending.finish]
    change Action.answered (w.context.arena.activate s) _ = _
    cases w.context.arena.activate s <;> rfl

/-- If no call is refused in `t`, then `t'` is the same evaluation with the limit. -/
def Traced.Widens (limit : Nat) (t t' : Traced κ) : Prop :=
  t.Unrefused → t' = t.withLimit limit

namespace Traced.Widens

variable {limit : Nat} {t t' : Traced κ}

theorem ofOutcome (o : Outcome κ) : Widens limit (ofOutcome o) (ofOutcome (o.withLimit limit)) :=
  fun _ => rfl

theorem see (event : Event κ) (st : Stage κ) (h : t.Widens limit t') :
    Widens limit (see event st t) (see event (st.withLimit limit) t') := by
  intro hfits
  have ht := h fun s hs => hfits s (List.mem_cons_of_mem _ hs)
  rw [ht]
  rfl

theorem andThen {next next' : Reply κ → World κ → Traced κ} (h : t.Widens limit t')
    (hnext : ∀ r w, t.outcome = .reply r w →
      (next r w).Widens limit (next' r (w.withLimit limit))) :
    (t.andThen next).Widens limit (t'.andThen next') := by
  obtain ⟨sights, outcome⟩ := t
  intro hfits
  cases outcome with
  | abort a =>
    rw [h hfits]
    rfl
  | reply r w =>
    -- What is refused on either part of the way is refused on the whole.
    have ht := h fun s hs => hfits s (List.mem_append_left _ hs)
    have hrest := hnext r w rfl fun s hs => hfits s (List.mem_append_right _ hs)
    have hthen : Traced.andThen (Traced.withLimit limit ⟨sights, .reply r w⟩) next' =
        ⟨(Traced.withLimit limit ⟨sights, .reply r w⟩).sights ++
          (next' r (w.withLimit limit)).sights, (next' r (w.withLimit limit)).outcome⟩ := rfl
    rw [ht, hthen, hrest]
    simp only [Traced.andThen, Traced.withLimit, List.map_append]

theorem answered {α : Type} (answer : Except ScopeId α) {next next' : α → Traced κ}
    (hnext : ∀ a, answer = .ok a → (next a).Widens limit (next' a)) :
    (answered answer next).Widens limit (answered answer next') := by
  cases answer with
  | error s => exact ofOutcome (.abort (.notLive s))
  | ok a => exact hnext a rfl

theorem resume {α : Type} (w : World κ) (answer : Except Stop α) {next next' : α → Traced κ}
    (hnext : ∀ a, answer = .ok a → (next a).Widens limit (next' a)) :
    (w.resume answer next).Widens limit ((w.withLimit limit).resume answer next') := by
  cases answer with
  | error stop =>
    cases stop with
    | error e => exact ofOutcome (.reply (.error e) w)
    | abort a => exact ofOutcome (.abort a)
  | ok a => exact hnext a rfl

/-- Both evaluate operands of the same context alone. -/
theorem owned (x : Operand) (w : World κ) (h : t.Widens limit t') :
    let gone := Traced.ofOutcome (.abort (.foreignOperand x.text))
    Widens limit (if x.owner ≠ w.context.id then gone else t)
      (if x.owner ≠ w.context.id then gone else t') := by
  dsimp only
  split
  · exact ofOutcome (.abort (.foreignOperand x.text))
  · exact h

theorem ending (p : Pending) (pending : List Pending) (h : t.Widens limit t') :
    (t.ending p pending).Widens limit (t'.ending p pending) := by
  refine andThen h fun r w _ => see (.ends r) ⟨w, p :: pending⟩ ?_
  rw [Pending.finish_withLimit]
  exact ofOutcome (p.finish r w)

end Traced.Widens

/-! ## Evaluations with a larger limit -/

/-- In worlds of the given limit and depth, unless a call is refused, the second evaluator does with
the limit `limit'` what the first one does. -/
def Tracer.WidensAt (limit depth limit' : Nat) (tracer tracer' : Tracer κ) : Prop :=
  ∀ pending source form (w : World κ), w.At limit depth →
    (tracer pending source form w).Widens limit' (tracer' pending source form (w.withLimit limit'))

section Widening

open Traced

variable {limit depth limit' : Nat} {tracer tracer' : Tracer κ} {w : World κ}

theorem World.At.traceChild_widens (hw : w.At limit depth) (pending : List Pending)
    (parent : ScopeId) (env : Environment κ)
    {body body' : List Pending → ScopeId → World κ → Traced κ}
    (hbody : ∀ pending s (u : World κ), u.At limit depth →
      (body pending s u).Widens limit' (body' pending s (u.withLimit limit'))) :
    (w.traceChild pending parent env body).Widens limit'
      ((w.withLimit limit').traceChild pending parent env body') :=
  .answered (w.context.arena.push parent env) fun _ _ =>
    .ending _ _ (hbody _ _ _ ⟨hw.maxDepth, hw.depth⟩)

theorem World.At.traceIn_widens (hw : w.At limit depth)
    (h : tracer.WidensAt limit depth limit' tracer') (pending : List Pending) (x : Operand)
    (s : ScopeId) :
    (w.traceIn tracer pending x s).Widens limit'
      ((w.withLimit limit').traceIn tracer' pending x s) := by
  refine .owned x w (.answered (w.context.arena.activate s) fun arena _ => .ending _ _ ?_)
  exact h _ _ _ (w.withArena arena) ⟨hw.maxDepth, hw.depth⟩

theorem World.At.traceForce_widens (hw : w.At limit depth)
    (h : tracer.WidensAt limit depth limit' tracer') (pending : List Pending) (x : Operand)
    (place : Place κ) :
    (w.traceForce tracer pending x place).Widens limit'
      ((w.withLimit limit').traceForce tracer' pending x place) := by
  cases place with
  | own => exact hw.traceIn_widens h pending x x.scope
  | layered env =>
    exact .owned x w (hw.traceChild_widens pending x.scope env fun pending' s u hu =>
      hu.traceIn_widens h pending' x s)
  | scope s => exact hw.traceIn_widens h pending x s

theorem Action.IgnoresLimit.trace_widens {eval : Evaluator κ}
    (h : tracer.WidensAt limit depth limit' tracer') (htraces : tracer.Traces eval)
    (hbrackets : eval.Brackets) {a : Action κ} (ha : a.IgnoresLimit) (pending : List Pending)
    (hw : w.At limit depth) :
    (a.trace tracer pending w).Widens limit' (a.trace tracer' pending (w.withLimit limit')) := by
  -- No request changes the limit or the depth, so that each further one is made at the same depth.
  induction a generalizing pending w with
  | done v | fail e => exact .see _ _ (.ofOutcome (.reply _ w))
  | force x place next ih =>
    rw [Action.trace, Action.trace]
    refine .see _ _ (.andThen (hw.traceForce_widens h pending x place) fun r u hu => ?_)
    rw [w.traceForce_outcome htraces] at hu
    exact ih r (ha r) pending (hw.after (w.force_brackets hbrackets x place r u hu))
  | lookup id next ih | lookupFrom s id next ih | lookupLocal id next ih
  | lookupOuter id next ih =>
    rw [Action.trace, Action.trace]
    exact .see _ _ (.answered _ fun v _ => ih _ (ha _) pending hw)
  | define id v next ih =>
    rw [Action.trace, Action.trace]
    exact .see _ _ (ih ha pending (w := w.withArena _) ⟨hw.maxDepth, hw.depth⟩)
  | derive env next ih =>
    rw [Action.trace, Action.trace]
    exact .see _ _ (.answered _ fun opened _ =>
      ih _ (ha _) pending (w := w.withArena opened.2) ⟨hw.maxDepth, hw.depth⟩)
  | withDerived env body next ihbody ihnext =>
    obtain ⟨hbody, hnext⟩ := ha
    rw [Action.trace, Action.trace]
    refine .see _ _ (.andThen (hw.traceChild_widens pending _ env fun pending' s u hu =>
      ihbody s (hbody s) pending' hu) fun r u hu => ?_)
    rw [w.traceChild_outcome pending _ env fun pending' s v =>
      (body s).trace_outcome htraces pending' v] at hu
    refine ihnext _ r (hnext _ r) pending (hw.after ?_)
    exact w.withChild_brackets _ env (fun s v => Action.run_brackets hbrackets (body s) v) r u hu
  | activeScope next ih | scopeCount next ih | hasData next ih =>
    rw [Action.trace, Action.trace]
    exact .see _ _ (ih _ (ha _) pending hw)
  | maxDepth next ih => exact ha.elim
  | tick next ih | fresh next ih =>
    rw [Action.trace, Action.trace]
    exact .see _ _ (ih _ (ha _) pending ⟨hw.maxDepth, hw.depth⟩)
  | emit line next ih | capture name x next ih =>
    rw [Action.trace, Action.trace]
    exact .see _ _ (ih ha pending ⟨hw.maxDepth, hw.depth⟩)

namespace Form

variable {host : Host κ}

theorem collect_withLimit (source : Source) (w : World κ) (items : List Item) (given : Call κ) :
    collect source (w.withLimit limit).context items given =
      collect source w.context items given := by
  induction items generalizing given with
  | nil => rfl
  | cons item items ih =>
    cases item with
    | operand f => exact ih _
    | option key chosen =>
      rw [collect, collect, World.arena_withLimit]
      cases chosen.value source w.context.arena with
      | error stop => rfl
      | ok v => exact ih _

theorem request_withLimit (source : Source) (operator : Name) (items : List Item)
    (span : Text.Span) (w : World κ) :
    request host source operator items span (w.withLimit limit).context =
      request host source operator items span w.context := by
  unfold request
  rw [collect_withLimit]
  rfl

theorem traceDispatch_widens {eval : Evaluator κ} (hhost : host.IgnoresLimit)
    (h : tracer.WidensAt limit depth limit' tracer') (htraces : tracer.Traces eval)
    (hbrackets : eval.Brackets) (pending : List Pending) (source : Source) (operator : Name)
    (items : List Item) (span : Text.Span) (hw : w.At limit depth) :
    (traceDispatch host tracer pending source operator items span w).Widens limit'
      (traceDispatch host tracer' pending source operator items span (w.withLimit limit')) := by
  unfold traceDispatch
  rw [request_withLimit]
  refine .resume w _ fun a ha => ?_
  obtain ⟨p, given, rfl⟩ := exists_of_request ha
  refine .andThen ((hhost p given).trace_widens h htraces hbrackets pending hw) fun r u _ => ?_
  exact .ofOutcome (.reply _ u)

/-- A call that is not refused is not refused with a larger limit. -/
theorem traceStep_widensAt {eval : Evaluator κ} (hhost : host.IgnoresLimit) (hle : limit ≤ limit')
    (h : depth < limit → tracer.WidensAt limit (depth + 1) limit' tracer')
    (htraces : tracer.Traces eval) (hbrackets : eval.Brackets) :
    Tracer.WidensAt limit depth limit' (traceStep host tracer) (traceStep host tracer') := by
  intro pending source form w hw
  cases form with
  | atom a =>
    exact .see _ _ (.resume w (a.value source w.context.arena) fun v _ => .ofOutcome (.reply _ w))
  | call operator items span =>
    rw [traceStep, traceStep]
    refine .see _ _ ?_
    by_cases hroom : w.context.maxDepth ≤ w.context.depth
    -- A refusal is seen, so the first evaluation is not one of those that are compared.
    · rw [if_pos hroom]
      intro hfits
      have hseen := hfits _ List.mem_cons_self
      cases hseen
    · have hdepth := hw.depth
      have hlimit := hw.maxDepth
      have hwide : ¬ limit' ≤ w.context.depth := by omega
      have hroom' : ¬ (w.withLimit limit').context.maxDepth ≤ (w.withLimit limit').context.depth :=
        hwide
      rw [if_neg hroom, if_neg hroom']
      have henter : w.enter.At limit (depth + 1) := ⟨hlimit, congrArg (· + 1) hdepth⟩
      exact .ending _ _ (traceDispatch_widens hhost (h (by omega)) htraces hbrackets
        (.leave :: pending) source operator items span henter)

theorem traceWithin_widensAt (hhost : host.IgnoresLimit) (hle : limit ≤ limit') {bound bound' : Nat}
    (hbound : limit - depth < bound) (hbound' : limit' - depth < bound') :
    Tracer.WidensAt limit depth limit' (traceWithin host bound) (traceWithin host bound') := by
  -- The bounds differ, each being above what its own limit leaves; both go down with each call.
  induction bound generalizing depth bound' with
  | zero => omega
  | succ bound ih =>
    cases bound' with
    | zero => omega
    | succ bound' =>
      refine traceStep_widensAt hhost hle (fun hroom => ?_) (traceWithin_outcome host bound)
        (evalWithin_brackets host bound)
      exact ih (by omega) (by omega)

end Form

end Widening

/-- A larger limit does not change an evaluation in which no call is refused. For procedures that do
not ask for the limit, every sight of the evaluation of a script is the same with the larger limit,
in the same order, and so are the reply and the world that is left, but for the limit itself. -/
theorem limit_unnoticed {host : Host κ} (hhost : host.IgnoresLimit) (w : World κ)
    (pending : List Pending) (p : Program) {limit : Nat} (hlimit : w.context.maxDepth ≤ limit)
    (hfits : (w.trace host pending p).Unrefused) :
    (w.withLimit limit).trace host pending p = (w.trace host pending p).withLimit limit ∧
      (w.withLimit limit).run host p = (w.run host p).withLimit limit := by
  have htrace :
      (w.withLimit limit).trace host pending p = (w.trace host pending p).withLimit limit := by
    cases hbody : p.body with
    | error fault =>
      simp only [World.trace, hbody]
      rfl
    | ok form =>
      simp only [World.trace, hbody] at hfits ⊢
      exact Form.traceWithin_widensAt hhost hlimit (Nat.lt_succ_self _) (Nat.lt_succ_self _)
        pending p.source form w ⟨rfl, rfl⟩ hfits
  refine ⟨htrace, ?_⟩
  rw [← World.trace_outcome host _ pending p, htrace, ← World.trace_outcome host w pending p]
  rfl

theorem Host.reenter_ignoresLimit : Host.reenter.IgnoresLimit := by
  intro p call
  unfold Host.reenter
  induction p.captured with
  | nil => trivial
  | cons x xs ih => exact fun _ => ih

/-- `F` keeps a call of `G`, and two calls may be in progress. -/
def World.nestedCalls : World Unit :=
  let inner : Operand := ⟨⟨"inner", "(G)"⟩, .call ⟨"G", ⟨1, 2⟩⟩ [] ⟨0, 3⟩, .root, 0⟩
  let env := Bindings.ofList [("F", .procedure ⟨0, (), [inner]⟩), ("G", .procedure ⟨1, (), []⟩)]
  ⟨Context.new 0 env 2 .absent, .fresh, 2⟩

/-- Two calls fit the limit exactly, and one call less does not. -/
theorem limit_unnoticed_nestedCalls :
    ∃ p, Program.compile ⟨"script", "(F)"⟩ = .ok p ∧
      (World.nestedCalls.trace .reenter [] p).Unrefused ∧
      ¬ ((World.nestedCalls.withLimit 1).trace .reenter [] p).Unrefused ∧
      (World.nestedCalls.withLimit 9).run .reenter p =
        (World.nestedCalls.run .reenter p).withLimit 9 := by
  have hcompute : ((Program.compile ⟨"script", "(F)"⟩).toOption.map fun p =>
      (decide (World.nestedCalls.trace .reenter [] p).Unrefused,
        decide ((World.nestedCalls.withLimit 1).trace .reenter [] p).Unrefused)) =
      some (true, false) := by decide +kernel
  obtain ⟨p, hp, hcompute⟩ := Option.map_eq_some_iff.mp hcompute
  have hp := Program.compile_eq_ok_of_toOption hp
  obtain ⟨hfits, hrefused⟩ := Prod.mk.inj hcompute
  have hfits := of_decide_eq_true hfits
  refine ⟨p, hp, hfits, of_decide_eq_false hrefused, ?_⟩
  exact (limit_unnoticed Host.reenter_ignoresLimit _ [] p (by decide) hfits).2

end Fexpr
