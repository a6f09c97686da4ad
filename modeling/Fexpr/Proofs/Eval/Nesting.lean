import Fexpr.CommandLine.Arguments
import Fexpr.Proofs.Eval.Depth
import Fexpr.Proofs.Eval.Locating
import Fexpr.Proofs.Eval.Safety
import Fexpr.Proofs.Form.Enclosing
import Fexpr.Proofs.Library.Own

/-!
# The limit of calls and the nesting of expressions

If procedures evaluate only the operands of their calls, then calls are in progress inside one
another just as expressions stand inside one another in the text. So the depth at which a call is
dispatched is the number of expressions around it, and what is refused stands inside as many
expressions as calls may be in progress (`limit_meets_nesting`). Since no accepted text nests deeper
than the greatest limit, under that limit nothing is refused.
-/

namespace Fexpr

open CommandLine (maxDepthCeiling)

variable {κ : Type}

/-! ## Errors other than of the limit -/

namespace Error

theorem isLimit_locate (source : Source) (span : Text.Span) (e : Error) :
    (e.locate source span).isLimit = e.isLimit := by
  cases e <;> rfl

theorem locate_of_isLimit {e : Error} (h : e.isLimit = true) (source : Source) (span : Text.Span) :
    e.locate source span = e := by
  cases e with
  | raised message causes => cases h
  | _ => rfl

theorem OfAtom.isLimit {e : Error} (h : e.OfAtom) : e.isLimit = false := by
  cases h <;> rfl

end Error

namespace Form

/-- What a call comes to before its procedure does anything. It fails, but not because of the limit,
or the procedure that the operator is bound to is called with the operands among the items. -/
theorem request_cases (host : Host κ) (source : Source) (operator : Name) (items : List Item)
    (span : Text.Span) (c : Context κ) :
    (∃ a, request host source operator items span c = .error (.abort a)) ∨
    (∃ e, request host source operator items span c = .error (.error e) ∧ e.isLimit = false) ∨
    ∃ p given, request host source operator items span c = .ok (host p given) ∧
      operator.value source c.arena = .ok (.procedure p) ∧
      ∀ x ∈ given.operands, x.source = source ∧ .operand x.form ∈ items := by
  unfold request
  cases hoperator : operator.value source c.arena with
  | error stop =>
    cases stop with
    | abort a => exact .inl ⟨a, rfl⟩
    | error e => exact .inr (.inl ⟨e, rfl, (operator.ofAtom_of_value hoperator).isLimit⟩)
  | ok v =>
    cases v with
    | procedure p =>
      dsimp only
      cases hgiven : collect source c items ⟨[], ∅⟩ with
      | error stop =>
        cases stop with
        | abort a => exact .inl ⟨a, rfl⟩
        | error e => exact .inr (.inl ⟨e, rfl, (ofAtom_of_collect hgiven).isLimit⟩)
      | ok given =>
        refine .inr (.inr ⟨p, given, rfl, rfl, fun x hx => ?_⟩)
        rcases exists_of_mem_collect hgiven hx with hx | ⟨f, hf, rfl⟩
        · cases hx
        · exact ⟨rfl, hf⟩
    | _ => exact .inr (.inl ⟨_, rfl, rfl⟩)

end Form

/-! ## What an evaluation keeps to -/

/-- The procedure that is about to be called when the evaluation of a call begins. -/
def Sight.callee? (s : Sight κ) : Option (Procedure κ) :=
  match s.event with
  | .begins source (.call operator _ _) =>
    match operator.value source s.world.context.arena with
    | .ok (.procedure p) => some p
    | _ => none
  | _ => none

/-- The procedures that are called. -/
def Traced.callees (t : Traced κ) : List (Procedure κ) := t.sights.filterMap Sight.callee?

/-- Where the forms of a source stand, in so far as evaluation follows it: an operand of a call is
one deeper than the call. -/
structure Layout where
  source : Source
  /-- The limit of calls in progress. -/
  limit : Nat
  /-- The forms that may be evaluated with this number of calls in progress. -/
  Stands : Nat → Form → Prop
  /-- The errors that may come out. -/
  Raises : Error → Prop
  operand : ∀ {n operator items span f}, Stands n (.call operator items span) →
    .operand f ∈ items → Stands (n + 1) f
  raises_other : ∀ e, e.isLimit = false → Raises e
  raises_limit : ∀ {operator items span}, Stands limit (.call operator items span) →
    Raises (.failed (.recursionLimit limit) ⟨source, span, none⟩)

namespace Layout

theorem raises_locate (l : Layout) {e : Error} (h : l.Raises e) (source : Source)
    (span : Text.Span) : l.Raises (e.locate source span) := by
  by_cases he : e.isLimit = true
  · rwa [Error.locate_of_isLimit he]
  · refine l.raises_other _ ?_
    rw [Error.isLimit_locate]
    exact Bool.eq_false_iff.mpr he

/-- The procedure evaluates only the operands of its call, and raises only errors that may come
out. -/
def Allows (l : Layout) (host : Host κ) (p : Procedure κ) : Prop :=
  ∀ call, (host p call).StaysWithin call.operands l.Raises

end Layout

/-- Every form is evaluated, and every call is refused, where it stands, and no other errors come
out than may. -/
structure Traced.KeepsTo (l : Layout) (t : Traced κ) : Prop where
  begins : ∀ s ∈ t.sights, ∀ source form, s.event = .begins source form →
    source = l.source ∧ l.Stands s.world.context.depth form
  refuses : ∀ s ∈ t.sights, ∀ source span, s.event = .refuses source span →
    source = l.source ∧ ∃ operator items, l.Stands l.limit (.call operator items span)
  reply : ∀ r w, t.outcome = .reply r w → Reply.FailsOnly l.Raises r

/-- The evaluation keeps to the layout if the procedures are such that are called in it. -/
def Traced.Conforms (l : Layout) (host : Host κ) (t : Traced κ) : Prop :=
  (∀ s ∈ t.sights, ∀ p, s.callee? = some p → l.Allows host p) → t.KeepsTo l

namespace Traced.Conforms

variable {l : Layout} {host : Host κ} {t : Traced κ} {w : World κ} {pending : List Pending}

theorem ofReply {r : Reply κ} (h : Reply.FailsOnly l.Raises r) (w : World κ) :
    (ofOutcome (.reply r w)).Conforms l host := by
  intro _
  refine ⟨List.forall_mem_nil _, List.forall_mem_nil _, fun r' w' hr => ?_⟩
  cases hr
  exact h

theorem ofValue (v : Value κ) (w : World κ) : (ofOutcome (.reply (.ok v) w)).Conforms l host := by
  refine ofReply (fun e he => ?_) w
  cases he

theorem ofError {e : Error} (h : l.Raises e) (w : World κ) :
    (ofOutcome (.reply (.error e) w)).Conforms l host := by
  refine ofReply (fun e' he => ?_) w
  cases he
  exact h

theorem ofAbort (a : Abort) : (ofOutcome (.abort a) : Traced κ).Conforms l host := by
  intro _
  refine ⟨List.forall_mem_nil _, List.forall_mem_nil _, fun r w hr => ?_⟩
  cases hr

/-- An action or an end is seen. -/
theorem see (h : t.Conforms l host) {event : Event κ} (st : Stage κ)
    (hbegins : ∀ source form, event ≠ .begins source form)
    (hrefuses : ∀ source span, event ≠ .refuses source span) :
    (see event st t).Conforms l host := by
  intro hcalls
  have hlater := h (List.forall_mem_cons.mp hcalls).2
  refine ⟨List.forall_mem_cons.mpr ⟨?_, hlater.begins⟩,
    List.forall_mem_cons.mpr ⟨?_, hlater.refuses⟩, hlater.reply⟩
  · exact fun source form h => absurd h (hbegins source form)
  · exact fun source span h => absurd h (hrefuses source span)

/-- A form is evaluated. Of what follows it may be assumed that the procedure is such that is
called. -/
theorem seeBegins {form : Form} (hform : l.Stands w.context.depth form)
    (h : (∀ p, Sight.callee? ⟨⟨w, pending⟩, .begins l.source form⟩ = some p → l.Allows host p) →
      t.Conforms l host) :
    (Traced.see (.begins l.source form) ⟨w, pending⟩ t).Conforms l host := by
  intro hcalls
  obtain ⟨hcallee, hcalls⟩ := List.forall_mem_cons.mp hcalls
  have hlater := h hcallee hcalls
  refine ⟨List.forall_mem_cons.mpr ⟨fun source form' hevent => ?_, hlater.begins⟩,
    List.forall_mem_cons.mpr ⟨fun source span hevent => ?_, hlater.refuses⟩, hlater.reply⟩
  · cases hevent
    exact ⟨rfl, hform⟩
  · cases hevent

/-- A call is refused. -/
theorem seeRefuses {operator : Form.Name} {items : List Form.Item} {span : Text.Span}
    (hcall : l.Stands l.limit (.call operator items span)) (st : Stage κ) (w : World κ) :
    (Traced.see (.refuses l.source span) st (ofOutcome (.reply
      (.error (.failed (.recursionLimit l.limit) ⟨l.source, span, none⟩)) w))).Conforms l host := by
  intro hcalls
  have hlater := ofError (l.raises_limit hcall) w (List.forall_mem_cons.mp hcalls).2
  refine ⟨List.forall_mem_cons.mpr ⟨fun source form hevent => ?_, hlater.begins⟩,
    List.forall_mem_cons.mpr ⟨fun source span' hevent => ?_, hlater.refuses⟩, hlater.reply⟩
  · cases hevent
  · cases hevent
    exact ⟨rfl, operator, items, hcall⟩

theorem andThen {next : Reply κ → World κ → Traced κ} (h : t.Conforms l host)
    (hnext : ∀ r w, t.outcome = .reply r w → Reply.FailsOnly l.Raises r →
      (next r w).Conforms l host) : (t.andThen next).Conforms l host := by
  intro hcalls
  unfold Traced.andThen at hcalls ⊢
  split at hcalls
  next r w hr =>
    obtain ⟨hbefore, hafter⟩ := List.forall_mem_append.mp hcalls
    have hfirst := h hbefore
    have hlater := hnext r w hr (hfirst.reply r w hr) hafter
    exact ⟨List.forall_mem_append.mpr ⟨hfirst.begins, hlater.begins⟩,
      List.forall_mem_append.mpr ⟨hfirst.refuses, hlater.refuses⟩, hlater.reply⟩
  next a ha =>
    have hfirst := h hcalls
    refine ⟨hfirst.begins, hfirst.refuses, fun r w hr => ?_⟩
    cases hr

theorem answered {α : Type} {answer : Except ScopeId α} {next : α → Traced κ}
    (hnext : ∀ a, answer = .ok a → (next a).Conforms l host) :
    (answered answer next).Conforms l host := by
  cases answer with
  | error s => exact ofAbort (.notLive s)
  | ok a => exact hnext a rfl

theorem seeActs (h : t.Conforms l host) (a : Action κ) (st : Stage κ) :
    (Traced.see (.acts a) st t).Conforms l host := by
  refine h.see st ?_ ?_
  · rintro source form ⟨⟩
  · rintro source span ⟨⟩

theorem ending (h : t.Conforms l host) (p : Pending) (pending : List Pending) :
    (t.ending p pending).Conforms l host := by
  refine h.andThen fun r w _ hr => .see ?_ _ ?_ ?_
  · cases p with
    | release mark => exact ofReply hr _
    | restore s =>
      rw [Pending.finish]
      cases w.context.arena.activate s with
      | error dead => exact ofAbort _
      | ok a => exact ofReply hr _
    | leave => exact ofReply hr _
  · rintro source form ⟨⟩
  · rintro source span ⟨⟩

end Traced.Conforms

/-! ## Evaluations -/

/-- With so many calls in progress, the evaluation of what may stand there conforms to the
layout. -/
def Tracer.ConformsAt (l : Layout) (host : Host κ) (depth : Nat) (tracer : Tracer κ) : Prop :=
  ∀ pending form (w : World κ), w.At l.limit depth → l.Stands depth form →
    (tracer pending l.source form w).Conforms l host

section Runs

variable {l : Layout} {host : Host κ} {tracer : Tracer κ} {eval : Evaluator κ} {depth : Nat}
  {w : World κ}

theorem World.At.traceChild_conforms (hw : w.At l.limit depth) (pending : List Pending)
    (parent : ScopeId) (env : Environment κ) {body : List Pending → ScopeId → World κ → Traced κ}
    (hbody : ∀ pending s (u : World κ), u.At l.limit depth → (body pending s u).Conforms l host) :
    (w.traceChild pending parent env body).Conforms l host := by
  refine .answered fun opened _ => .ending ?_ _ pending
  exact hbody _ _ _ ⟨hw.maxDepth, hw.depth⟩

theorem World.At.traceIn_conforms (hw : w.At l.limit depth) (h : tracer.ConformsAt l host depth)
    (pending : List Pending) {x : Operand} (hx : x.source = l.source ∧ l.Stands depth x.form)
    (s : ScopeId) : (w.traceIn tracer pending x s).Conforms l host := by
  unfold World.traceIn
  dsimp only
  split
  · exact .ofAbort _
  · rw [hx.1]
    refine .answered fun arena _ => .ending ?_ _ pending
    exact h _ _ _ ⟨hw.maxDepth, hw.depth⟩ hx.2

theorem World.At.traceForce_conforms (hw : w.At l.limit depth)
    (h : tracer.ConformsAt l host depth) (pending : List Pending) {x : Operand}
    (hx : x.source = l.source ∧ l.Stands depth x.form) (place : Place κ) :
    (w.traceForce tracer pending x place).Conforms l host := by
  cases place with
  | own => exact hw.traceIn_conforms h pending hx x.scope
  | layered env =>
    rw [World.traceForce]
    split
    · exact .ofAbort _
    · exact hw.traceChild_conforms pending x.scope env fun pending' s u hu =>
        hu.traceIn_conforms h pending' hx s
  | scope s => exact hw.traceIn_conforms h pending hx s

/-- Every operand that a procedure evaluates is evaluated at the depth of its own evaluation. -/
theorem Action.StaysWithin.trace_conforms (h : tracer.ConformsAt l host depth)
    (htraces : tracer.Traces eval) (hbrackets : eval.Brackets) {a : Action κ} {xs : List Operand}
    (ha : a.StaysWithin xs l.Raises)
    (hxs : ∀ x ∈ xs, x.source = l.source ∧ l.Stands depth x.form) (pending : List Pending)
    (hw : w.At l.limit depth) : (a.trace tracer pending w).Conforms l host := by
  induction a generalizing pending w with
  | done v =>
    rw [Action.trace]
    exact .seeActs (.ofValue v w) _ _
  | fail e =>
    rw [Action.trace]
    exact .seeActs (.ofError ha w) _ _
  | force x place next ih =>
    obtain ⟨hx, hnext⟩ := ha
    rw [Action.trace]
    refine .seeActs (.andThen (hw.traceForce_conforms h pending (hxs x hx) place) ?_) _ _
    intro r u hu hr
    -- The evaluation of the operand is bracketed, so the action goes on at the depth it had.
    rw [w.traceForce_outcome htraces] at hu
    exact ih r (hnext r hr) pending (hw.after (w.force_brackets hbrackets x place r u hu))
  | lookup id next ih | lookupFrom s id next ih | lookupLocal id next ih
  | lookupOuter id next ih =>
    rw [Action.trace]
    exact .seeActs (.answered fun v _ => ih _ (ha _) pending hw) _ _
  | derive env next ih =>
    rw [Action.trace]
    refine .seeActs (.answered fun opened _ => ?_) _ _
    exact ih _ (ha _) pending ⟨hw.maxDepth, hw.depth⟩
  | withDerived env body next ihbody ihnext =>
    obtain ⟨hbody, hnext⟩ := ha
    rw [Action.trace]
    refine .seeActs (.andThen (hw.traceChild_conforms pending _ env ?_) ?_) _ _
    · exact fun pending' s u hu => ihbody s (hbody s) pending' hu
    · intro r u hu hr
      rw [w.traceChild_outcome pending _ env
        fun pending' s u => (body s).trace_outcome htraces pending' u] at hu
      refine ihnext _ r (hnext _ r hr) pending (hw.after ?_)
      exact w.withChild_brackets _ env (fun s v => (body s).run_brackets hbrackets v) r u hu
  | activeScope next ih | scopeCount next ih | maxDepth next ih | hasData next ih | tick next ih
  | fresh next ih =>
    rw [Action.trace]
    refine .seeActs ?_ _ _
    exact ih _ (ha _) pending ⟨hw.maxDepth, hw.depth⟩
  | define id v next ih | emit line next ih | capture name x next ih =>
    rw [Action.trace]
    refine .seeActs ?_ _ _
    exact ih ha pending ⟨hw.maxDepth, hw.depth⟩

namespace Form

/-- The operands of a call stand one deeper than the call, and are evaluated there. -/
theorem traceDispatch_conforms (h : tracer.ConformsAt l host (depth + 1))
    (htraces : tracer.Traces eval) (hbrackets : eval.Brackets) (pending : List Pending)
    {operator : Name} {items : List Item} {span : Text.Span}
    (hcall : l.Stands depth (.call operator items span))
    (hcallee : ∀ p, operator.value l.source w.context.arena = .ok (.procedure p) →
      l.Allows host p)
    (hw : w.At l.limit (depth + 1)) :
    (traceDispatch host tracer pending l.source operator items span w).Conforms l host := by
  unfold traceDispatch
  rcases request_cases host l.source operator items span w.context with
    ⟨a, ha⟩ | ⟨e, he, hlimit⟩ | ⟨p, given, hrequest, hoperator, hoperands⟩
  · rw [ha]
    exact .ofAbort a
  · rw [he]
    exact .ofError (l.raises_other e hlimit) w
  · rw [hrequest]
    have hxs : ∀ x ∈ given.operands, x.source = l.source ∧ l.Stands (depth + 1) x.form := by
      intro x hx
      obtain ⟨hsource, hmem⟩ := hoperands x hx
      exact ⟨hsource, l.operand hcall hmem⟩
    have hacts := (hcallee p hoperator given).trace_conforms h htraces hbrackets hxs pending hw
    refine hacts.andThen fun r u _ hr => .ofReply (fun e he => ?_) u
    cases r with
    | ok v => cases he
    | error e' =>
      cases he
      exact l.raises_locate (hr e' rfl) _ _

theorem traceStep_conformsAt (hdepth : depth ≤ l.limit)
    (h : depth < l.limit → tracer.ConformsAt l host (depth + 1)) (htraces : tracer.Traces eval)
    (hbrackets : eval.Brackets) : (traceStep host tracer).ConformsAt l host depth := by
  intro pending form w hw hform
  have hstands : l.Stands w.context.depth form := by rwa [hw.depth]
  cases form with
  | atom a =>
    rw [traceStep]
    refine .seeBegins hstands fun _ => ?_
    cases hvalue : a.value l.source w.context.arena with
    | error stop =>
      cases stop with
      | abort a => exact .ofAbort a
      | error e => exact .ofError (l.raises_other e (a.ofAtom_of_value hvalue).isLimit) w
    | ok v => exact .ofValue v w
  | call operator items span =>
    rw [traceStep]
    refine .seeBegins hstands fun hcallee => ?_
    by_cases hfull : w.context.maxDepth ≤ w.context.depth
    · rw [if_pos hfull, hw.maxDepth]
      rw [hw.maxDepth, hw.depth] at hfull
      obtain rfl : depth = l.limit := Nat.le_antisymm hdepth hfull
      exact .seeRefuses hform _ w
    · rw [if_neg hfull]
      rw [hw.maxDepth, hw.depth] at hfull
      have hroom : depth < l.limit := Nat.lt_of_not_le hfull
      have henter : w.enter.At l.limit (depth + 1) := ⟨hw.maxDepth, congrArg (· + 1) hw.depth⟩
      refine .ending (traceDispatch_conforms (h hroom) htraces hbrackets _ hform ?_ henter) _ _
      intro p hp
      refine hcallee p ?_
      have hp' : operator.value l.source w.context.arena = .ok (.procedure p) := hp
      simp only [Sight.callee?, hp']

theorem traceWithin_conformsAt (l : Layout) (host : Host κ) (bound : Nat) {depth : Nat}
    (hdepth : depth ≤ l.limit) : (traceWithin host bound).ConformsAt l host depth := by
  induction bound generalizing depth with
  | zero => exact fun _ _ _ _ _ => .ofAbort _
  | succ bound ih =>
    exact traceStep_conformsAt hdepth (fun hroom => ih hroom) (traceWithin_outcome host bound)
      (evalWithin_brackets host bound)

end Form

/-- A script is evaluated as its layout has it. -/
theorem World.At.trace_keepsTo (hw : w.At l.limit 0) {p : Program} {f : Form}
    (hsource : p.source = l.source) (hbody : p.body = .ok f) (hf : l.Stands 0 f)
    (hcallees : ∀ q ∈ (w.trace host [] p).callees, l.Allows host q) :
    (w.trace host [] p).KeepsTo l := by
  have htrace : w.trace host [] p = w.tracer host [] l.source f w := by
    rw [World.trace, hbody, hsource]
  refine (?_ : (w.trace host [] p).Conforms l host) fun s hs q hq => ?_
  · rw [htrace]
    exact Form.traceWithin_conformsAt l host _ (Nat.zero_le _) [] f w hw hf
  · exact hcallees q (List.mem_filterMap.mpr ⟨s, hs, hq⟩)

end Runs

/-! ## Scripts -/

/-- If the error is of the limit, it is of this one, and its place is that of an expression which is
inside as many others as the limit allows. -/
def Error.MeetsLimit (source : Source) (root : Tree) (limit : Nat) (e : Error) : Prop :=
  ∀ m site, e = .failed (.recursionLimit m) site →
    m = limit ∧ site.source = source ∧ ∃ u : Tree, u.rule = .expression ∧
      u.Enclosed limit [root] ∧ site.span = u.trimmedSpan source.chars

theorem Error.MeetsLimit.withHelp {source : Source} {root : Tree} {limit : Nat} {e : Error}
    (h : e.MeetsLimit source root limit) (help : String) :
    (e.withHelp help).MeetsLimit source root limit := by
  intro m site he
  cases e with
  | failed problem s =>
    cases he
    exact h m s rfl
  | _ => cases he

theorem Form.IsInside.exists_expression {source : Source} {root : Tree} {n : Nat} {operator : Name}
    {items : List Item} {span : Text.Span}
    (h : (call operator items span).IsInside source root n) :
    ∃ u : Tree, u.rule = .expression ∧ u.Enclosed n [root] ∧ span = u.trimmedSpan source.chars := by
  obtain ⟨u, hu, hat⟩ := h
  exact ⟨u, hat.rule_eq_expression, hu, hat.span⟩

/-- The layout of an accepted text under a limit, if errors that meet the limit may come out. -/
def Layout.ofScript {source : Source} {p : Program} {root : Tree}
    (hp : Program.compile source = .ok p) (hroot : p.tree? = some root) (limit : Nat)
    (Raises : Error → Prop) (h : ∀ e : Error, e.MeetsLimit source root limit → Raises e) :
    Layout where
  source := source
  limit := limit
  Stands := Form.IsInside source root
  Raises := Raises
  operand hcall hf := hcall.operand hp hroot hf
  raises_other := by
    intro e he
    refine h e ?_
    rintro m site rfl
    cases he
  raises_limit := by
    intro operator items span hcall
    refine h _ ?_
    rintro m site ⟨⟩
    exact ⟨rfl, rfl, hcall.exists_expression⟩

/-- The limit of calls meets the nesting of expressions. If a script is evaluated with no calls in
progress, and the procedures that are called evaluate only the operands of their calls, then every
form is evaluated at a depth that is the number of expressions around it. A call is refused only at
an expression that is inside as many others as calls may be in progress. If the procedures make up
no errors of the limit, then such an error that comes out is at the trimmed span of an expression
like this. Under the greatest limit there is neither. -/
theorem limit_meets_nesting (host : Host κ) {source : Source} {p : Program}
    (hp : Program.compile source = .ok p) {w : World κ} (hdepth : w.context.depth = 0)
    (hown : ∀ q ∈ (w.trace host [] p).callees, q.EvaluatesOwn host) :
    ∃ root, p.tree? = some root ∧
      (∀ s ∈ (w.trace host [] p).sights, ∀ origin form, s.event = .begins origin form →
        origin = source ∧ ∃ u : Tree, form.IsAt source u ∧
          ∀ n, u.Enclosed n [root] ↔ n = s.world.context.depth) ∧
      (∀ s ∈ (w.trace host [] p).sights, ∀ origin span, s.event = .refuses origin span →
        origin = source ∧ ∃ u : Tree, u.rule = .expression ∧
          u.Enclosed w.context.maxDepth [root] ∧ span = u.trimmedSpan source.chars) ∧
      ((∀ q ∈ (w.trace host [] p).callees, q.PassesLimitOn host) →
        ∀ e w', w.run host p = .reply (.error e) w' →
          e.MeetsLimit source root w.context.maxDepth) ∧
      (maxDepthCeiling ≤ w.context.maxDepth →
        (∀ s ∈ (w.trace host [] p).sights, ∀ origin span, s.event ≠ .refuses origin span) ∧
        ((∀ q ∈ (w.trace host [] p).callees, q.PassesLimitOn host) →
          ∀ e w', w.run host p = .reply (.error e) w' → e.isLimit = false)) := by
  obtain ⟨root, f, rfl, hnested, hf⟩ := Program.exists_isInside hp
  have hroot : Program.tree? ⟨source, [root], .ok f⟩ = some root := rfl
  have hw : w.At w.context.maxDepth 0 := ⟨rfl, hdepth⟩
  -- The walk is followed twice: for the depths with any errors, and then for the errors.
  have hkeeps : (w.trace host [] ⟨source, [root], .ok f⟩).KeepsTo
      (.ofScript hp hroot w.context.maxDepth (fun _ => True) fun _ _ => trivial) :=
    World.At.trace_keepsTo hw rfl rfl hf hown
  have hrefuses : ∀ s ∈ (w.trace host [] ⟨source, [root], .ok f⟩).sights, ∀ origin span,
      s.event = .refuses origin span → origin = source ∧ ∃ u : Tree, u.rule = .expression ∧
        u.Enclosed w.context.maxDepth [root] ∧ span = u.trimmedSpan source.chars := by
    intro s hs origin span hevent
    obtain ⟨horigin, operator, items, hcall⟩ := hkeeps.refuses s hs origin span hevent
    exact ⟨horigin, Form.IsInside.exists_expression hcall⟩
  have hmeets : (∀ q ∈ (w.trace host [] ⟨source, [root], .ok f⟩).callees, q.PassesLimitOn host) →
      ∀ e w', w.run host ⟨source, [root], .ok f⟩ = .reply (.error e) w' →
        e.MeetsLimit source root w.context.maxDepth := by
    intro hpasses e w' hrun
    have hkeeps : (w.trace host [] ⟨source, [root], .ok f⟩).KeepsTo
        (.ofScript hp hroot w.context.maxDepth (·.MeetsLimit source root w.context.maxDepth)
          fun _ he => he) := by
      refine World.At.trace_keepsTo hw rfl rfl hf fun q hq call => ?_
      exact hpasses q hq _ call (Layout.raises_other _) fun e help he => he.withHelp help
    exact hkeeps.reply (.error e) w' ((w.trace_outcome host [] _).trans hrun) e rfl
  refine ⟨root, hroot, ?_, hrefuses, hmeets, fun hceiling => ?_⟩
  · intro s hs origin form hevent
    obtain ⟨horigin, u, hu, hat⟩ := hkeeps.begins s hs origin form hevent
    refine ⟨horigin, u, hat, fun n => ⟨fun hn => hnested.enclosed_unique hn hu, ?_⟩⟩
    rintro rfl
    exact hu
  · -- An expression that stands so deep is not in an accepted text.
    have hnone : ∀ u : Tree, u.rule = .expression → ¬ u.Enclosed w.context.maxDepth [root] := by
      intro u hrule hu
      exact Nat.not_le_of_lt (Program.lt_of_enclosed hp hroot hu hrule) hceiling
    refine ⟨fun s hs origin span hevent => ?_, fun hpasses e w' hrun => ?_⟩
    · obtain ⟨-, u, hrule, hu, -⟩ := hrefuses s hs origin span hevent
      exact hnone u hrule hu
    · refine Bool.eq_false_iff.mpr fun hlimit => ?_
      cases e with
      | failed problem site =>
        cases problem with
        | recursionLimit m =>
          obtain ⟨-, -, u, hrule, hu, -⟩ := hmeets hpasses _ w' hrun m site rfl
          exact hnone u hrule hu
        | _ => cases hlimit
      | _ => cases hlimit

/-- A call inside two others, with a comment in it. -/
def Source.insideTwo : Source := ⟨"script", "(PLUS 1 (IF #t (RETURN 2 ; c\n) 3))"⟩

/-- The library in a context with the given limit. -/
def World.limitedTo (limit : Nat) : World Builtin :=
  ⟨Context.new 0 (Library.environment 0) limit .absent, .fresh, 100⟩

/-- The place of an error of the limit that comes out. -/
def Outcome.limitSpan? : Outcome κ → Option (Nat × Text.Span)
  | .reply (.error (.failed (.recursionLimit m) site)) _ => some (m, site.span)
  | _ => none

theorem Outcome.exists_of_limitSpan? {o : Outcome κ} {m : Nat} {span : Text.Span}
    (h : o.limitSpan? = some (m, span)) :
    ∃ site w, o = .reply (.error (.failed (.recursionLimit m) site)) w ∧ site.span = span := by
  unfold limitSpan? at h
  split at h
  next m' site w =>
    cases h
    exact ⟨site, w, rfl, rfl⟩
  · cases h

/-- If two calls may be in progress, the innermost call is refused, and the error is at it without
the comment. Under the greatest limit it is not. -/
theorem limit_meets_nesting_refused :
    ∃ (p : Program) (root u : Tree) (site : Site) (w' : World Builtin),
      Program.compile .insideTwo = .ok p ∧ p.tree? = some root ∧
      (World.limitedTo 2).run Library.host p =
        .reply (.error (.failed (.recursionLimit 2) site)) w' ∧
      site.source = .insideTwo ∧ site.span = ⟨15, 30⟩ ∧ u.rule = .expression ∧
      u.Enclosed 2 [root] ∧ site.span = u.trimmedSpan Source.insideTwo.chars ∧
      ∀ s ∈ ((World.limitedTo maxDepthCeiling).trace Library.host [] p).sights, ∀ origin span,
        s.event ≠ .refuses origin span := by
  have hcomputed : (Program.compile .insideTwo).toOption.map (fun p =>
      (((World.limitedTo 2).trace Library.host [] p).callees.all (Library.forcing.contains ·.code),
        ((World.limitedTo maxDepthCeiling).trace Library.host [] p).callees.all
          (Library.forcing.contains ·.code),
        ((World.limitedTo 2).run Library.host p).limitSpan?)) =
      some (true, true, some (2, ⟨15, 30⟩)) := by
    decide +kernel
  obtain ⟨p, hp, hcomputed⟩ := Option.map_eq_some_iff.mp hcomputed
  have hp := Program.compile_eq_ok_of_toOption hp
  simp only [Prod.mk.injEq, List.all_eq_true, List.contains_iff_mem] at hcomputed
  obtain ⟨hforcing, hforcing', hspan⟩ := hcomputed
  obtain ⟨site, w', hrun, hsite⟩ := Outcome.exists_of_limitSpan? hspan
  have hpasses : ∀ q ∈ ((World.limitedTo 2).trace Library.host [] p).callees,
      q.PassesLimitOn Library.host :=
    fun q hq => Library.passesLimitOn_of_forcing (hforcing q hq)
  have hown : ∀ q ∈ ((World.limitedTo maxDepthCeiling).trace Library.host [] p).callees,
      q.EvaluatesOwn Library.host :=
    fun q hq => (Library.passesLimitOn_of_forcing (hforcing' q hq)).evaluatesOwn
  obtain ⟨root, hroot, -, -, hmeets, -⟩ :=
    limit_meets_nesting Library.host hp rfl fun q hq => (hpasses q hq).evaluatesOwn
  obtain ⟨-, hsource, u, hrule, hu, htrimmed⟩ := hmeets hpasses _ w' hrun 2 site rfl
  obtain ⟨-, -, -, -, -, hceiling⟩ := limit_meets_nesting Library.host hp rfl hown
  exact ⟨p, root, u, site, w', hp, hroot, hrun, hsource, hsite, hrule, hu, htrimmed,
    (hceiling (Nat.le_refl _)).1⟩

end Fexpr
