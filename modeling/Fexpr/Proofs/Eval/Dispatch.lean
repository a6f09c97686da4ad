import Fexpr.Library.Host
import Fexpr.Proofs.Eval.Lexical
import Fexpr.Proofs.Eval.Trace
import Fexpr.Proofs.Form.Expressions
import Mathlib.Data.List.Induction

/-!
# What a call hands over

The procedure of a call gets what is written in the expression, neither more nor less
(`call_hands_over_written`): an operand for each value, bound to the scope that is active, and the
values of the options, of which the last one with a key counts. It makes no difference how operands
and options are mixed, or which options are grouped into one list.

A call fails before its procedure has done anything if the operator is not bound to a procedure,
whatever the options are, or else if one of the options has no value. The first of these options
tells the error.
-/

namespace Fexpr

variable {κ : Type}

/-! ## Options -/

namespace Bindings

variable {α : Type}

theorem ofList_concat (pairs : List (String × α)) (id : String) (a : α) :
    ofList (pairs ++ [(id, a)]) = (ofList pairs).insert id a := List.foldl_concat ..

/-- Of pairs with the same key the last one counts. -/
theorem find?_ofList_eq_some_iff {pairs : List (String × α)} {key : String} {a : α} :
    (ofList pairs).find? key = some a ↔
      ∃ before after, pairs = before ++ (key, a) :: after ∧ ∀ q ∈ after, q.1 ≠ key := by
  induction pairs using List.reverseRecOn with
  | nil =>
    constructor
    · intro h
      cases h
    · rintro ⟨before, after, h, -⟩
      simp at h
  | append_singleton pairs q ih =>
    obtain ⟨id, b⟩ := q
    rw [ofList_concat, find?_insert]
    by_cases hid : id = key
    · rw [if_pos hid, hid]
      constructor
      · intro h
        cases h
        exact ⟨pairs, [], rfl, List.forall_mem_nil _⟩
      · rintro ⟨before, after, h, hafter⟩
        rcases List.eq_nil_or_concat after with rfl | ⟨after, q, rfl⟩
        · cases (List.append_inj_right' h rfl)
          rfl
        · -- The last pair has the key, so it does not come after another one that counts.
          rw [List.concat_eq_append, ← List.cons_append, ← List.append_assoc] at h
          cases List.append_inj_right' h rfl
          exact absurd rfl (hafter (key, b) (by simp))
    · rw [if_neg hid, ih]
      constructor
      · rintro ⟨before, after, rfl, hafter⟩
        refine ⟨before, after ++ [(id, b)], by simp, fun q hq => ?_⟩
        rcases List.mem_append.mp hq with hq | hq
        · exact hafter q hq
        · rw [List.mem_singleton.mp hq]
          exact hid
      · rintro ⟨before, after, h, hafter⟩
        rcases List.eq_nil_or_concat after with rfl | ⟨after, q, rfl⟩
        · cases List.append_inj_right' h rfl
          exact absurd rfl hid
        · rw [List.concat_eq_append, ← List.cons_append, ← List.append_assoc] at h
          exact ⟨before, after, List.append_inj_left' h rfl,
            fun q hq => hafter q (by simp [hq])⟩

end Bindings

namespace Form

/-- The key of the option, and the value that it has in the environments. -/
def Chooses (source : Source) (envs : List (Environment κ)) (o : Name × Atom)
    (q : String × Value κ) : Prop :=
  q.1 = o.1.text ∧ Lexical.atomValue source envs o.2 = .ok q.2

section Collect

variable {source : Source} {envs : List (Environment κ)} {c : Context κ}

theorem exists_chooses {options : List (Name × Atom)}
    (h : ∀ o ∈ options, ∃ v, Lexical.atomValue source envs o.2 = .ok v) :
    ∃ pairs, List.Forall₂ (Chooses source envs) options pairs := by
  induction options with
  | nil => exact ⟨[], .nil⟩
  | cons o options ih =>
    obtain ⟨⟨v, hv⟩, hoptions⟩ := List.forall_mem_cons.mp h
    obtain ⟨pairs, hpairs⟩ := ih hoptions
    exact ⟨(o.1.text, v) :: pairs, .cons ⟨rfl, hv⟩ hpairs⟩

/-- In the bindings of the chosen values a key has the value of the last option with that key. -/
theorem find?_ofList_of_chooses {options : List (Name × Atom)} {pairs : List (String × Value κ)}
    (h : List.Forall₂ (Chooses source envs) options pairs) (key : String) (v : Value κ) :
    (Bindings.ofList pairs).find? key = some v ↔ ∃ before o after,
      options = before ++ o :: after ∧ o.1.text = key ∧ (∀ o' ∈ after, o'.1.text ≠ key) ∧
        Lexical.atomValue source envs o.2 = .ok v := by
  rw [Bindings.find?_ofList_eq_some_iff]
  constructor
  · rintro ⟨before, after, rfl, hlast⟩
    obtain ⟨before', o, after', rfl, ⟨hkey, hv⟩, hafter⟩ := exists_split_of_forall₂ h
    refine ⟨before', o, after', rfl, hkey.symm, fun o' ho' heq => ?_, hv⟩
    have hflip : List.Forall₂ (flip (Chooses source envs)) after after' := hafter.flip
    obtain ⟨q, hq, hqo, -⟩ := exists_mem_of_forall₂ hflip ho'
    exact hlast q hq (hqo.trans heq)
  · rintro ⟨before, o, after, rfl, rfl, hlast, hv⟩
    have hflip : List.Forall₂ (flip (Chooses source envs)) pairs (before ++ o :: after) := h.flip
    obtain ⟨before', q, after', rfl, ⟨hkey, hq⟩, hafter⟩ := exists_split_of_forall₂ hflip
    obtain ⟨key, v'⟩ := q
    cases hkey
    cases hv.symm.trans hq
    refine ⟨before', after', rfl, fun q hq heq => ?_⟩
    have hafter : List.Forall₂ (Chooses source envs) after after' := hafter.flip
    obtain ⟨o', ho', hqo, -⟩ := exists_mem_of_forall₂ hafter hq
    exact hlast o' ho' (hqo.symm.trans heq)

/-- If all options have values, a call hands over its operands, and the values under their keys. -/
theorem collect_eq_ok (h : c.arena.Chain c.arena.active envs) {items : List Item}
    {pairs : List (String × Value κ)}
    (hpairs : List.Forall₂ (Chooses source envs) (items.filterMap Item.option?) pairs)
    (given : Call κ) :
    collect source c items given = .ok
      ⟨given.operands ++ (items.filterMap Item.operand?).map (⟨source, ·, c.arena.active, c.id⟩),
        pairs.foldl (fun b q => b.insert q.1 q.2) given.options⟩ := by
  induction items generalizing pairs given with
  | nil =>
    cases hpairs
    rw [collect, List.filterMap_nil, List.map_nil, List.append_nil, List.foldl_nil]
  | cons item items ih =>
    cases item with
    | operand f =>
      rw [collect, ih hpairs, List.append_assoc]
      rfl
    | option key chosen =>
      cases hpairs with
      | @cons _ q _ rest hq hrest =>
        obtain ⟨hkey, hvalue⟩ := hq
        rw [collect, chosen.value_eq_lexical h, hvalue]
        show collect source c items _ = _
        rw [ih hrest]
        dsimp only at hkey
        rw [← hkey]
        rfl

/-- If an option has no value, but those before it have, its error is the error of the call. -/
theorem collect_eq_error (h : c.arena.Chain c.arena.active envs) {items : List Item}
    {before after : List (Name × Atom)} {o : Name × Atom} {e : Error}
    (hoptions : items.filterMap Item.option? = before ++ o :: after)
    (hbefore : ∀ o' ∈ before, ∃ v, Lexical.atomValue source envs o'.2 = .ok v)
    (ho : Lexical.atomValue source envs o.2 = .error e) (given : Call κ) :
    collect source c items given = .error (.error e) := by
  induction items generalizing before given with
  | nil => simp at hoptions
  | cons item items ih =>
    cases item with
    | operand f => exact ih hoptions hbefore _
    | option key chosen =>
      rw [collect, chosen.value_eq_lexical h]
      cases before with
      | nil =>
        cases hoptions
        rw [ho]
        rfl
      | cons o' before =>
        obtain ⟨rfl, hrest⟩ := List.cons.inj hoptions
        obtain ⟨⟨v, hv⟩, hbefore⟩ := List.forall_mem_cons.mp hbefore
        rw [hv]
        exact ih hrest hbefore _

end Collect

end Form

/-! ## Calling and not calling -/

/-- Evaluating the form fails with `e`. No procedure does anything on the way, and the world stays
as it is. -/
structure World.FailsUncalled (host : Host κ) (w : World κ) (source : Source) (form : Form)
    (e : Error) : Prop where
  outcome : w.evaluator host source form w = .reply (.error e) w
  uncalled : ∀ pending, ∀ s ∈ (w.tracer host pending source form w).sights, ∀ a, s.event ≠ .acts a

/-- Evaluating the form calls the procedure `p` with `given`. What it does is the first thing that
happens, and its reply is that of the form, except that a failure gets its place. -/
structure World.CallsWith (host : Host κ) (w : World κ) (source : Source) (form : Form)
    (p : Procedure κ) (given : Call κ) : Prop where
  outcome : w.evaluator host source form w =
    ((host p given).run (w.enter.evaluator host) w.enter).andThen fun r w' =>
      .reply (r.mapError (Error.locate source form.span)) w'.leave
  called : ∀ pending, ∃ rest, (w.tracer host pending source form w).sights =
    ⟨⟨w, pending⟩, .begins source form⟩ ::
      ⟨⟨w.enter, .leave :: pending⟩, .acts (host p given)⟩ :: rest

/-- What the procedure of an expression is called with is what is written there. -/
structure Call.HandsOver (source : Source) (c : Context κ) (envs : List (Environment κ)) (u : Tree)
    (operands : List Form) (options : List (Form.Name × Form.Atom)) (given : Call κ) : Prop where
  bound : given.operands = operands.map (⟨source, ·, c.arena.active, c.id⟩)
  /-- There is one operand for each value, with the shape and the text of its content. -/
  described : List.Forall₂ (fun v x => ∃ node, v.firstSignificant? = some node ∧
    x.shape = .ofRule node.rule ∧ x.text = source.slice (node.trimmedSpan source.chars))
    (u.children.filter (·.rule == .value)) given.operands
  chosen : ∃ pairs, List.Forall₂ (Form.Chooses source envs) options pairs ∧
    given.options = .ofList pairs
  /-- A key has the value of the last option with that key. -/
  last : ∀ key v, given.options.find? key = some v ↔ ∃ before o after,
    options = before ++ o :: after ∧ o.1.text = key ∧ (∀ o' ∈ after, o'.1.text ≠ key) ∧
      Lexical.atomValue source envs o.2 = .ok v

/-- What was seen before it goes on stays seen. -/
theorem Traced.exists_sights_andThen (t : Traced κ) (next : Reply κ → World κ → Traced κ) :
    ∃ more, (t.andThen next).sights = t.sights ++ more := by
  unfold Traced.andThen
  cases t.outcome with
  | reply r w => exact ⟨_, rfl⟩
  | abort a => exact ⟨[], (List.append_nil _).symm⟩

theorem Action.exists_sights_trace (a : Action κ) (eval : Tracer κ) (pending : List Pending)
    (w : World κ) : ∃ rest, (a.trace eval pending w).sights = ⟨⟨w, pending⟩, .acts a⟩ :: rest := by
  cases a <;> exact ⟨_, rfl⟩

namespace Form

open Traced

section Calls

variable {host : Host κ} {w : World κ} {source : Source} {operator : Name} {items : List Item}
  {span : Text.Span}

theorem tracer_outcome (host : Host κ) (w : World κ) (pending : List Pending) (source : Source)
    (form : Form) :
    (w.tracer host pending source form w).outcome = w.evaluator host source form w :=
  traceWithin_outcome host _ pending source form w

/-- A call that the limit allows. -/
theorem tracer_call (hdepth : w.context.depth < w.context.maxDepth) (pending : List Pending) :
    w.tracer host pending source (.call operator items span) w =
      see (.begins source (.call operator items span)) ⟨w, pending⟩
        ((traceDispatch host (w.enter.tracer host) (.leave :: pending) source operator items span
          w.enter).ending .leave pending) := by
  have hbound : w.context.maxDepth - w.context.depth =
      w.enter.context.maxDepth - w.enter.context.depth + 1 := by
    show _ = w.context.maxDepth - (w.context.depth + 1) + 1
    omega
  rw [World.tracer, World.tracer, ← hbound, traceWithin, traceStep,
    if_neg (Nat.not_le_of_lt hdepth)]

/-- The form fails uncalled if one thing more is seen than that it begins, and this is no action. -/
theorem failsUncalled_of_tracer {form : Form} {e : Error} (event : Event κ)
    (stage : List Pending → Stage κ) (hevent : ∀ a, event ≠ .acts a)
    (htrace : ∀ pending, w.tracer host pending source form w =
      ⟨[⟨⟨w, pending⟩, .begins source form⟩, ⟨stage pending, event⟩], .reply (.error e) w⟩) :
    w.FailsUncalled host source form e := by
  constructor
  · rw [← tracer_outcome host w [], htrace]
  · intro pending s hs a
    rw [htrace] at hs
    simp only [List.mem_cons, List.not_mem_nil, or_false] at hs
    rcases hs with rfl | rfl
    · intro hbegins
      cases hbegins
    · exact hevent a

theorem failsUncalled_of_request (hdepth : w.context.depth < w.context.maxDepth) {e : Error}
    (h : request host source operator items span w.enter.context = .error (.error e)) :
    w.FailsUncalled host source (.call operator items span) e := by
  refine failsUncalled_of_tracer (.ends (.error e)) (⟨w.enter, .leave :: ·⟩)
    (fun a ha => by cases ha) fun pending => ?_
  rw [tracer_call hdepth, traceDispatch, h]
  rfl

theorem failsUncalled_of_limit (hdepth : w.context.maxDepth ≤ w.context.depth) :
    w.FailsUncalled host source (.call operator items span)
      (.failed (.recursionLimit w.context.maxDepth) ⟨source, span, none⟩) := by
  refine failsUncalled_of_tracer (.refuses source span) (⟨w, ·⟩)
    (fun a ha => by cases ha) fun pending => ?_
  rw [World.tracer, traceWithin, traceStep, if_pos hdepth]
  rfl

theorem callsWith_of_request (hdepth : w.context.depth < w.context.maxDepth) {p : Procedure κ}
    {given : Call κ}
    (h : request host source operator items span w.enter.context = .ok (host p given)) :
    w.CallsWith host source (.call operator items span) p given := by
  have htraces : (w.enter.tracer host).Traces (w.enter.evaluator host) :=
    traceWithin_outcome host _
  constructor
  · rw [← tracer_outcome host w [], tracer_call hdepth, traceDispatch, h, outcome_see,
      outcome_ending, World.resume, outcome_andThen, Action.trace_outcome htraces]
    cases (host p given).run (w.enter.evaluator host) w.enter <;> rfl
  · intro pending
    rw [tracer_call hdepth, traceDispatch, h, World.resume]
    obtain ⟨rest, hrest⟩ :=
      (host p given).exists_sights_trace (w.enter.tracer host) (.leave :: pending) w.enter
    obtain ⟨more, hmore⟩ := exists_sights_andThen ((host p given).trace (w.enter.tracer host)
      (.leave :: pending) w.enter) fun r w' =>
        ofOutcome (.reply (r.mapError (Error.locate source span)) w')
    obtain ⟨last, hlast⟩ := exists_sights_andThen
      (((host p given).trace (w.enter.tracer host) (.leave :: pending) w.enter).andThen
        fun r w' => ofOutcome (.reply (r.mapError (Error.locate source span)) w'))
      fun r w' => see (.ends r) ⟨w', .leave :: pending⟩ (ofOutcome (Pending.leave.finish r w'))
    refine ⟨rest ++ more ++ last, congrArg (List.cons _) (hlast.trans ?_)⟩
    rw [hmore, hrest]
    rfl

end Calls

section Requests

variable {source : Source} {operator : Name} {items : List Item} {span : Text.Span} {c : Context κ}
  {envs : List (Environment κ)}

theorem request_of_unbound (host : Host κ) (h : c.arena.Chain c.arena.active envs)
    (hfind : envs.findSome? (·.find? operator.text) = none) :
    request host source operator items span c =
      .error (.error (.unbound operator.text ⟨source, operator.span, none⟩)) := by
  rw [request, operator.value_eq_lexical h, Lexical.nameValue, hfind]
  rfl

theorem request_of_not_procedure (host : Host κ) (h : c.arena.Chain c.arena.active envs)
    {v : Value κ} (hfind : envs.findSome? (·.find? operator.text) = some v)
    (hv : ∀ q, v ≠ .procedure q) :
    request host source operator items span c =
      .error (.error (.failed (.notProcedure operator.text v.type) ⟨source, span, none⟩)) := by
  rw [request, operator.value_eq_lexical h, Lexical.nameValue, hfind]
  cases v with
  | procedure q => exact absurd rfl (hv q)
  | _ => rfl

theorem request_of_procedure (host : Host κ) (h : c.arena.Chain c.arena.active envs)
    {q : Procedure κ} (hfind : envs.findSome? (·.find? operator.text) = some (.procedure q)) :
    request host source operator items span c =
      (collect source c items ⟨[], ∅⟩).map (host q) := by
  rw [request, operator.value_eq_lexical h, Lexical.nameValue, hfind]
  rfl

end Requests

end Form

/-- The operands of a call are those that are written, with their shapes and texts. -/
theorem Tree.Writes.described {source : Source} {u : Tree} {operator : Form.Name}
    {operands : List Form} {options : List (Form.Name × Form.Atom)}
    (h : u.Writes source operator operands options) (scope : ScopeId) (owner : Nat) :
    List.Forall₂ (fun v (x : Operand) => ∃ node, v.firstSignificant? = some node ∧
      x.shape = .ofRule node.rule ∧ x.text = source.slice (node.trimmedSpan source.chars))
      (u.children.filter (·.rule == .value)) (operands.map (⟨source, ·, scope, owner⟩)) := by
  rw [List.forall₂_map_right_iff]
  refine h.operands.imp fun v f hf => ?_
  obtain ⟨node, hnode, hat⟩ := hf
  refine ⟨node, hnode, hat.shape, ?_⟩
  rw [← hat.span]
  rfl

/-- A call hands over exactly what is written. Take an expression of an accepted script and evaluate
it in a context, at any moment. Where the limit does not allow the call, or the operator is not
bound to a procedure in the environments from the active scope outwards, it fails with that error,
whatever its options are. If it is bound to a procedure, the first option that has no value in these
environments tells the error. In all these cases no procedure does anything, and the world stays as
it is. If all options have values, the procedure is called. It gets one operand for each value, in
order, bound to the active scope, and the bindings in which each key that is written has the value
of the last option with that key, and no other key is bound. -/
theorem call_hands_over_written (host : Host κ) {m : Moment κ} (hm : m.Reachable) {source : Source}
    {p : Program} {tree u : Tree} (hp : Program.compile source = .ok p)
    (htree : p.tree? = some tree) (hu : u ∈ tree.nodes) (hrule : u.rule = .expression) :
    ∃ form operator operands options envs, Form.ofTree source.chars u = .ok form ∧
      u.Writes source operator operands options ∧ m.arena.Chain m.arena.active envs ∧
      (m.world.context.maxDepth ≤ m.world.context.depth →
        m.world.FailsUncalled host source form (.failed
          (.recursionLimit m.world.context.maxDepth) ⟨source, u.trimmedSpan source.chars, none⟩)) ∧
      (m.world.context.depth < m.world.context.maxDepth →
        (envs.findSome? (·.find? operator.text) = none →
          m.world.FailsUncalled host source form
            (.unbound operator.text ⟨source, operator.span, none⟩)) ∧
        (∀ v, envs.findSome? (·.find? operator.text) = some v → (∀ q, v ≠ .procedure q) →
          m.world.FailsUncalled host source form (.failed (.notProcedure operator.text v.type)
            ⟨source, u.trimmedSpan source.chars, none⟩)) ∧
        ∀ q, envs.findSome? (·.find? operator.text) = some (.procedure q) →
          (∀ before o after e, options = before ++ o :: after →
            (∀ o' ∈ before, ∃ v, Lexical.atomValue source envs o'.2 = .ok v) →
            Lexical.atomValue source envs o.2 = .error e →
            m.world.FailsUncalled host source form e) ∧
          ((∀ o ∈ options, ∃ v, Lexical.atomValue source envs o.2 = .ok v) →
            ∃ given, given.HandsOver source m.world.context envs u operands options ∧
              m.world.CallsWith host source form q given)) := by
  obtain ⟨operator, items, hread, hwrites⟩ := Program.exists_writes hp htree hu hrule
  obtain ⟨envs, henvs⟩ := hm.wellScoped.arena.exists_active_chain
  have henter : m.world.enter.context.arena.Chain m.world.enter.context.arena.active envs := henvs
  refine ⟨_, operator, _, _, envs, hread, hwrites, henvs, Form.failsUncalled_of_limit,
    fun hdepth => ⟨fun hfind => ?_, fun v hfind hv => ?_, fun q hfind => ⟨?_, fun hvalues => ?_⟩⟩⟩
  · exact Form.failsUncalled_of_request hdepth (Form.request_of_unbound host henter hfind)
  · exact Form.failsUncalled_of_request hdepth (Form.request_of_not_procedure host henter hfind hv)
  · intro before o after e hoptions hbefore ho
    refine Form.failsUncalled_of_request hdepth ?_
    rw [Form.request_of_procedure host henter hfind,
      Form.collect_eq_error henter hoptions hbefore ho]
    rfl
  · obtain ⟨pairs, hpairs⟩ := Form.exists_chooses hvalues
    have hcollect := Form.collect_eq_ok henter hpairs ⟨[], ∅⟩
    refine ⟨⟨_, .ofList pairs⟩, ⟨rfl, hwrites.described _ _, ⟨pairs, hpairs, rfl⟩,
      Form.find?_ofList_of_chooses hpairs⟩, Form.callsWith_of_request hdepth ?_⟩
    rw [Form.request_of_procedure host henter hfind, hcollect]
    rfl

/-- A call with options on both sides of its operand, both with the same key. -/
def Source.mixedCall : Source := ⟨"script", "(f #:k x (g y) #:k y)"⟩

def Environment.mixedCall : Environment Builtin :=
  Bindings.ofList [("f", .procedure ⟨0, .tick, []⟩), ("x", .int 1), ("y", .int 2)]

/-- A new context in which the operator of the call is bound to a procedure. -/
def Moment.mixedCall : Moment Builtin :=
  ⟨⟨Context.new 0 .mixedCall 8 .absent, .fresh, 1⟩, [], [], []⟩

theorem Moment.mixedCall_reachable : Moment.mixedCall.Reachable := by
  refine ⟨_, _, ⟨0, .mixedCall, 8, .absent, rfl, fun x hx => ?_, rfl, rfl⟩, .stop _⟩
  cases hx

/-- The integer that an atom stands for in the environment of the call. -/
def Form.mixedInteger? : Form → Option Int64
  | .atom a =>
    match Lexical.atomValue .mixedCall [Environment.mixedCall] a with
    | .ok (.int i) => some i
    | _ => none
  | .call _ _ _ => none

/-- The text at a node of the call, and the integer that it stands for. -/
def Tree.readMixed (v : Tree) : String × Option Int64 :=
  (Source.mixedCall.slice (v.trimmedSpan Source.mixedCall.chars),
    (Form.ofTree Source.mixedCall.chars v).toOption.bind Form.mixedInteger?)

/-- What is read from the parts of an option is its key and its value. -/
theorem Tree.WritesOption.of_readMixed {v : Tree} {o : Form.Name × Form.Atom} {key text : String}
    {i : Int64} {n : Option Int64} (h : v.WritesOption .mixedCall o)
    (hv : (v.children.filter (·.rule != .spacing)).map readMixed = [(key, n), (text, some i)]) :
    o.1.text = key ∧ Lexical.atomValue .mixedCall [Environment.mixedCall] o.2 = .ok (.int i) := by
  obtain ⟨k, a, hchildren, hkey, hvalue⟩ := h
  rw [hchildren] at hv
  simp only [List.map_cons, List.map_nil, List.cons.injEq, and_true, readMixed, hvalue.read,
    Prod.mk.injEq, Except.toOption, Option.bind_some, Form.mixedInteger?] at hv
  obtain ⟨⟨hk, -⟩, -, hi⟩ := hv
  refine ⟨by rw [hkey.text, hkey.span, hk], ?_⟩
  split at hi
  next j hj =>
    cases hi
    exact hj
  · cases hi

/-- What is read from the operator, from the operands, and from each option of an expression. -/
def Tree.readParts (u : Tree) : List (List (String × Option Int64)) :=
  ((u.children.find? (·.rule == .operator)).elim [] Tree.children).map readMixed ::
    (u.children.filter (·.rule == .value)).map
      (fun v => (v.firstSignificant?.map readMixed).getD ("", none)) ::
    ((u.children.filter (·.rule == .optionList)).flatMap Tree.children).map
      fun v => (v.children.filter (·.rule != .spacing)).map readMixed

/-- The operand is handed over, and of the two options the second one. -/
theorem call_hands_over_written_mixed :
    ∃ p tree u form q given, Program.compile .mixedCall = .ok p ∧ p.tree? = some tree ∧
      u ∈ tree.nodes ∧ u.rule = .expression ∧ Form.ofTree Source.mixedCall.chars u = .ok form ∧
      Moment.mixedCall.Reachable ∧
      Moment.mixedCall.world.CallsWith Library.host .mixedCall form q given ∧
      given.operands.map Operand.text = ["(g y)"] ∧ given.options.find? "k" = some (.int 2) := by
  have hread : (((Program.compile .mixedCall).toOption.bind Program.tree?).bind
      fun t => t.nodes.find? (·.rule == .expression)).map Tree.readParts =
      some [[("f", none)], [("(g y)", none)],
        [("k", none), ("x", some 1)], [("k", none), ("y", some 2)]] := by
    decide +kernel
  obtain ⟨p, tree, u, hp, htree, hu, hrule, hread⟩ := Program.exists_node_of_find? hread
  obtain ⟨form, operator, operands, options, envs, hform, hwrites, henvs, -, hcall⟩ :=
    call_hands_over_written Library.host Moment.mixedCall_reachable hp htree hu hrule
  obtain rfl : envs = [.mixedCall] := by
    have hroot : Moment.mixedCall.arena.frame? .root = some ⟨.mixedCall, none, 0⟩ := rfl
    cases henvs with
    | outermost hf _ =>
      cases hroot.symm.trans hf
      rfl
    | inside hf hparent _ _ =>
      cases hroot.symm.trans hf
      cases hparent
  rw [Tree.readParts] at hread
  obtain ⟨hop, hread⟩ := List.cons.inj hread
  obtain ⟨hvalues, hparts⟩ := List.cons.inj hread
  obtain ⟨o, v, ho, hv, hat⟩ := hwrites.operator
  have hoperator : operator.text = "f" := by
    rw [ho, Option.elim_some, hv] at hop
    rw [hat.text, hat.span]
    exact (Prod.mk.inj (List.cons.inj hop).1).1
  have hoptions := hwrites.options
  obtain ⟨v₁, vs, hvs, h₁, hparts⟩ := List.map_eq_cons_iff.mp hparts
  obtain ⟨v₂, vs', rfl, h₂, hparts⟩ := List.map_eq_cons_iff.mp hparts
  rw [List.map_eq_nil_iff.mp hparts] at hvs
  rw [hvs] at hoptions
  obtain ⟨o₁, os, ho₁, hos, rfl⟩ := List.forall₂_cons_left_iff.mp hoptions
  obtain ⟨o₂, os', ho₂, hos', rfl⟩ := List.forall₂_cons_left_iff.mp hos
  cases hos'
  obtain ⟨hkey₁, hvalue₁⟩ := ho₁.of_readMixed h₁
  obtain ⟨hkey₂, hvalue₂⟩ := ho₂.of_readMixed h₂
  obtain ⟨-, -, hcall⟩ := hcall (by decide)
  obtain ⟨-, hcall⟩ := hcall ⟨0, .tick, []⟩ (by rw [hoperator]; rfl)
  obtain ⟨given, hgiven, hcalls⟩ := hcall (by simp [hvalue₁, hvalue₂])
  refine ⟨p, tree, u, form, _, given, hp, htree, hu, hrule, hform, Moment.mixedCall_reachable,
    hcalls, ?_, ?_⟩
  · have hdescribed := hgiven.described
    obtain ⟨w, ws, hws, hw, hws'⟩ := List.map_eq_cons_iff.mp hvalues
    rw [hws, List.map_eq_nil_iff.mp hws'] at hdescribed
    obtain ⟨x, xs, ⟨node, hnode, -, htext⟩, hxs, hx⟩ := List.forall₂_cons_left_iff.mp hdescribed
    cases hxs
    rw [hnode] at hw
    rw [hx, List.map_singleton, htext]
    exact congrArg (fun a => [a]) (Prod.mk.inj hw).1
  · exact (hgiven.last "k" (.int 2)).mpr ⟨[o₁], o₂, [], rfl, hkey₂, List.forall_mem_nil _, hvalue₂⟩

end Fexpr
