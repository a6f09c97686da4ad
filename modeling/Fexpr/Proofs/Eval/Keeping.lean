import Fexpr.Proofs.Eval.Closures
import Fexpr.Proofs.Eval.Nesting
import Fexpr.Proofs.Eval.Steps
import Fexpr.Proofs.Eval.Tidiness

/-!
# What evaluations keep

A world keeps operands in the bindings of its scopes and in what the host was handed. Opening and
releasing scopes brings no others in, and neither does looking things up, so whatever is true of all
operands that are kept can only be changed by procedures (`World.KeepsOnly`).

Procedures that keep none of the operands that they are called with change nothing. If only such
procedures are called, no operand that is made in an evaluation is kept when a scope is released,
and none of the scopes stays behind (`World.KeepsOnly.trace_tidy`).
-/

namespace Fexpr

variable {κ : Type} {P : Operand → Prop}

/-! ## Worlds -/

/-- The arena is well-formed, and all operands that are kept satisfy `P`. -/
structure World.KeepsOnly (P : Operand → Prop) (w : World κ) : Prop where
  arena : w.context.arena.WellFormed
  bound : ∀ x ∈ w.context.arena.operands, P x
  captured : ∀ x ∈ w.host.captured.values, P x

theorem Reply.keepsOnly_iff {r : Reply κ} :
    Reply.KeepsOnly P r ↔ ∀ x ∈ Reply.operands r, P x := by
  cases r with
  | error e => exact iff_of_true (.error e) (List.forall_mem_nil _)
  | ok v => exact ⟨fun h => h v rfl, Reply.KeepsOnly.ok⟩

namespace World.KeepsOnly

variable {w : World κ} {s parent : ScopeId} {env : Environment κ}

theorem withArena (h : w.KeepsOnly P) {a : Arena κ} (ha : a.WellFormed)
    (hbound : ∀ x ∈ a.operands, P x) : (w.withArena a).KeepsOnly P :=
  ⟨ha, hbound, h.captured⟩

theorem pushed (h : w.KeepsOnly P) (henv : env.KeepsOnly P) {a : Arena κ}
    (hpush : w.context.arena.push parent env = .ok (s, a)) : (w.withArena a).KeepsOnly P := by
  obtain ⟨hlive, -, rfl⟩ := Arena.push_cases hpush
  refine h.withArena (h.arena.pushed hlive) fun x hx => ?_
  rw [Arena.operands_pushed] at hx
  rcases List.mem_append.mp hx with hx | hx
  · exact h.bound x hx
  · exact henv x hx

theorem activated (h : w.KeepsOnly P) {a : Arena κ} (ha : w.context.arena.activate s = .ok a) :
    (w.withArena a).KeepsOnly P := by
  obtain ⟨hlive, rfl⟩ := Arena.activate_cases ha
  exact h.withArena (h.arena.activate hlive) h.bound

theorem defined (h : w.KeepsOnly P) (id : String) {v : Value κ} (hv : v.KeepsOnly P) :
    (w.withArena (w.context.arena.define id v)).KeepsOnly P := by
  refine h.withArena (h.arena.define id v) fun x hx => ?_
  rcases Arena.mem_operands_define hx with hx | hx
  · exact hv x hx
  · exact h.bound x hx

theorem released (h : w.KeepsOnly P) (owner : Nat) (held : List Operand) (mark : Nat) :
    (w.withArena (w.context.arena.release owner held mark)).KeepsOnly P := by
  refine h.withArena (h.arena.release owner held mark) fun x hx => ?_
  obtain ⟨k, -, -, hpop, -⟩ :=
    Arena.exists_pop_eq owner held (w.context.arena.size - mark) w.context.arena
  rw [Arena.release, hpop] at hx
  exact h.bound x (Arena.mem_operands_of_shrink hx)

theorem captures (h : w.KeepsOnly P) (name : String) {x : Operand} (hx : P x) :
    World.KeepsOnly P
      { w with host := { w.host with captured := w.host.captured.insert name x } } := by
  refine ⟨h.arena, h.bound, fun y hy => ?_⟩
  rcases Bindings.eq_or_mem_of_mem_values_insert hy with rfl | hy
  · exact hx
  · exact h.captured y hy

theorem entered (h : w.KeepsOnly P) : w.enter.KeepsOnly P := ⟨h.arena, h.bound, h.captured⟩

/-- A call that ends brings no operands in. -/
theorem finish (h : w.KeepsOnly P) {p : Pending} {r r' : Reply κ} {w' : World κ}
    (hfinish : p.finish r w = .reply r' w') : w'.KeepsOnly P ∧ r' = r := by
  cases p with
  | release mark =>
    cases hfinish
    exact ⟨h.released _ _ mark, rfl⟩
  | restore s =>
    rw [Pending.finish] at hfinish
    cases ha : w.context.arena.activate s with
    | error dead =>
      rw [ha] at hfinish
      cases hfinish
    | ok a =>
      rw [ha] at hfinish
      cases hfinish
      exact ⟨h.activated ha, rfl⟩
  | leave =>
    cases hfinish
    exact ⟨⟨h.arena, h.bound, h.captured⟩, rfl⟩

/-- What the arena answers is bound in it. -/
theorem found (h : w.KeepsOnly P) {id : String} {v : Option (Value κ)}
    (hv : w.context.arena.lookupFrom s id = .ok v) : ∀ x ∈ Value.operandsOfFound v, P x := by
  by_cases hs : w.context.arena.isLive s = true
  · obtain ⟨v', hv', hfound⟩ := h.arena.exists_lookupFrom hs id
    cases hv.symm.trans hv'
    exact fun x hx => h.bound x (hfound x hx)
  · rw [Arena.lookupFrom_eq_error hs] at hv
    cases hv

theorem chain_keepsOnly (h : w.KeepsOnly P) {envs : List (Environment κ)}
    (hchain : w.context.arena.Chain w.context.arena.active envs) :
    ∀ env ∈ envs, env.KeepsOnly P :=
  fun _ henv x hx => h.bound x (hchain.mem_operands henv hx)

theorem atom (h : w.KeepsOnly P) {source : Source} {a : Form.Atom} {v : Value κ}
    (hv : a.value source w.context.arena = .ok v) : v.KeepsOnly P := by
  obtain ⟨envs, hchain⟩ := h.arena.exists_active_chain
  rw [a.value_eq_lexical hchain] at hv
  cases hvalue : Lexical.atomValue source envs a with
  | error e =>
    rw [hvalue] at hv
    cases hv
  | ok v' =>
    rw [hvalue] at hv
    cases hv
    exact Lexical.atomValue_keepsOnly (h.chain_keepsOnly hchain) a v hvalue

/-- What a call hands over, its operands apart, comes from what is bound. -/
theorem request (h : w.KeepsOnly P) {host : Host κ} {source : Source} {operator : Form.Name}
    {items : List Form.Item} {span : Text.Span} {a : Action κ}
    (ha : Form.request host source operator items span w.context = .ok a) :
    ∃ p given, operator.value source w.context.arena = .ok (.procedure p) ∧
      Form.collect source w.context items ⟨[], ∅⟩ = .ok given ∧ a = host p given ∧
      (∀ x ∈ p.captured, P x) ∧ Environment.KeepsOnly P given.options := by
  obtain ⟨envs, hchain⟩ := h.arena.exists_active_chain
  have hkeeps := h.chain_keepsOnly hchain
  have hname : operator.value source w.context.arena =
      (Lexical.nameValue source envs operator).mapError Stop.error :=
    operator.value_eq_lexical hchain
  cases hvalue : Lexical.nameValue source envs operator with
  | error e =>
    rw [hvalue] at hname
    rw [Form.request, hname] at ha
    cases ha
  | ok v =>
    rw [hvalue] at hname
    rw [Form.request, hname] at ha
    cases v with
    | procedure p =>
      change (Form.collect source w.context items ⟨[], ∅⟩).map (host p) = .ok a at ha
      rcases Form.collect_cases source hchain items with
        ⟨e, hcollect, -⟩ | ⟨given, hcollect, hlexical⟩
      · rw [hcollect] at ha
        cases ha
      · rw [hcollect] at ha
        cases ha
        refine ⟨p, given, hname, hcollect, rfl, ?_, ?_⟩
        · exact Lexical.nameValue_keepsOnly hkeeps operator _ hvalue
        · exact fun x hx => Lexical.collect_keepsOnly hkeeps .empty hlexical x hx
    | _ => cases ha

end World.KeepsOnly

/-! ## Evaluations -/

/-- Everything that is seen satisfies `Q`. In the end, the world and the reply keep only operands
that satisfy `P`. -/
structure Traced.Keeps (Q : Sight κ → Prop) (P : Operand → Prop) (t : Traced κ) : Prop where
  sights : ∀ s ∈ t.sights, Q s
  reply : ∀ r w, t.outcome = .reply r w → w.KeepsOnly P ∧ ∀ x ∈ Reply.operands r, P x

namespace Traced.Keeps

variable {Q : Sight κ → Prop} {t : Traced κ} {w : World κ}

theorem ofReply {r : Reply κ} (hw : w.KeepsOnly P) (hr : ∀ x ∈ Reply.operands r, P x) :
    (ofOutcome (.reply r w)).Keeps Q P where
  sights := List.forall_mem_nil _
  reply := by
    intro r' w' h
    cases h
    exact ⟨hw, hr⟩

theorem ofError (e : Error) (hw : w.KeepsOnly P) :
    (ofOutcome (.reply (.error e) w)).Keeps Q P := .ofReply hw (List.forall_mem_nil _)

theorem ofAbort (a : Abort) : (ofOutcome (.abort a) : Traced κ).Keeps Q P where
  sights := List.forall_mem_nil _
  reply := by
    intro r w h
    cases h

theorem see (h : t.Keeps Q P) {event : Event κ} {st : Stage κ} (hsight : Q ⟨st, event⟩) :
    (see event st t).Keeps Q P :=
  ⟨List.forall_mem_cons.mpr ⟨hsight, h.sights⟩, h.reply⟩

theorem andThen {next : Reply κ → World κ → Traced κ} (h : t.Keeps Q P)
    (hnext : ∀ r w, t.outcome = .reply r w → w.KeepsOnly P → (∀ x ∈ Reply.operands r, P x) →
      (next r w).Keeps Q P) : (t.andThen next).Keeps Q P := by
  unfold Traced.andThen
  split
  next r w hr =>
    obtain ⟨hw, hoperands⟩ := h.reply r w hr
    have hlater := hnext r w hr hw hoperands
    exact ⟨List.forall_mem_append.mpr ⟨h.sights, hlater.sights⟩, hlater.reply⟩
  · refine ⟨h.sights, fun r w hr => ?_⟩
    cases hr

theorem answered {α : Type} {answer : Except ScopeId α} {next : α → Traced κ}
    (hnext : ∀ a, answer = .ok a → (next a).Keeps Q P) : (answered answer next).Keeps Q P := by
  cases answer with
  | error s => exact ofAbort (.notLive s)
  | ok a => exact hnext a rfl

theorem resume {α : Type} {answer : Except Stop α} {next : α → Traced κ} (hw : w.KeepsOnly P)
    (hnext : ∀ a, answer = .ok a → (next a).Keeps Q P) : (w.resume answer next).Keeps Q P := by
  cases answer with
  | error stop =>
    cases stop with
    | error e => exact ofError e hw
    | abort a => exact ofAbort a
  | ok a => exact hnext a rfl

theorem ending (h : t.Keeps Q P) {p : Pending} {pending : List Pending}
    (hsight : ∀ r w, w.KeepsOnly P → (∀ x ∈ Reply.operands r, P x) →
      Q ⟨⟨w, p :: pending⟩, .ends r⟩) : (t.ending p pending).Keeps Q P := by
  refine h.andThen fun r w _ hw hr => .see ⟨List.forall_mem_nil _, fun r' w' hfinish => ?_⟩
    (hsight r w hw hr)
  obtain ⟨hw', rfl⟩ := hw.finish hfinish
  exact ⟨hw', hr⟩

end Traced.Keeps

/-- Only procedures of the given codes are called. -/
def Traced.Calls (C : κ → Prop) (t : Traced κ) : Prop := ∀ q ∈ t.callees, C q.code

namespace Traced.Calls

variable {C : κ → Prop} {t : Traced κ} {event : Event κ} {stage : Stage κ} {u : World κ}
  {next : Reply κ → World κ → Traced κ}

theorem of_see (h : (see event stage t).Calls C) : t.Calls C := by
  intro q hq
  obtain ⟨s, hs, hcallee⟩ := List.mem_filterMap.mp hq
  exact h q (List.mem_filterMap.mpr ⟨s, List.mem_cons_of_mem _ hs, hcallee⟩)

/-- When a call begins, the procedure is such that is called. -/
theorem of_begins {source : Source} {operator : Form.Name} {items : List Form.Item}
    {span : Text.Span} (h : (see (.begins source (.call operator items span)) stage t).Calls C)
    {p : Procedure κ}
    (hp : operator.value source stage.world.context.arena = .ok (.procedure p)) : C p.code := by
  refine h p (List.mem_filterMap.mpr ⟨_, List.mem_cons_self, ?_⟩)
  simp only [Sight.callee?, hp]

theorem of_andThen (h : (t.andThen next).Calls C) : t.Calls C := by
  intro q hq
  obtain ⟨s, hs, hcallee⟩ := List.mem_filterMap.mp hq
  refine h q (List.mem_filterMap.mpr ⟨s, ?_, hcallee⟩)
  unfold Traced.andThen
  split
  · exact List.mem_append_left _ hs
  · exact hs

theorem of_reply (h : (t.andThen next).Calls C) {r : Reply κ} (hr : t.outcome = .reply r u) :
    (next r u).Calls C := by
  intro q hq
  obtain ⟨s, hs, hcallee⟩ := List.mem_filterMap.mp hq
  refine h q (List.mem_filterMap.mpr ⟨s, ?_, hcallee⟩)
  simp only [Traced.andThen, hr]
  exact List.mem_append_right _ hs

end Traced.Calls

/-! ## Procedures that keep none of their operands -/

/-- If a call in progress is about to end, only operands are kept that satisfy `P`. -/
def Sight.KeepsOnly (P : Operand → Prop) (s : Sight κ) : Prop :=
  ∀ r, s.event = .ends r → s.world.KeepsOnly P ∧ ∀ x ∈ Reply.operands r, P x

theorem Sight.keepsOnly_of_isEnd {s : Sight κ} (h : s.event.isEnd = false) : s.KeepsOnly P := by
  intro r hevent
  rw [hevent] at h
  cases h

theorem Stage.Step.id_eq {st st' : Stage κ} (h : Step st st') :
    st'.world.context.id = st.world.context.id := by
  cases h <;> rfl

/-- Nothing is pinned if no operand of the context is kept. -/
theorem Sight.KeepsOnly.tidy {s : Sight κ} (h : s.KeepsOnly P)
    (hforeign : ∀ x, P x → x.owner ≠ s.world.context.id) : s.Tidy := by
  intro r mark rest hevent _ _ j f _ _
  obtain ⟨hw, hr⟩ := h r hevent
  rw [Bool.eq_false_iff, ne_eq, Arena.isPinned_iff]
  rintro ⟨x, hx, howner, -⟩
  refine hforeign x ?_ howner
  rcases List.mem_append.mp hx with hx | hx
  · exact (World.mem_heldOperands_iff.mp hx).elim (hr x) (hw.captured x)
  · exact hw.bound x (Arena.mem_operands_of_shrink hx)

/-- Whatever is evaluated, and whatever is kept before, nothing else is kept as long as only
procedures are called that keep none of their operands. -/
def Tracer.KeepsNone (host : Host κ) (tracer : Tracer κ) : Prop :=
  ∀ (P : Operand → Prop) pending source form (w : World κ), w.KeepsOnly P →
    (tracer pending source form w).Calls host.KeepsNone →
      (tracer pending source form w).Keeps (Sight.KeepsOnly P) P

section Runs

open Traced

variable {host : Host κ} {tracer : Tracer κ} {w : World κ} {pending : List Pending}

theorem Traced.Keeps.ended {t : Traced κ} (h : t.Keeps (Sight.KeepsOnly P) P) (p : Pending)
    (pending : List Pending) : (t.ending p pending).Keeps (Sight.KeepsOnly P) P := by
  refine h.ending fun r w hw hr r' hevent => ?_
  cases hevent
  exact ⟨hw, hr⟩

theorem World.KeepsOnly.traceIn_keeps (h : tracer.KeepsNone host) (hw : w.KeepsOnly P)
    {x : Operand} {s : ScopeId} (hcalls : (w.traceIn tracer pending x s).Calls host.KeepsNone) :
    (w.traceIn tracer pending x s).Keeps (Sight.KeepsOnly P) P := by
  unfold World.traceIn at hcalls ⊢
  by_cases hx : x.owner ≠ w.context.id
  · rw [if_pos hx]
    exact .ofAbort _
  · rw [if_neg hx] at hcalls ⊢
    refine .answered fun arena ha => .ended ?_ _ pending
    rw [ha] at hcalls
    exact h P _ _ _ _ (hw.activated ha) hcalls.of_andThen

theorem World.KeepsOnly.traceLayered_keeps (h : tracer.KeepsNone host) (hw : w.KeepsOnly P)
    {x : Operand} {env : Environment κ} (henv : env.KeepsOnly P)
    (hcalls : (w.traceForce tracer pending x (.layered env)).Calls host.KeepsNone) :
    (w.traceForce tracer pending x (.layered env)).Keeps (Sight.KeepsOnly P) P := by
  rw [World.traceForce] at hcalls ⊢
  by_cases hx : x.owner ≠ w.context.id
  · rw [if_pos hx]
    exact .ofAbort _
  · rw [if_neg hx, World.traceChild] at hcalls ⊢
    refine .answered fun opened hpush => .ended ?_ _ pending
    rw [hpush] at hcalls
    exact (hw.pushed henv hpush).traceIn_keeps h hcalls.of_andThen

theorem Action.KeepsOnly.trace_keeps (h : tracer.KeepsNone host) {a : Action κ}
    (ha : a.KeepsOnly P) (hw : w.KeepsOnly P)
    (hcalls : (a.trace tracer pending w).Calls host.KeepsNone) :
    (a.trace tracer pending w).Keeps (Sight.KeepsOnly P) P := by
  have hacts : ∀ (a : Action κ) (w : World κ), Sight.KeepsOnly P ⟨⟨w, pending⟩, .acts a⟩ :=
    fun _ _ => Sight.keepsOnly_of_isEnd rfl
  induction a generalizing w with
  | done v =>
    rw [Action.trace]
    exact .see (.ofReply hw (Reply.keepsOnly_iff.mp (.ok ha))) (hacts _ w)
  | fail e =>
    rw [Action.trace]
    exact .see (.ofError e hw) (hacts _ w)
  | force x place next ih =>
    rw [Action.trace] at hcalls ⊢
    have hcalls := hcalls.of_see
    refine .see ?_ (hacts _ w)
    cases place with
    | own =>
      refine .andThen (hw.traceIn_keeps h hcalls.of_andThen) fun r u ho hu hr => ?_
      exact ih r (ha r (Reply.keepsOnly_iff.mpr hr)) hu (hcalls.of_reply ho)
    | layered env =>
      obtain ⟨henv, hnext⟩ := ha
      refine .andThen (hw.traceLayered_keeps h henv hcalls.of_andThen) fun r u ho hu hr => ?_
      exact ih r (hnext r (Reply.keepsOnly_iff.mpr hr)) hu (hcalls.of_reply ho)
    | scope s => exact ha.elim
  | maxDepth next ih | hasData next ih =>
    rw [Action.trace] at hcalls ⊢
    exact .see (ih _ (ha _) hw hcalls.of_see) (hacts _ w)
  | tick next ih | fresh next ih =>
    rw [Action.trace] at hcalls ⊢
    refine .see ?_ (hacts _ w)
    exact ih _ (ha _) ⟨hw.arena, hw.bound, hw.captured⟩ hcalls.of_see
  | emit line next ih =>
    rw [Action.trace] at hcalls ⊢
    refine .see ?_ (hacts _ w)
    exact ih ha ⟨hw.arena, hw.bound, hw.captured⟩ hcalls.of_see
  | capture name x next ih =>
    obtain ⟨hx, hnext⟩ := ha
    rw [Action.trace] at hcalls ⊢
    exact .see (ih hnext (hw.captures name hx) hcalls.of_see) (hacts _ w)
  | lookup | lookupFrom | lookupLocal | lookupOuter | define | derive | withDerived | activeScope
  | scopeCount => exact ha.elim

namespace Form

theorem traceStep_keepsNone (h : tracer.KeepsNone host) :
    (traceStep host tracer).KeepsNone host := by
  intro P pending source form w hw hcalls
  cases form with
  | atom a =>
    refine .see (.resume hw fun v hv => ?_) (Sight.keepsOnly_of_isEnd rfl)
    exact .ofReply hw (hw.atom hv)
  | call operator items span =>
    rw [traceStep] at hcalls ⊢
    have hcallee : ∀ p, operator.value source w.context.arena = .ok (.procedure p) →
        host.KeepsNone p.code := fun p hp => hcalls.of_begins hp
    have hcalls := hcalls.of_see
    refine .see ?_ (Sight.keepsOnly_of_isEnd rfl)
    split
    · exact .see (.ofError _ hw) (Sight.keepsOnly_of_isEnd rfl)
    next hleft =>
      rw [if_neg hleft] at hcalls
      refine .ended (.resume hw.entered fun a ha => ?_) _ pending
      have hcalls := hcalls.of_andThen
      rw [traceDispatch, ha] at hcalls
      obtain ⟨p, given, hp, -, rfl, hcaptured, hoptions⟩ := hw.entered.request ha
      have hkeeps : (host p given).KeepsOnly P := hcallee p hp P p given rfl hcaptured hoptions
      refine .andThen (hkeeps.trace_keeps h hw.entered hcalls.of_andThen) fun r u _ hu hr => ?_
      refine .ofReply hu ?_
      rw [Reply.operands_mapError]
      exact hr

theorem traceWithin_keepsNone (host : Host κ) (bound : Nat) :
    (traceWithin host bound).KeepsNone host := by
  induction bound with
  | zero => exact fun _ _ _ _ _ _ _ => .ofAbort _
  | succ bound ih => exact traceStep_keepsNone ih

end Form

/-- If no operand of the context is kept at first, and no procedure keeps any, then nothing is
pinned when a scope is released. -/
theorem World.KeepsOnly.trace_tidy (hw : w.KeepsOnly fun x => x.owner ≠ w.context.id)
    (pending : List Pending) (p : Program)
    (hcalls : (w.trace host pending p).Calls host.KeepsNone) :
    (w.trace host pending p).Tidy := by
  intro s hs
  have hreaches := (World.trace_proceeds host w pending p).sights s hs
  have hid : s.world.context.id = w.context.id :=
    hreaches.keeps (P := fun st => st.world.context.id = w.context.id)
      (fun hstep h => hstep.id_eq.trans h) rfl
  have hkeeps : s.KeepsOnly fun x => x.owner ≠ w.context.id := by
    unfold World.trace at hcalls hs
    split at hs
    · cases hs
    next form hbody =>
      rw [hbody] at hcalls
      exact (Form.traceWithin_keepsNone host _ _ pending _ _ w hw hcalls).sights s hs
  exact hkeeps.tidy fun x hx => hid.symm ▸ hx

end Runs

end Fexpr
