import Fexpr.Proofs.Eval.Keeping
import Fexpr.Proofs.Library.Forcing
import Fexpr.Proofs.Scope.Lexical

/-!
# The arena implements lexical scoping

A script that is evaluated in an arena has the reply that it has by lexical evaluation, where
operands carry the scopes they were written in (`run_eq_lexical`). The procedures that are called
may do with operands what they like, as long as they touch the context only by forcing them.

The two evaluations go step by step. In between, the state of the one is that of the other
(`World.Stands`): operands are bound to scopes of the arena that stand for the lexical scopes which
they carry. What a procedure does next depends on nothing but the operands that it knows
(`Action.Knows`), and not on the scopes that these are bound to, so it does the same in both.

Afterwards the scopes are there that were there before, and bind the same. Others can have come,
since a scope stays if something pins it when it is to be released (`forcing_can_leave_scopes`).
-/

namespace Fexpr

open Lexical (Scope Closed ClosedEnv ClosedValue)

variable {κ : Type}

/-! ## Atoms and calls -/

section Atoms

variable {a : Arena κ} {id : Nat} {reals : List (Environment κ)} {envs : List (ClosedEnv κ)}
  {source : Source}

namespace Lexical

theorem lookup_closes (h : List.Forall₂ (a.ClosesEnv id) reals envs) (name : String) :
    Option.Rel (a.Closes id) (reals.findSome? (·.find? name)) (lookup envs name) := by
  induction h with
  | nil => exact .none
  | @cons real env reals envs hreal _ ih =>
    obtain ⟨ρ, rfl, hbinds⟩ := hreal
    have hfind : (env.it.mapOperands (Operand.rebind id ρ)).find? name =
        (env.it.find? name).map (Value.mapOperands (Operand.rebind id ρ)) :=
      Bindings.find?_map _ env.it name
    rw [lookup, List.findSome?_cons, List.findSome?_cons, hfind]
    cases hv : env.it.find? name with
    | none => exact ih
    | some v =>
      refine .some ⟨ρ, rfl, hbinds.subset fun x hx => ?_⟩
      exact Value.mem_operandsOfFields.mpr ⟨_, Bindings.mem_of_get?_eq_some hv, hx⟩

theorem closedName_closes (h : List.Forall₂ (a.ClosesEnv id) reals envs) (n : Form.Name) :
    ExceptRel Eq (a.Closes id) (nameValue source reals n) (closedName source envs n) := by
  unfold nameValue closedName
  have hlookup := lookup_closes h n.text
  generalize reals.findSome? (·.find? n.text) = found at hlookup ⊢
  generalize lookup envs n.text = found' at hlookup ⊢
  cases hlookup with
  | none => exact .error rfl
  | some hv => exact .ok hv

theorem follow_closes {v : Value κ} {c : ClosedValue κ} (h : a.Closes id v c)
    (attributes : List Form.Attribute) :
    ExceptRel Eq (a.Closes id) (Form.follow source attributes v)
      ((Form.follow source attributes c.it).map fun w => ⟨w, c.scopes⟩) := by
  obtain ⟨ρ, rfl, hbinds⟩ := h
  have hkeeps : Reply.KeepsOnly (· ∈ c.it.operands) (Form.follow source attributes c.it) :=
    Form.follow_keepsOnly fun x hx => hx
  rw [Form.follow_mapOperands]
  cases hv : Form.follow source attributes c.it with
  | error e => exact .error rfl
  | ok w => exact .ok ⟨ρ, rfl, hbinds.subset (hkeeps w hv)⟩

theorem literal_closes (l : Form.Literal) :
    ExceptRel Eq (a.Closes id) (l.value source) ((l.value source).map fun v => ⟨v, []⟩) := by
  have hkeeps : Reply.KeepsOnly (fun _ => False) (l.value source : Reply κ) := l.value_keepsOnly
  cases hv : (l.value source : Reply κ) with
  | error e => exact .error rfl
  | ok v =>
    refine .ok ⟨fun _ => .root, ?_, fun x hx => (hkeeps v hv x hx).elim⟩
    exact (Value.mapOperands_eq_self fun x hx => (hkeeps v hv x hx).elim).symm

theorem closedAtom_closes (h : List.Forall₂ (a.ClosesEnv id) reals envs) (atom : Form.Atom) :
    ExceptRel Eq (a.Closes id) (atomValue source reals atom) (closedAtom source envs atom) := by
  cases atom with
  | literal l => exact literal_closes l
  | name n => exact closedName_closes h n
  | path base attributes span =>
    have hbase : ExceptRel Eq (a.Closes id) (nameValue source reals base)
        (closedName source envs base) := closedName_closes h base
    rw [atomValue, closedAtom]
    generalize nameValue source reals base = r at hbase ⊢
    generalize closedName source envs base = r' at hbase ⊢
    cases hbase with
    | error he => exact .error he
    | ok hv => exact follow_closes hv attributes

end Lexical

/-- If two functions agree on the operands at hand, so they do on the procedure and its call. -/
theorem Call.mapOperands_congr {f g : Operand → Operand} {call : Call κ} {p : Procedure κ}
    (h : ∀ x ∈ call.handles p, f x = g x) :
    p.mapOperands f = p.mapOperands g ∧ call.mapOperands f = call.mapOperands g := by
  simp only [Call.handles, List.mem_append] at h
  refine ⟨congrArg (Procedure.mk _ _) (List.map_congr_left fun x hx => ?_),
    congrArg₂ Call.mk (List.map_congr_left fun x hx => ?_)
      (Environment.mapOperands_congr fun x hx => ?_)⟩
  · exact h x (.inl (.inl hx))
  · exact h x (.inl (.inr hx))
  · exact h x (.inr hx)

/-- The procedure and its call are the closed ones, with all operands bound to scopes of the
arena. -/
def Arena.ClosesCall (id : Nat) (a : Arena κ) (p p' : Procedure κ) (call : Call κ)
    (c : Closed (Call κ) (Scope κ)) : Prop :=
  ∃ ρ, p = p'.mapOperands (Operand.rebind id ρ) ∧ call = c.it.mapOperands (Operand.rebind id ρ) ∧
    a.Binds id ρ c.scopes (c.it.handles p')

namespace Arena.ClosesCall

variable {p p' : Procedure κ} {call : Call κ} {c : Closed (Call κ) (Scope κ)}

/-- The scopes of more operands can be put behind those of the call. -/
theorem exists_append (h : a.ClosesCall id p p' call c) {ρ : Nat → ScopeId}
    {scopes : List (Scope κ)} {ys : List Operand} (hys : a.Binds id ρ scopes ys) :
    ∃ τ, p = p'.mapOperands (Operand.rebind id τ) ∧
      call = c.it.mapOperands (Operand.rebind id τ) ∧
      a.Binds id τ (c.scopes ++ scopes)
        (c.it.handles p' ++ ys.map (Lexical.shift id c.scopes.length)) ∧
      ∀ y ∈ ys, (Lexical.shift id c.scopes.length y).rebind id τ = y.rebind id ρ := by
  obtain ⟨_, rfl, rfl, hbinds⟩ := h
  obtain ⟨τ, hτ, hold, hnew⟩ := hbinds.append hys
  obtain ⟨hp, hcall⟩ := Call.mapOperands_congr hold
  exact ⟨τ, hp.symm, hcall.symm, hτ, hnew⟩

theorem addOperand (h : a.ClosesCall id p p' call c) {s : ScopeId} (hs : a.IsScope id s envs)
    (source : Source) (f : Form) :
    a.ClosesCall id p p' { call with operands := call.operands ++ [⟨source, f, s, id⟩] }
      ⟨{ c.it with operands := c.it.operands ++ [⟨source, f, ⟨c.scopes.length, 0⟩, id⟩] },
        c.scopes ++ [.mk envs]⟩ := by
  have hx : a.Binds id (fun _ => s) [.mk envs] [⟨source, f, .root, id⟩] := by
    intro x hx _
    rw [List.mem_singleton] at hx
    exact ⟨.mk envs, by rw [hx]; rfl, hs⟩
  obtain ⟨τ, hp, hcall, hτ, hnew⟩ := h.exists_append hx
  have hshift : Lexical.shift id c.scopes.length ⟨source, f, .root, id⟩ =
      ⟨source, f, ⟨c.scopes.length, 0⟩, id⟩ := if_pos rfl
  have hnew : (⟨source, f, ⟨c.scopes.length, 0⟩, id⟩ : Operand).rebind id τ =
      ⟨source, f, s, id⟩ := by
    rw [← hshift, hnew _ List.mem_cons_self]
    exact if_pos rfl
  refine ⟨τ, hp, ?_, hτ.subset fun y hy => ?_⟩
  · rw [hcall]
    simp only [Call.mapOperands, List.map_append, List.map_singleton, hnew]
  · rw [List.map_singleton, hshift]
    simp only [Call.handles, List.mem_append] at hy ⊢
    tauto

theorem addOption (h : a.ClosesCall id p p' call c) {v : Value κ} {v' : ClosedValue κ}
    (hv : a.Closes id v v') (key : String) :
    a.ClosesCall id p p' { call with options := call.options.insert key v }
      ⟨{ c.it with
          options := c.it.options.insert key
            (v'.it.mapOperands (Lexical.shift id c.scopes.length)) },
        c.scopes ++ v'.scopes⟩ := by
  obtain ⟨ρ, rfl, hbinds⟩ := hv
  obtain ⟨τ, hp, hcall, hτ, hnew⟩ := h.exists_append hbinds
  have hvalue : (v'.it.mapOperands (Lexical.shift id c.scopes.length)).mapOperands
      (Operand.rebind id τ) = v'.it.mapOperands (Operand.rebind id ρ) :=
    Value.mapOperands_mapOperands fun y hy => (hnew y hy).symm
  refine ⟨τ, hp, ?_, hτ.subset fun y hy => ?_⟩
  · rw [hcall, ← hvalue]
    exact congrArg (Call.mk _) (Bindings.insert_map _ c.it.options key _)
  · -- The operands of the options are those of the others and of the new value.
    have hoptions : Environment.KeepsOnly (fun x => x ∈ c.it.handles p' ++
        v'.it.operands.map (Lexical.shift id c.scopes.length)) (c.it.options.insert key
          (v'.it.mapOperands (Lexical.shift id c.scopes.length))) := by
      refine Environment.KeepsOnly.insert (fun x hx => ?_) fun x hx => ?_
      · exact List.mem_append_left _ (List.mem_append_right _ hx)
      · rw [Value.operands_mapOperands] at hx
        exact List.mem_append_right _ hx
    rcases List.mem_append.mp hy with hy | hy
    · exact List.mem_append_left _ (List.mem_append_left _ hy)
    · exact hoptions y hy

end Arena.ClosesCall

/-- A call hands over the same in the arena, up to the scopes that operands are bound to. -/
theorem Form.collect_closes (source : Source) {c : Context κ} (hid : c.id = id)
    (hscope : c.arena.IsScope id c.arena.active envs) (items : List Form.Item)
    {p p' : Procedure κ} {given : Call κ} {given' : Closed (Call κ) (Scope κ)}
    (hgiven : c.arena.ClosesCall id p p' given given') :
    (∃ e, Form.collect source c items given = .error (.error e) ∧
      Lexical.gather id source envs items given' = .error e) ∨
    ∃ call call', Form.collect source c items given = .ok call ∧
      Lexical.gather id source envs items given' = .ok call' ∧
      c.arena.ClosesCall id p p' call call' := by
  induction items generalizing given given' with
  | nil => exact .inr ⟨given, given', rfl, rfl, hgiven⟩
  | cons item items ih =>
    cases item with
    | operand f =>
      rw [Form.collect, Lexical.gather, hid]
      exact ih (hgiven.addOperand hscope source f)
    | option key chosen =>
      obtain ⟨reals, hchain, hreals⟩ := hscope.exists_chain
      have hchosen : ExceptRel Eq (c.arena.Closes id) (Lexical.atomValue source reals chosen)
          (Lexical.closedAtom source envs chosen) := Lexical.closedAtom_closes hreals chosen
      rw [Form.collect, Lexical.gather, chosen.value_eq_lexical hchain]
      generalize Lexical.atomValue source reals chosen = r at hchosen ⊢
      generalize Lexical.closedAtom source envs chosen = r' at hchosen ⊢
      cases hchosen with
      | @error e e' he => exact .inl ⟨e, rfl, congrArg Except.error he.symm⟩
      | ok hv => exact ih (hgiven.addOption hv key.text)

end Atoms

/-! ## What procedures know -/

/-- The second action is the first one with its operands bound to the scopes that `ρ` gives. It
knows no operands but `known`: to bind others elsewhere makes no difference to it. -/
def Action.Knows (id : Nat) (ρ : Nat → ScopeId) (known : List Operand) (a' a : Action κ) : Prop :=
  ∀ σ, (∀ x ∈ known, x.rebind id σ = x.rebind id ρ) →
    Action.ForcesAlike (Operand.rebind id σ) a' a

namespace Action.Knows

variable {id : Nat} {ρ : Nat → ScopeId} {known : List Operand} {a : Action κ}
  {arena : Arena κ} {scopes : List (Scope κ)}

/-- A procedure that only forces operands knows those that it has captured and that it is called
with. -/
theorem of_onlyForces {host : Host κ} {p' : Procedure κ} (h : host.OnlyForces p'.code)
    (call : Call κ) :
    Knows id ρ (call.handles p') (host p' call)
      (host (p'.mapOperands (Operand.rebind id ρ)) (call.mapOperands (Operand.rebind id ρ))) := by
  intro σ hσ
  obtain ⟨hp, hcall⟩ := Call.mapOperands_congr hσ
  rw [← hp, ← hcall]
  exact h _ (Operand.isRebinding_rebind id σ) p' call rfl

theorem done {v : Value κ} (h : Knows id ρ known (.done v) a)
    (hbinds : arena.Binds id ρ scopes known) :
    a = .done (v.mapOperands (Operand.rebind id ρ)) ∧ arena.Binds id ρ scopes v.operands := by
  have ha : a = .done (v.mapOperands (Operand.rebind id ρ)) := h ρ fun _ _ => rfl
  refine ⟨ha, hbinds.of_forall fun σ hσ => ?_⟩
  have hv : Action.done (v.mapOperands (Operand.rebind id ρ)) =
      .done (v.mapOperands (Operand.rebind id σ)) := ha.symm.trans (h σ hσ)
  have hoperands := congrArg Value.operands (Action.done.inj hv)
  rw [Value.operands_mapOperands, Value.operands_mapOperands, List.map_inj_left] at hoperands
  exact fun x hx => (hoperands x hx).symm

/-- After a request that involves no operands the procedure knows what it knew before. -/
theorem of_request {α : Type} {request : (α → Action κ) → Action κ}
    (hinj : Function.Injective request) {next' : α → Action κ}
    (h : ∀ σ, (∀ x ∈ known, x.rebind id σ = x.rebind id ρ) →
      ∃ next, a = request next ∧
        ∀ n, Action.ForcesAlike (Operand.rebind id σ) (next' n) (next n)) :
    ∃ next, a = request next ∧ ∀ n, Knows id ρ known (next' n) (next n) := by
  obtain ⟨next, rfl, -⟩ := h ρ fun _ _ => rfl
  refine ⟨next, rfl, fun n σ hσ => ?_⟩
  obtain ⟨_, heq, hnext⟩ := h σ hσ
  rw [hinj heq]
  exact hnext n

theorem emit {line : String} {next' : Action κ} (h : Knows id ρ known (.emit line next') a) :
    ∃ next, a = .emit line next ∧ Knows id ρ known next' next := by
  obtain ⟨next, rfl, -⟩ := h ρ fun _ _ => rfl
  refine ⟨next, rfl, fun σ hσ => ?_⟩
  obtain ⟨_, heq, hnext⟩ := h σ hσ
  rw [(Action.emit.inj heq).2]
  exact hnext

theorem capture {name : String} {x : Operand} {next' : Action κ}
    (h : Knows id ρ known (.capture name x next') a) (hbinds : arena.Binds id ρ scopes known) :
    ∃ next, a = .capture name (x.rebind id ρ) next ∧ arena.Binds id ρ scopes [x] ∧
      Knows id ρ known next' next := by
  obtain ⟨next, rfl, -⟩ := h ρ fun _ _ => rfl
  refine ⟨next, rfl, hbinds.of_forall fun σ hσ => ?_, fun σ hσ => ?_⟩
  · obtain ⟨_, heq, -⟩ := h σ hσ
    rw [List.forall_mem_singleton]
    exact (Action.capture.inj heq).2.1.symm
  · obtain ⟨_, heq, hnext⟩ := h σ hσ
    rw [(Action.capture.inj heq).2.2]
    exact hnext

/-- What comes after a reply. -/
def Continues (id : Nat) (ρ : Nat → ScopeId) (known : List Operand)
    (next' next : Reply κ → Action κ) : Prop :=
  ∀ σ, (∀ x ∈ known, x.rebind id σ = x.rebind id ρ) → ∀ r,
    Action.ForcesAlike (Operand.rebind id σ) (next' r) (next (r.mapOperands (Operand.rebind id σ)))

theorem force_own {x : Operand} {next' : Reply κ → Action κ}
    (h : Knows id ρ known (.force x .own next') a) (hbinds : arena.Binds id ρ scopes known) :
    ∃ next, a = .force (x.rebind id ρ) .own next ∧ arena.Binds id ρ scopes [x] ∧
      Continues id ρ known next' next := by
  obtain ⟨next, rfl, -⟩ := h ρ fun _ _ => rfl
  refine ⟨next, rfl, hbinds.of_forall fun σ hσ => ?_, fun σ hσ => ?_⟩
  · obtain ⟨_, heq, -⟩ := h σ hσ
    rw [List.forall_mem_singleton]
    exact (Action.force.inj heq).1.symm
  · obtain ⟨_, heq, hnext⟩ := h σ hσ
    rw [(Action.force.inj heq).2.2]
    exact hnext

theorem force_layered {x : Operand} {env : Environment κ} {next' : Reply κ → Action κ}
    (h : Knows id ρ known (.force x (.layered env) next') a)
    (hbinds : arena.Binds id ρ scopes known) :
    ∃ next, a = .force (x.rebind id ρ) (.layered (env.mapOperands (Operand.rebind id ρ))) next ∧
      arena.Binds id ρ scopes [x] ∧ arena.Binds id ρ scopes env.operands ∧
      Continues id ρ known next' next := by
  obtain ⟨next, rfl, -⟩ := h ρ fun _ _ => rfl
  refine ⟨next, rfl, hbinds.of_forall fun σ hσ => ?_, hbinds.of_forall fun σ hσ => ?_,
    fun σ hσ => ?_⟩
  · obtain ⟨_, heq, -⟩ := h σ hσ
    rw [List.forall_mem_singleton]
    exact (Action.force.inj heq).1.symm
  · obtain ⟨_, heq, -⟩ := h σ hσ
    have hoperands := congrArg Environment.operands (Place.layered.inj (Action.force.inj heq).2.1)
    rw [Environment.operands_mapOperands, Environment.operands_mapOperands,
      List.map_inj_left] at hoperands
    exact fun y hy => (hoperands y hy).symm
  · obtain ⟨_, heq, hnext⟩ := h σ hσ
    rw [(Action.force.inj heq).2.2]
    exact hnext

/-- From a reply a procedure gets to know the operands that the reply keeps. -/
theorem of_reply {next' next : Reply κ → Action κ} (h : Continues id ρ known next' next)
    (hbinds : arena.Binds id ρ scopes known) {r : Reply κ} {r' : Except Error (ClosedValue κ)}
    (hr : ExceptRel Eq (arena.Closes id) r r') :
    ∃ τ known', arena.Binds id τ (Lexical.receive id scopes r').scopes known' ∧
      Knows id τ known' (next' (Lexical.receive id scopes r').it) (next r) := by
  cases hr with
  | @error e _ he =>
    subst he
    exact ⟨ρ, known, hbinds, fun σ hσ => h σ hσ (.error e)⟩
  | @ok v c hv =>
    obtain ⟨ρ', rfl, hc⟩ := hv
    obtain ⟨τ, hτ, hold, hnew⟩ := hbinds.append hc
    refine ⟨τ, _, hτ, fun σ hσ => ?_⟩
    have hnext := h σ (fun x hx => (hσ x (List.mem_append_left _ hx)).trans (hold x hx))
      (.ok (c.it.mapOperands (Lexical.shift id scopes.length)))
    have hvalue : (c.it.mapOperands (Lexical.shift id scopes.length)).mapOperands
        (Operand.rebind id σ) = c.it.mapOperands (Operand.rebind id ρ') :=
      Value.mapOperands_mapOperands fun x hx => by
        rw [hσ _ (List.mem_append_right _ (List.mem_map_of_mem hx)), hnew x hx]
    rwa [Reply.mapOperands, Except.map, hvalue] at hnext

end Action.Knows

/-! ## Worlds -/

section Worlds

variable {S : Lexical.Setting κ} {st : Lexical.State κ} {w u : World κ}

/-- The world is in the state of a lexical evaluation. All operands that its scopes keep are written
in live ones. -/
structure World.Stands (S : Lexical.Setting κ) (st : Lexical.State κ) (w : World κ) : Prop where
  id : w.context.id = S.id
  maxDepth : w.context.maxDepth = S.maxDepth
  data : w.context.data = S.data
  arena : w.context.arena.WellFormed
  live : ∀ x ∈ w.context.arena.operands, x.owner = S.id → w.context.arena.isLive x.scope = true
  ticks : w.host.ticks = st.ticks
  out : w.host.out = st.out
  captured : Bindings.Rel (w.context.arena.ClosesOperand S.id) w.host.captured st.captured
  nextIdentity : w.nextIdentity = st.nextIdentity

/-- Of the context nothing is different but that there may be more scopes: those that were there
bind the same, and the same scope is active. -/
structure World.GrowsTo (w u : World κ) : Prop where
  context : u.context = { w.context with arena := u.context.arena }
  active : u.context.arena.active = w.context.arena.active
  frames : w.context.arena.frames.toList <+: u.context.arena.frames.toList

namespace World.GrowsTo

theorem refl (w : World κ) : w.GrowsTo w := ⟨rfl, rfl, List.prefix_rfl⟩

theorem of_context (h : u.context = w.context) : w.GrowsTo u := by
  obtain ⟨c, host, identity⟩ := u
  cases h
  exact ⟨rfl, rfl, List.prefix_rfl⟩

theorem trans {v : World κ} (h : w.GrowsTo u) (h' : u.GrowsTo v) : w.GrowsTo v where
  context := by rw [h'.context, h.context]
  active := h'.active.trans h.active
  frames := h.frames.trans h'.frames

theorem depth_eq (h : w.GrowsTo u) : u.context.depth = w.context.depth := by rw [h.context]

theorem frame? (h : w.GrowsTo u) (s : ScopeId) (f : Frame κ)
    (hf : w.context.arena.frame? s = some f) : u.context.arena.frame? s = some f := by
  obtain ⟨more, hmore⟩ := h.frames
  obtain ⟨hf, hserial⟩ := Arena.frame?_eq_some_iff.mp hf
  have hlt := (Array.getElem?_eq_some_iff.mp hf).1
  refine Arena.frame?_eq_some_iff.mpr ⟨?_, hserial⟩
  rw [← Array.getElem?_toList, ← hmore, List.getElem?_append_left hlt, Array.getElem?_toList, hf]

end World.GrowsTo

theorem Arena.ClosesOperand.mono {a b : Arena κ} {id : Nat} {x : Operand}
    {c : Closed Operand (Scope κ)} (h : a.ClosesOperand id x c)
    (hab : ∀ s f, a.frame? s = some f → b.frame? s = some f) : b.ClosesOperand id x c := by
  obtain ⟨ρ, hx, hbinds⟩ := h
  exact ⟨ρ, hx, hbinds.mono hab⟩

theorem Arena.ClosesOperand.isLive {a : Arena κ} {id : Nat} {x : Operand}
    {c : Closed Operand (Scope κ)} (h : a.ClosesOperand id x c) (hx : x.owner = id) :
    a.isLive x.scope = true := by
  obtain ⟨ρ, rfl, hbinds⟩ := h
  exact hbinds.isLive List.mem_cons_self hx

theorem Arena.closes_mono {a b : Arena κ} {id : Nat} {r : Reply κ}
    {r' : Except Error (ClosedValue κ)} (h : ExceptRel Eq (a.Closes id) r r')
    (hab : ∀ s f, a.frame? s = some f → b.frame? s = some f) :
    ExceptRel Eq (b.Closes id) r r' := by
  cases h with
  | error he => exact .error he
  | ok hv =>
    obtain ⟨ρ, hv, hbinds⟩ := hv
    exact .ok ⟨ρ, hv, hbinds.mono hab⟩

/-- The operands of the context that a reply keeps are written in live scopes. -/
theorem Arena.isLive_of_closes {a : Arena κ} {id : Nat} {r : Reply κ}
    {r' : Except Error (ClosedValue κ)} (h : ExceptRel Eq (a.Closes id) r r') {x : Operand}
    (hx : x ∈ Reply.operands r) (howner : x.owner = id) : a.isLive x.scope = true := by
  cases h with
  | error => cases hx
  | ok hv =>
    obtain ⟨ρ, rfl, hbinds⟩ := hv
    rw [Reply.operands, Value.operands_mapOperands] at hx
    exact hbinds.isLive hx howner

theorem Bindings.rel_map {α β : Type} {R : α → β → Prop} {b : Bindings α} {φ : α → β}
    (h : ∀ x ∈ b.values, R x (φ x)) : Bindings.Rel R b (b.map φ) := by
  refine List.forall₂_map_right_iff.mpr (List.forall₂_same.mpr fun e he => ?_)
  exact .mk e.1 (h e.2 (List.mem_map_of_mem he))

theorem Arena.operands_ofRoot (env : Environment κ) : (ofRoot env).operands = env.operands := by
  simp [Arena.operands, ofRoot, Environment.operands]

namespace World.Stands

theorem new (S : Lexical.Setting κ) (env : Environment κ) (around : HostData) (identity : Nat)
    (hfresh : ∀ x ∈ env.operands ++ around.captured.values, x.owner ≠ S.id) :
    World.Stands S
      ⟨around.ticks, around.out, around.captured.map fun x => ⟨x, []⟩, identity⟩
      ⟨Context.new S.id env S.maxDepth S.data, around, identity⟩ where
  id := rfl
  maxDepth := rfl
  data := rfl
  arena := .ofRoot env
  live := by
    intro x hx howner
    have hx : x ∈ env.operands := Arena.operands_ofRoot env ▸ hx
    exact absurd howner (hfresh x (List.mem_append_left _ hx))
  ticks := rfl
  out := rfl
  captured := by
    have hforeign : ∀ x ∈ around.captured.values, x.owner ≠ S.id := fun x hx =>
      hfresh x (List.mem_append_right _ hx)
    refine Bindings.rel_map fun x hx => ⟨fun _ => .root, ?_, ?_⟩
    · exact (Operand.rebind_of_foreign (hforeign x hx)).symm
    · exact .of_foreign (List.forall_mem_singleton.mpr (hforeign x hx))
  nextIdentity := rfl

/-- Another scope can be made active. -/
theorem activated (h : w.Stands S st) {s : ScopeId} (hs : w.context.arena.isLive s = true) :
    (w.withArena { w.context.arena with active := s }).Stands S st where
  id := h.id
  maxDepth := h.maxDepth
  data := h.data
  arena := h.arena.activate hs
  live := h.live
  ticks := h.ticks
  out := h.out
  captured := h.captured.imp fun _ _ _ hx => hx.mono fun _ _ hf => hf
  nextIdentity := h.nextIdentity

theorem pushed (h : w.Stands S st) {parent : ScopeId} {env : Environment κ}
    (hparent : w.context.arena.isLive parent = true)
    (henv : ∀ x ∈ env.operands, x.owner = S.id → w.context.arena.isLive x.scope = true) :
    (w.withArena (w.context.arena.pushed parent env)).Stands S st where
  id := h.id
  maxDepth := h.maxDepth
  data := h.data
  arena := h.arena.pushed hparent
  live := by
    intro x hx howner
    refine Arena.isLive_pushed ?_
    have hx : x ∈ (w.context.arena.pushed parent env).operands := hx
    rw [Arena.operands_pushed] at hx
    rcases List.mem_append.mp hx with hx | hx
    · exact h.live x hx howner
    · exact henv x hx howner
  ticks := h.ticks
  out := h.out
  captured := h.captured.imp fun _ _ _ hx => hx.mono fun _ _ => Arena.frame?_pushed
  nextIdentity := h.nextIdentity

/-- A release spares the scopes of all operands that the reply and the data of the host keep, so
that they still stand for the same. -/
theorem released (h : w.Stands S st) {mark : Nat} (hmark : mark ≤ w.context.arena.size)
    {r : Reply κ} {r' : Except Error (ClosedValue κ)}
    (hr : ExceptRel Eq (w.context.arena.Closes S.id) r r') :
    ∃ k, mark ≤ k ∧
      w.context.arena.release w.context.id (w.heldOperands r) mark = w.context.arena.shrink k ∧
      (w.withArena (w.context.arena.shrink k)).Stands S st ∧
      ExceptRel Eq ((w.context.arena.shrink k).Closes S.id) r r' := by
  have hcaptured : ∀ x ∈ w.host.captured.values, x.owner = S.id →
      w.context.arena.isLive x.scope = true := by
    intro x hx
    obtain ⟨c, hc⟩ := h.captured.exists_of_mem hx
    exact hc.isLive
  have hheld : ∀ x ∈ w.heldOperands r ++ w.context.arena.operands, x.owner = w.context.id →
      w.context.arena.isLive x.scope = true := by
    intro x hx howner
    rw [h.id] at howner
    rcases List.mem_append.mp hx with hx | hx
    · rcases List.mem_append.mp hx with hx | hx
      · exact Arena.isLive_of_closes hr hx howner
      · exact hcaptured x hx howner
    · exact h.live x hx howner
  obtain ⟨k, hmk, -, hrelease, hwf, hlive⟩ :=
    h.arena.exists_released w.context.id (w.heldOperands r) hmark hheld
  rw [h.id] at hlive
  obtain ⟨hlive, hbound⟩ := List.forall_mem_append.mp hlive
  obtain ⟨hreply, hlive⟩ := List.forall_mem_append.mp hlive
  have hfewer : ∀ s f, (w.context.arena.shrink k).frame? s = some f →
      w.context.arena.frame? s = some f := fun _ _ => Arena.frame?_of_shrink
  refine ⟨k, hmk, hrelease, ⟨h.id, h.maxDepth, h.data, hwf, hbound, h.ticks, h.out, ?_,
    h.nextIdentity⟩, ?_⟩
  · refine h.captured.imp fun x hx c hc => ?_
    obtain ⟨ρ, rfl, hbinds⟩ := hc
    refine ⟨ρ, rfl, hbinds.of_fewer hwf hfewer hbound ?_⟩
    rw [List.map_singleton, List.forall_mem_singleton]
    exact hlive _ hx
  · cases hr with
    | error he => exact .error he
    | ok hv =>
      obtain ⟨ρ, rfl, hbinds⟩ := hv
      refine .ok ⟨ρ, rfl, hbinds.of_fewer hwf hfewer hbound ?_⟩
      rw [← Value.operands_mapOperands]
      exact hreply

end World.Stands

/-! ## Agreement -/

/-- The outcome of an evaluation that began in `w` agrees with a lexical answer: they have the same
error or the same value, in worlds that are alike, or both are given up. -/
inductive World.Ends (S : Lexical.Setting κ) (w : World κ) :
    Lexical.Answer κ → Outcome κ → Prop
  | reply {r : Reply κ} {r' : Except Error (ClosedValue κ)} {u : World κ}
    {st : Lexical.State κ} (hgrows : w.GrowsTo u) (hu : u.Stands S st)
    (hr : ExceptRel Eq (u.context.arena.Closes S.id) r r') :
    Ends S w (.reply r' st) (.reply r u)
  | foreign (text : String) : Ends S w (.foreign text) (.abort (.foreignOperand text))

theorem World.Ends.growsTo {answer : Lexical.Answer κ} {r : Reply κ}
    (h : w.Ends S answer (.reply r u)) : w.GrowsTo u := by
  cases h with
  | reply hgrows _ _ => exact hgrows

/-- The evaluation that began in `w` agrees with a lexical answer, and no procedure opens a scope to
stay. -/
structure World.Agrees (S : Lexical.Setting κ) (w : World κ) (answer : Lexical.Answer κ)
    (t : Traced κ) : Prop where
  derives : ∀ s ∈ t.sights, s.event.isDerive = false
  ends : w.Ends S answer t.outcome

namespace World.Agrees

open Traced

variable {answer : Lexical.Answer κ} {t : Traced κ}

theorem reply (hw : w.Stands S st) {r : Reply κ} {r' : Except Error (ClosedValue κ)}
    (hr : ExceptRel Eq (w.context.arena.Closes S.id) r r') :
    w.Agrees S (.reply r' st) (ofOutcome (.reply r w)) :=
  ⟨List.forall_mem_nil _, .reply (.refl w) hw hr⟩

theorem error (hw : w.Stands S st) (e : Error) :
    w.Agrees S (.reply (.error e) st) (ofOutcome (.reply (.error e) w)) :=
  reply hw (.error rfl)

theorem see (h : w.Agrees S answer t) {event : Event κ} (hevent : event.isDerive = false)
    (stage : Stage κ) : w.Agrees S answer (see event stage t) :=
  ⟨List.forall_mem_cons.mpr ⟨hevent, h.derives⟩, h.ends⟩

/-- Nothing of the context has changed before. -/
theorem after (h : u.Agrees S answer t) (hgrows : w.GrowsTo u) : w.Agrees S answer t := by
  refine ⟨h.derives, ?_⟩
  have hends := h.ends
  generalize t.outcome = o at hends ⊢
  cases hends with
  | reply hgrows' hu hr => exact .reply (hgrows.trans hgrows') hu hr
  | foreign text => exact .foreign text

/-- What agrees can be followed by what agrees. -/
theorem andThen {next : Reply κ → World κ → Traced κ}
    {next' : Except Error (ClosedValue κ) → Lexical.State κ → Lexical.Answer κ}
    (h : w.Agrees S answer t)
    (hnext : ∀ r r' u st, t.outcome = .reply r u → w.GrowsTo u → u.Stands S st →
      ExceptRel Eq (u.context.arena.Closes S.id) r r' → w.Agrees S (next' r' st) (next r u)) :
    w.Agrees S (answer.andThen next') (t.andThen next) := by
  obtain ⟨hderives, hends⟩ := h
  unfold Traced.andThen
  cases ho : t.outcome with
  | reply r u =>
    rw [ho] at hends
    cases hends with
    | reply hgrows hu hr =>
      obtain ⟨hderives', hends'⟩ := hnext _ _ _ _ ho hgrows hu hr
      exact ⟨List.forall_mem_append.mpr ⟨hderives, hderives'⟩, hends'⟩
  | abort a =>
    rw [ho] at hends
    cases hends with
    | foreign text => exact ⟨hderives, .foreign text⟩

/-- The end of a call in progress. -/
theorem ending (h : u.Agrees S answer t) {p : Pending} (pending : List Pending)
    (hfinish : ∀ r r' v st, u.GrowsTo v → v.Stands S st →
      ExceptRel Eq (v.context.arena.Closes S.id) r r' →
        w.Ends S (.reply r' st) (p.finish r v)) :
    w.Agrees S answer (t.ending p pending) := by
  obtain ⟨hderives, hends⟩ := h
  unfold Traced.ending Traced.andThen
  cases ho : t.outcome with
  | reply r v =>
    rw [ho] at hends
    cases hends with
    | reply hgrows hv hr =>
      refine ⟨List.forall_mem_append.mpr ⟨hderives, List.forall_mem_singleton.mpr rfl⟩, ?_⟩
      exact hfinish r _ v _ hgrows hv hr
  | abort a =>
    rw [ho] at hends
    cases hends with
    | foreign text => exact ⟨hderives, .foreign text⟩

end World.Agrees

end Worlds

/-! ## The simulation -/

/-- Evaluations agree with lexical ones in every world in which as many calls may go inside one
another as `budget` says, as long as they call only procedures that only force operands. -/
def Tracer.Simulates (S : Lexical.Setting κ) (budget : Nat) (tracer : Tracer κ)
    (lexical : Lexical.Evaluator κ) : Prop :=
  ∀ pending envs source form st (w : World κ), w.Stands S st →
    w.context.arena.IsScope S.id w.context.arena.active envs →
    w.context.depth + budget = S.maxDepth →
    (tracer pending source form w).Calls S.host.OnlyForces →
      w.Agrees S (lexical envs source form st) (tracer pending source form w)

section Simulation

open Traced

variable {S : Lexical.Setting κ} {st : Lexical.State κ} {w : World κ} {budget : Nat}
  {tracer : Tracer κ} {lexical : Lexical.Evaluator κ} {pending : List Pending}
  {envs : List (ClosedEnv κ)}

theorem World.Stands.traceIn_agrees (h : tracer.Simulates S budget lexical) (hw : w.Stands S st)
    (hdepth : w.context.depth + budget = S.maxDepth) {x : Operand} (hx : x.owner = S.id)
    {s : ScopeId} (hs : w.context.arena.IsScope S.id s envs)
    (hcalls : (w.traceIn tracer pending x s).Calls S.host.OnlyForces) :
    w.Agrees S (lexical envs x.source x.form st) (w.traceIn tracer pending x s) := by
  have howner : ¬ x.owner ≠ w.context.id := not_not_intro (hx.trans hw.id.symm)
  unfold World.traceIn at hcalls ⊢
  rw [if_neg howner, Arena.activate_eq_ok hs.isLive] at hcalls ⊢
  have hagrees := h (.restore w.context.arena.active :: pending) envs x.source x.form st _
    (hw.activated hs.isLive) (hs.mono fun _ _ hf => hf) hdepth hcalls.of_andThen
  refine hagrees.ending pending fun r r' u st' hgrows hu hr => ?_
  have hactive : u.context.arena.isLive w.context.arena.active = true := by
    obtain ⟨f, hf⟩ := Option.isSome_iff_exists.mp hw.arena.active
    exact Option.isSome_of_mem (hgrows.frame? _ f hf)
  rw [Pending.finish, Arena.activate_eq_ok hactive]
  refine .reply ⟨?_, rfl, hgrows.frames⟩ (hu.activated hactive)
    (Arena.closes_mono hr fun _ _ hf => hf)
  rw [World.withArena, hgrows.context]
  rfl

/-- An operand of another context cannot be evaluated, neither here nor there. -/
theorem World.Stands.traceForce_foreign (hw : w.Stands S st) {x : Operand} (hx : x.owner ≠ S.id)
    (place : Place κ) : w.Agrees S (.foreign x.text) (w.traceForce tracer pending x place) := by
  have howner : x.owner ≠ w.context.id := hw.id.symm ▸ hx
  have habort : w.traceForce tracer pending x place =
      ofOutcome (.abort (.foreignOperand x.text)) := by
    cases place with
    | own | scope => rw [World.traceForce, World.traceIn, if_pos howner]
    | layered env => rw [World.traceForce, if_pos howner]
  rw [habort]
  exact ⟨List.forall_mem_nil _, .foreign _⟩

/-- An operand is evaluated in the scope that it was written in. -/
theorem World.Stands.traceForce_own_agrees (h : tracer.Simulates S budget lexical)
    (hw : w.Stands S st) (hdepth : w.context.depth + budget = S.maxDepth) {x : Operand}
    {ρ : Nat → ScopeId} {scopes : List (Scope κ)} (hx : w.context.arena.Binds S.id ρ scopes [x])
    (hcalls : (w.traceForce tracer pending (x.rebind S.id ρ) .own).Calls S.host.OnlyForces) :
    w.Agrees S (Lexical.force S lexical scopes x [] st)
      (w.traceForce tracer pending (x.rebind S.id ρ) .own) := by
  unfold Lexical.force
  by_cases howner : x.owner = S.id
  · obtain ⟨scope, hscope, hstands⟩ := hx x List.mem_cons_self howner
    rw [if_neg (not_not_intro howner), hscope]
    rw [Operand.rebind_of_own howner] at hcalls ⊢
    exact hw.traceIn_agrees h hdepth howner hstands hcalls
  · rw [if_pos howner, Operand.rebind_of_foreign howner]
    exact hw.traceForce_foreign howner _

/-- An operand with an environment layered over it is evaluated with that environment in front. -/
theorem World.Stands.traceForce_layered_agrees (h : tracer.Simulates S budget lexical)
    (hw : w.Stands S st) (hdepth : w.context.depth + budget = S.maxDepth) {x : Operand}
    {env : Environment κ} {ρ : Nat → ScopeId} {scopes : List (Scope κ)}
    (hx : w.context.arena.Binds S.id ρ scopes [x])
    (henv : w.context.arena.Binds S.id ρ scopes env.operands)
    (hcalls : (w.traceForce tracer pending (x.rebind S.id ρ)
      (.layered (env.mapOperands (Operand.rebind S.id ρ)))).Calls S.host.OnlyForces) :
    w.Agrees S (Lexical.force S lexical scopes x [⟨env, scopes⟩] st)
      (w.traceForce tracer pending (x.rebind S.id ρ)
        (.layered (env.mapOperands (Operand.rebind S.id ρ)))) := by
  unfold Lexical.force
  by_cases howner : x.owner = S.id
  · obtain ⟨scope, hscope, hstands⟩ := hx x List.mem_cons_self howner
    rw [if_neg (not_not_intro howner), hscope]
    rw [Operand.rebind_of_own howner] at hcalls ⊢
    have howner' : ¬ x.owner ≠ w.context.id := not_not_intro (howner.trans hw.id.symm)
    rw [World.traceForce, if_neg howner', World.traceChild] at hcalls ⊢
    dsimp only at hcalls ⊢
    rw [Arena.push_eq_ok hstands.isLive] at hcalls ⊢
    have hlive : ∀ y ∈ (env.mapOperands (Operand.rebind S.id ρ)).operands, y.owner = S.id →
        w.context.arena.isLive y.scope = true := by
      rw [Environment.operands_mapOperands]
      exact fun y hy => henv.isLive hy
    -- The new scope stands for the layer in front of the scope of the operand.
    have hchild : (w.context.arena.pushed (ρ x.scope.index)
        (env.mapOperands (Operand.rebind S.id ρ))).IsScope S.id w.context.arena.next
          (⟨env, scopes⟩ :: scope.envs) := by
      refine .of_closesEnv Arena.frame?_next ⟨ρ, rfl, henv.mono fun _ _ => Arena.frame?_pushed⟩
        (fun hparent => ?_) fun parent hparent => ?_
      · cases hparent
      · cases hparent
        exact ⟨Arena.index_lt_of_isLive hstands.isLive,
          hstands.mono fun _ _ => Arena.frame?_pushed⟩
    have hagrees := (hw.pushed hstands.isLive hlive).traceIn_agrees h hdepth
      (x := { x with scope := ρ x.scope.index }) howner hchild hcalls.of_andThen
    refine hagrees.ending pending fun r r' u st' hgrows hu hr => ?_
    have hframes : w.context.arena.frames.toList <+: u.context.arena.frames.toList :=
      (List.prefix_append _ _).trans (by simpa [World.withArena, Arena.pushed] using hgrows.frames)
    have hmark : w.context.arena.size ≤ u.context.arena.size := hframes.length_le
    obtain ⟨k, hk, hrelease, hstands', hr'⟩ := hu.released hmark hr
    rw [Pending.finish, hrelease]
    refine .reply ⟨?_, hgrows.active, ?_⟩ hstands' hr'
    · rw [World.withArena, hgrows.context]
      rfl
    · have htake : (u.context.arena.shrink k).frames.toList =
          u.context.arena.frames.toList.take k := by simp [Arena.shrink]
      rw [World.withArena, htake]
      exact List.prefix_take_iff.mpr ⟨hframes, hk⟩
  · rw [if_pos howner, Operand.rebind_of_foreign howner]
    exact hw.traceForce_foreign howner _

/-- Carrying out an action that knows only operands which are bound to scopes that stand for those
that they were written in. -/
theorem Action.Knows.trace_agrees (h : tracer.Simulates S budget lexical) {a' a : Action κ}
    {ρ : Nat → ScopeId} {known : List Operand} {scopes : List (Scope κ)}
    (ha : Action.Knows S.id ρ known a' a) (hw : w.Stands S st)
    (hdepth : w.context.depth + budget = S.maxDepth)
    (hknown : w.context.arena.Binds S.id ρ scopes known)
    (hcalls : (a.trace tracer pending w).Calls S.host.OnlyForces) :
    w.Agrees S (Lexical.perform S lexical a' scopes st) (a.trace tracer pending w) := by
  induction a' generalizing a ρ known scopes w st with
  | done v =>
    obtain ⟨rfl, hv⟩ := ha.done hknown
    exact .see (.reply hw (.ok ⟨ρ, rfl, hv⟩)) rfl _
  | fail e =>
    obtain rfl : a = .fail e := ha ρ fun _ _ => rfl
    exact .see (.error hw e) rfl _
  | force x place next' ih =>
    cases place with
    | own =>
      obtain ⟨next, rfl, hx, hnext⟩ := ha.force_own hknown
      rw [Action.trace] at hcalls ⊢
      have hcalls := hcalls.of_see
      refine .see (.andThen (hw.traceForce_own_agrees h hdepth hx hcalls.of_andThen)
        fun r r' u st' ho hgrows hu hr => ?_) rfl _
      obtain ⟨τ, known', hτ, hknows⟩ :=
        Action.Knows.of_reply hnext (hknown.mono hgrows.frame?) hr
      exact (ih _ hknows hu (hgrows.depth_eq.symm ▸ hdepth) hτ (hcalls.of_reply ho)).after hgrows
    | layered env =>
      obtain ⟨next, rfl, hx, henv, hnext⟩ := ha.force_layered hknown
      rw [Action.trace] at hcalls ⊢
      have hcalls := hcalls.of_see
      refine .see (.andThen (hw.traceForce_layered_agrees h hdepth hx henv
        hcalls.of_andThen) fun r r' u st' ho hgrows hu hr => ?_) rfl _
      obtain ⟨τ, known', hτ, hknows⟩ :=
        Action.Knows.of_reply hnext (hknown.mono hgrows.frame?) hr
      exact (ih _ hknows hu (hgrows.depth_eq.symm ▸ hdepth) hτ (hcalls.of_reply ho)).after hgrows
    | scope s => exact (ha ρ fun _ _ => rfl).elim
  | maxDepth next' ih =>
    obtain ⟨next, rfl, hnext⟩ := Action.Knows.of_request (fun _ _ => Action.maxDepth.inj) ha
    rw [Action.trace, hw.maxDepth] at hcalls ⊢
    exact .see (ih _ (hnext _) hw hdepth hknown hcalls.of_see) rfl _
  | hasData next' ih =>
    obtain ⟨next, rfl, hnext⟩ := Action.Knows.of_request (fun _ _ => Action.hasData.inj) ha
    rw [Action.trace, hw.data] at hcalls ⊢
    exact .see (ih _ (hnext _) hw hdepth hknown hcalls.of_see) rfl _
  | tick next' ih =>
    obtain ⟨next, rfl, hnext⟩ := Action.Knows.of_request (fun _ _ => Action.tick.inj) ha
    rw [Action.trace, hw.ticks] at hcalls ⊢
    have hw' : World.Stands S { st with ticks := st.ticks + 1 }
        { w with host := { w.host with ticks := st.ticks + 1 } } := { hw with ticks := rfl }
    refine .see ?_ rfl _
    exact .after (ih _ (hnext _) hw' hdepth hknown hcalls.of_see) (.of_context rfl)
  | emit line next' ih =>
    obtain ⟨next, rfl, hnext⟩ := ha.emit
    rw [Action.trace] at hcalls ⊢
    have hw' : World.Stands S { st with out := st.out.push line }
        { w with host := { w.host with out := w.host.out.push line } } :=
      { hw with out := by rw [hw.out] }
    refine .see ?_ rfl _
    exact .after (ih hnext hw' hdepth hknown hcalls.of_see) (.of_context rfl)
  | capture name x next' ih =>
    obtain ⟨next, rfl, hx, hnext⟩ := ha.capture hknown
    rw [Action.trace] at hcalls ⊢
    have hw' : World.Stands S { st with captured := st.captured.insert name ⟨x, scopes⟩ }
        { w with host :=
          { w.host with captured := w.host.captured.insert name (x.rebind S.id ρ) } } :=
      { hw with captured := hw.captured.insert name ⟨ρ, rfl, hx⟩ }
    refine .see ?_ rfl _
    exact .after (ih hnext hw' hdepth hknown hcalls.of_see) (.of_context rfl)
  | fresh next' ih =>
    obtain ⟨next, rfl, hnext⟩ := Action.Knows.of_request (fun _ _ => Action.fresh.inj) ha
    rw [Action.trace, hw.nextIdentity] at hcalls ⊢
    have hw' : World.Stands S { st with nextIdentity := st.nextIdentity + 1 }
        { w with nextIdentity := st.nextIdentity + 1 } := { hw with nextIdentity := rfl }
    refine .see ?_ rfl _
    exact .after (ih _ (hnext _) hw' hdepth hknown hcalls.of_see) (.of_context rfl)
  | lookup | lookupFrom | lookupLocal | lookupOuter | define | derive | withDerived | activeScope
  | scopeCount => exact (ha ρ fun _ _ => rfl).elim

namespace Form

variable {source : Source}

theorem traceDispatch_agrees (h : tracer.Simulates S budget lexical) (hw : w.Stands S st)
    (hscope : w.context.arena.IsScope S.id w.context.arena.active envs)
    (hdepth : w.context.depth + budget = S.maxDepth) (operator : Name) (items : List Item)
    (span : Text.Span)
    (hcallee : ∀ p, operator.value source w.context.arena = .ok (.procedure p) →
      S.host.OnlyForces p.code)
    (hcalls : (traceDispatch S.host tracer pending source operator items span w).Calls
      S.host.OnlyForces) :
    w.Agrees S (Lexical.dispatch S lexical envs source operator items span st)
      (traceDispatch S.host tracer pending source operator items span w) := by
  obtain ⟨reals, hchain, hreals⟩ := hscope.exists_chain
  have hoperator : ExceptRel Eq (w.context.arena.Closes S.id)
      (Lexical.nameValue source reals operator) (Lexical.closedName source envs operator) :=
    Lexical.closedName_closes hreals operator
  have hvalue : operator.value source w.context.arena =
      (Lexical.nameValue source reals operator).mapError Stop.error :=
    operator.value_eq_lexical hchain
  unfold traceDispatch request at hcalls ⊢
  rw [hvalue] at hcalls hcallee ⊢
  unfold Lexical.dispatch
  generalize Lexical.nameValue source reals operator = r at hoperator hcalls hcallee ⊢
  generalize Lexical.closedName source envs operator = r' at hoperator ⊢
  cases hoperator with
  | error he =>
    subst he
    exact .error hw _
  | @ok v c hv =>
    obtain ⟨v', scopes⟩ := c
    obtain ⟨ρ, rfl, hbinds⟩ := hv
    cases v' with
    | procedure p' =>
      have hp : (Value.procedure p').mapOperands (Operand.rebind S.id ρ) =
          .procedure (p'.mapOperands (Operand.rebind S.id ρ)) := by
        rw [Value.mapOperands, Procedure.mapOperands]
      rw [hp] at hcalls hcallee ⊢
      have hgiven : w.context.arena.ClosesCall S.id (p'.mapOperands (Operand.rebind S.id ρ)) p'
          ⟨[], ∅⟩ ⟨⟨[], ∅⟩, scopes⟩ := by
        refine ⟨ρ, rfl, rfl, hbinds.subset fun x hx => ?_⟩
        rcases List.mem_append.mp hx with hx | hx
        · simpa [Value.operands] using hx
        · cases hx
      dsimp only [Except.mapError] at hcalls ⊢
      rcases collect_closes source hw.id hscope items hgiven with
        ⟨e, hreal, hlexical⟩ | ⟨call, call', hreal, hlexical, hclosed⟩
      · rw [hreal, hlexical]
        exact .error hw e
      · rw [hreal] at hcalls ⊢
        rw [hlexical]
        obtain ⟨τ, hp, rfl, hknown⟩ := hclosed
        rw [hp] at hcalls hcallee ⊢
        have hforces : S.host.OnlyForces p'.code :=
          hcallee (p'.mapOperands (Operand.rebind S.id τ)) rfl
        have hknows : Action.Knows S.id τ (call'.it.handles p') (S.host p' call'.it) _ :=
          .of_onlyForces hforces call'.it
        refine (hknows.trace_agrees h hw hdepth hknown hcalls.of_andThen).andThen
          fun r r' u st' _ hgrows hu hr => ?_
        exact .after (.reply hu (hr.mapError fun e e' he => congrArg _ he)) hgrows
    | _ =>
      simp only [Value.mapOperands]
      exact .error hw _

theorem traceAtom_agrees (hw : w.Stands S st)
    (hscope : w.context.arena.IsScope S.id w.context.arena.active envs) (source : Source)
    (a : Atom) :
    w.Agrees S (.reply (Lexical.closedAtom source envs a) st)
      (w.resume (a.value source w.context.arena) fun v => ofOutcome (.reply (.ok v) w)) := by
  obtain ⟨reals, hchain, hreals⟩ := hscope.exists_chain
  have hatom : ExceptRel Eq (w.context.arena.Closes S.id) (Lexical.atomValue source reals a)
      (Lexical.closedAtom source envs a) := Lexical.closedAtom_closes hreals a
  rw [a.value_eq_lexical hchain]
  generalize Lexical.atomValue source reals a = r at hatom ⊢
  generalize Lexical.closedAtom source envs a = r' at hatom ⊢
  cases hatom with
  | error he => exact .reply hw (.error he)
  | ok hv => exact .reply hw (.ok hv)

/-- Evaluations agree with lexical ones, however deep calls may go. -/
theorem traceWithin_simulates (S : Lexical.Setting κ) (budget : Nat) :
    (traceWithin S.host (budget + 1)).Simulates S budget (Lexical.eval S budget) := by
  induction budget with
  | zero =>
    intro pending envs source form st w hw hscope hdepth _
    rw [traceWithin]
    cases form with
    | atom a => exact .see (traceAtom_agrees hw hscope source a) rfl _
    | call operator items span =>
      have hspent : S.maxDepth ≤ w.context.depth := by omega
      simp only [traceStep, hw.maxDepth, if_pos hspent]
      refine .see (.see ?_ rfl _) rfl _
      exact .error hw _
  | succ budget ih =>
    intro pending envs source form st w hw hscope hdepth hcalls
    rw [traceWithin] at hcalls ⊢
    cases form with
    | atom a => exact .see (traceAtom_agrees hw hscope source a) rfl _
    | call operator items span =>
      have hleft : ¬ S.maxDepth ≤ w.context.depth := by omega
      have henter : w.enter.Stands S st := { hw with }
      have hdepth' : w.enter.context.depth + budget = S.maxDepth := by
        change w.context.depth + 1 + budget = S.maxDepth
        omega
      have hcallee : ∀ p, operator.value source w.context.arena = .ok (.procedure p) →
          S.host.OnlyForces p.code := fun p hp => hcalls.of_begins hp
      simp only [traceStep, hw.maxDepth, if_neg hleft] at hcalls ⊢
      have hcalls := hcalls.of_see.of_andThen
      refine .see (World.Agrees.ending (traceDispatch_agrees ih henter hscope hdepth' operator
        items span hcallee hcalls) pending fun r r' u st' hgrows hu hr => ?_) rfl _
      have hgrows' : w.GrowsTo u.leave := by
        refine ⟨?_, hgrows.active, hgrows.frames⟩
        rw [World.leave, hgrows.context]
        rfl
      exact .reply hgrows' { hu with } hr

end Form

end Simulation

/-! ## Results -/

/-- The world in which a script is evaluated: a new context, and the data of the host. -/
def Lexical.Setting.world (S : Lexical.Setting κ) (env : Environment κ) (around : HostData)
    (identity : Nat) : World κ :=
  ⟨Context.new S.id env S.maxDepth S.data, around, identity⟩

section Results

variable {S : Lexical.Setting κ} {env : Environment κ} {around : HostData} {identity : Nat}

/-- The outermost scope stands for the environment alone. -/
theorem Arena.IsScope.root (hfresh : ∀ x ∈ env.operands, x.owner ≠ S.id) :
    (S.world env around identity).context.arena.IsScope S.id .root [⟨env, []⟩] := by
  have henv : env = env.mapOperands (Operand.rebind S.id fun _ => .root) :=
    (Environment.mapOperands_eq_self fun x hx => Operand.rebind_of_foreign (hfresh x hx)).symm
  refine .of_closesEnv (f := ⟨env, none, 0⟩) rfl ⟨_, henv, .of_foreign hfresh⟩ (fun _ => rfl)
    fun parent hparent => ?_
  cases hparent

theorem Lexical.Setting.trace_agrees
    (hfresh : ∀ x ∈ env.operands ++ around.captured.values, x.owner ≠ S.id) {p : Program}
    {form : Form} (hform : p.body = .ok form)
    (hcalls : ((S.world env around identity).trace S.host [] p).Calls S.host.OnlyForces) :
    (S.world env around identity).Agrees S (Lexical.run S env around identity p.source form)
      ((S.world env around identity).trace S.host [] p) := by
  rw [World.trace, hform] at hcalls ⊢
  exact Form.traceWithin_simulates S S.maxDepth [] _ p.source form _ _
    (.new S env around identity hfresh) (.root fun x hx => hfresh x (List.mem_append_left _ hx))
    (Nat.zero_add _) hcalls

theorem Lexical.Setting.world_keepsOnly
    (hfresh : ∀ x ∈ env.operands ++ around.captured.values, x.owner ≠ S.id) :
    (S.world env around identity).KeepsOnly fun x => x.owner ≠ S.id := by
  refine ⟨.ofRoot env, fun x hx => ?_, fun x hx => hfresh x (List.mem_append_right _ hx)⟩
  have hx : x ∈ env.operands := Arena.operands_ofRoot env ▸ hx
  exact hfresh x (List.mem_append_left _ hx)

/-- If no scope is opened to stay, then frames are added if and only if something is pinned. -/
theorem World.GrowsTo.frames_eq_iff {host : Host κ} {w u : World κ} {p : Program} {r : Reply κ}
    (hgrows : w.GrowsTo u) (hw : w.context.arena.WellFormed)
    (hderives : ∀ s ∈ (w.trace host [] p).sights, s.event.isDerive = false)
    (hrun : (w.trace host [] p).outcome = .reply r u) :
    u.context.arena.frames = w.context.arena.frames ↔ (w.trace host [] p).Tidy := by
  have hunscoped : Pending.Unscoped [] := fun _ => List.not_mem_nil
  have hinside : (w.trace host [] p).DerivesInside := fun s hs =>
    Sight.derivesInside_of_isDerive (hderives s hs)
  have hsize := (World.trace_balances host hw hunscoped p).size_eq_iff r u hrun
  rw [and_iff_left hinside] at hsize
  rw [← hsize]
  constructor
  · intro hframes
    rw [Arena.size, hframes, Arena.size]
  · intro hsize
    exact Array.toList_inj.mp (hgrows.frames.eq_of_length hsize.symm).symm

end Results

/-- The arena implements lexical scoping. Let a compiled script be evaluated in a new context, with
any environment and any limit of calls, and let the procedures that are called touch the context
only by forcing operands, whichever they get hold of. Then the evaluation ends as the lexical one
does: with the same error, or with the same value, its operands being bound to scopes that stand for
those which they carry. Or both are given up, since the operand of another context was forced.
Afterwards the active scope and the depth of calls are as they were, and all frames that were there
are there, with the same bindings. There are no others if and only if nothing is pinned at the end
of the calls that open a scope and are inside of no other such call, and certainly not if no
procedure keeps the operands that it is called with. No operand of a context can exist before the
context. -/
theorem run_eq_lexical {source : Source} {p : Program} (hp : Program.compile source = .ok p)
    (S : Lexical.Setting κ) (env : Environment κ) (around : HostData) (identity : Nat)
    (hfresh : ∀ x ∈ env.operands ++ around.captured.values, x.owner ≠ S.id)
    (hcalls : ((S.world env around identity).trace S.host [] p).Calls S.host.OnlyForces) :
    ∃ form, p.body = .ok form ∧
      (S.world env around identity).Ends S (Lexical.run S env around identity p.source form)
        ((S.world env around identity).run S.host p) ∧
      ∀ r u, (S.world env around identity).run S.host p = .reply r u →
        (u.context.arena.frames = (S.world env around identity).context.arena.frames ↔
          ((S.world env around identity).trace S.host [] p).Tidy) ∧
        (((S.world env around identity).trace S.host [] p).Calls S.host.KeepsNone →
          u.context.arena.frames = (S.world env around identity).context.arena.frames) := by
  obtain ⟨tree, form, rfl, -, -, -⟩ := Program.exists_of_compile hp
  obtain ⟨hderives, hends⟩ := Lexical.Setting.trace_agrees hfresh rfl hcalls
  rw [← World.trace_outcome S.host (S.world env around identity) []]
  refine ⟨form, rfl, hends, fun r u hrun => ?_⟩
  rw [hrun] at hends
  have hiff := hends.growsTo.frames_eq_iff (.ofRoot env) hderives hrun
  refine ⟨hiff, fun hnone => hiff.mpr ?_⟩
  exact (Lexical.Setting.world_keepsOnly hfresh).trace_tidy [] _ hnone

/-! ### A quoted operand -/

theorem Library.quoting_onlyForces (code : Builtin) : Library.quoting.OnlyForces code := by
  rintro f hf ⟨i, code', captured⟩ call rfl
  cases code' with
  | block | layer | quote => exact host_onlyForces rfl f hf _ call rfl
  | _ => rfl

/-- Scopes can stay that a script opens, although the procedures only force operands. It is not the
case that the frames are always as they were before. -/
theorem forcing_can_leave_scopes :
    ¬ ∀ (S : Lexical.Setting Builtin) (env : Environment Builtin) (around : HostData)
        (identity : Nat) (source : Source) (p : Program) (r : Reply Builtin) (u : World Builtin),
      (∀ x ∈ env.operands ++ around.captured.values, x.owner ≠ S.id) →
      (∀ code, S.host.OnlyForces code) → Program.compile source = .ok p →
      (S.world env around identity).run S.host p = .reply r u →
      u.context.arena.frames = (S.world env around identity).context.arena.frames := by
  intro h
  obtain ⟨p, r, u, hp, hrun, hscopes, -⟩ := Moment.exists_quoted_run
  have hframes : u.context.arena.frames = World.quoting.context.arena.frames := by
    refine h ⟨Library.quoting, 0, 8, .absent⟩ _ .fresh 3 _ p r u (fun x hx => ?_)
      Library.quoting_onlyForces hp hrun
    rcases List.mem_append.mp hx with hx | hx
    · rw [← Arena.operands_ofRoot] at hx
      exact absurd (.inr hx) (Moment.quoting_not_alive x)
    · cases hx
  have hsize : u.context.arena.size = 1 := congrArg Array.size hframes
  rw [hscopes] at hsize
  cases hsize

/-! ### Scripts with the library -/

namespace Library

/-- The library in a context that may have eight calls in progress. -/
def setting : Lexical.Setting Builtin := ⟨host, 7, 8, .absent⟩

/-- A few of the procedures, under their names, and a number. -/
def fewNames : Environment Builtin :=
  Bindings.ofList [("DEFINE", .procedure ⟨0, .define, []⟩), ("QUOTE", .procedure ⟨1, .quote, []⟩),
    ("FORCE", .procedure ⟨2, .force, []⟩), ("x", .int 1)]

def fewWorld : World Builtin := setting.world fewNames .fresh 3

theorem fewNames_fresh :
    ∀ x ∈ fewNames.operands ++ HostData.fresh.captured.values, x.owner ≠ 7 := by
  have hnone : (fewNames.operands ++ HostData.fresh.captured.values).isEmpty = true := by
    decide +kernel
  rw [List.isEmpty_iff.mp hnone]
  exact List.forall_mem_nil _

/-- The number that a script has for its value by lexical evaluation, and whether it calls only
procedures of the given kind. -/
def lexicalRun (kind : Builtin → Bool) (source : Source) : Option (Int64 × Bool) :=
  (Program.compile source).toOption.bind fun p => p.body.toOption.bind fun form =>
    match Lexical.run setting fewNames .fresh 3 p.source form with
    | .reply (.ok ⟨.int k, _⟩) _ =>
      some (k, (fewWorld.trace host [] p).callees.all fun q => kind q.code)
    | _ => none

theorem exists_of_lexicalRun {kind : Builtin → Bool} {source : Source} {k : Int64}
    (h : lexicalRun kind source = some (k, true)) :
    ∃ p scopes st, Program.compile source = .ok p ∧
      (∀ form, p.body = .ok form → Lexical.run setting fewNames .fresh 3 p.source form =
        .reply (.ok ⟨.int k, scopes⟩) st) ∧
      (fewWorld.trace host [] p).Calls fun code => kind code = true := by
  obtain ⟨p, hp, h⟩ := Option.bind_eq_some_iff.mp h
  obtain ⟨form, hform, h⟩ := Option.bind_eq_some_iff.mp h
  split at h
  next k' scopes st hrun =>
    obtain ⟨rfl, hcallees⟩ := Prod.mk.inj (Option.some.inj h)
    refine ⟨p, scopes, st, Program.compile_eq_ok_of_toOption hp, fun form' hform' => ?_,
      fun q hq => List.all_eq_true.mp hcallees q hq⟩
    rw [hform'] at hform
    cases hform
    exact hrun
  · cases h

end Library

/-- A number is the same in both evaluations. -/
theorem World.Ends.exists_int {S : Lexical.Setting κ} {w : World κ} {o : Outcome κ} {k : Int64}
    {scopes : List (Scope κ)} {st : Lexical.State κ}
    (h : w.Ends S (.reply (.ok ⟨.int k, scopes⟩) st) o) :
    ∃ u, o = .reply (.ok (.int k)) u ∧ w.GrowsTo u := by
  cases h with
  | @reply r _ u _ hgrows _ hr =>
    cases hr with
    | ok hv =>
      obtain ⟨ρ, hv, -⟩ := hv
      simp only [Value.mapOperands] at hv
      subst hv
      exact ⟨u, rfl, hgrows⟩

/-- A quoted operand is forced where the identifier in it is bound anew. -/
def Source.shadowedQuote : Source :=
  ⟨"script", "(DEFINE \"q\" (QUOTE x) (DEFINE \"x\" 2 (FORCE q)))"⟩

/-- A binding shadows another one, and no operand is kept. -/
def Source.shadowed : Source :=
  ⟨"script", "(DEFINE \"x\" 2 x)"⟩

/-- A quoted operand has the value that it has where it was written. A binding that shadows another
one is seen in its own body alone, and where no operand is quoted no scope is left. -/
theorem run_eq_lexical_shadowed :
    (∃ p u, Program.compile .shadowedQuote = .ok p ∧
      Library.fewWorld.run Library.host p = .reply (.ok (.int 1)) u ∧
      Library.fewWorld.GrowsTo u) ∧
    ∃ p u, Program.compile .shadowed = .ok p ∧
      Library.fewWorld.run Library.host p = .reply (.ok (.int 2)) u ∧
      u.context.arena.frames = Library.fewWorld.context.arena.frames := by
  constructor
  · have hcompute : Library.lexicalRun Builtin.onlyForces .shadowedQuote = some (1, true) := by
      decide +kernel
    obtain ⟨p, scopes, st, hp, hlexical, hcalls⟩ := Library.exists_of_lexicalRun hcompute
    obtain ⟨form, hform, hends, -⟩ := run_eq_lexical hp Library.setting Library.fewNames .fresh 3
      Library.fewNames_fresh fun q hq => Library.host_onlyForces (hcalls q hq)
    rw [hlexical form hform] at hends
    obtain ⟨u, hrun, hgrows⟩ := hends.exists_int
    exact ⟨p, u, hp, hrun, hgrows⟩
  · have hcompute : Library.lexicalRun Library.forcing.contains .shadowed = some (2, true) := by
      decide +kernel
    obtain ⟨p, scopes, st, hp, hlexical, hcalls⟩ := Library.exists_of_lexicalRun hcompute
    have hcalls : (Library.fewWorld.trace Library.host [] p).Calls (· ∈ Library.forcing) :=
      fun q hq => List.contains_iff_mem.mp (hcalls q hq)
    obtain ⟨form, hform, hends, hframes⟩ := run_eq_lexical hp Library.setting Library.fewNames
      .fresh 3 Library.fewNames_fresh fun q hq =>
        Library.host_onlyForces (Library.onlyForces_of_mem_forcing (hcalls q hq))
    rw [hlexical form hform] at hends
    obtain ⟨u, hrun, -⟩ := hends.exists_int
    exact ⟨p, u, hp, hrun, (hframes _ u hrun).2 fun q hq => Library.host_keepsNone (hcalls q hq)⟩

end Fexpr
