import Fexpr.Proofs.Eval.Bracketing
import Fexpr.Proofs.Eval.Handles
import Fexpr.Proofs.Eval.Lexical
import Fexpr.Proofs.Eval.Safety
import Fexpr.Proofs.Scope.Moment

/-!
# Evaluations are made of steps

An evaluation that ends with a reply is a run of its context, provided that the procedures make no
operands up (`Moment.Leads`). The evaluator keeps no list of the handles that are held while it is
on its way. It need not: of the scopes that a call opens, a handle that was held before can pin none
(`Moment.WellScoped.release_eq`).

So whatever holds at every moment of every run holds before and after each evaluation.
-/

namespace Fexpr

variable {κ : Type}

theorem Reply.operands_mapError (r : Reply κ) (f : Error → Error) :
    Reply.operands (r.mapError f) = Reply.operands r := by
  cases r <;> rfl

theorem World.mem_heldOperands_iff {w : World κ} {r : Reply κ} {x : Operand} :
    x ∈ w.heldOperands r ↔ x ∈ Reply.operands r ∨ x ∈ w.host.captured.values := by
  cases r <;> exact List.mem_append

/-! ## What the arena answers -/

namespace Arena

variable {a : Arena κ} {s : ScopeId} {f : Frame κ}

theorem mem_operands_of_found {env : Environment κ} (henv : env.KeepsOnly (· ∈ a.operands))
    (id : String) : ∀ x ∈ Value.operandsOfFound (env.find? id), x ∈ a.operands := by
  intro x hx
  cases hv : env.find? id with
  | none =>
    rw [hv] at hx
    cases hx
  | some v =>
    rw [hv] at hx
    exact henv.of_find? hv x hx

theorem keepsOnly_of_frame? (hf : a.frame? s = some f) : f.env.KeepsOnly (· ∈ a.operands) :=
  fun _ hx => mem_operands_iff.mpr ⟨s.index, f, (frame?_eq_some_iff.mp hf).1, hx⟩

theorem WellFormed.exists_lookupFrom (h : a.WellFormed) (hs : a.isLive s = true) (id : String) :
    ∃ v, a.lookupFrom s id = .ok v ∧ ∀ x ∈ Value.operandsOfFound v, x ∈ a.operands := by
  obtain ⟨envs, hchain⟩ := h.exists_chain hs
  refine ⟨_, hchain.lookupWithin id (s.index + 1) (Nat.lt_succ_self _), fun x hx => ?_⟩
  cases hv : envs.findSome? (·.find? id) with
  | none =>
    rw [hv] at hx
    cases hx
  | some v =>
    obtain ⟨env, henv, hfind⟩ := List.exists_of_findSome?_eq_some hv
    rw [hv, ← hfind] at hx
    exact mem_operands_of_found (fun y hy => hchain.mem_operands henv hy) id x hx

end Arena

/-! ## Runs with handles held -/

namespace Moment

variable {S : Set ScopeId} {m m' n : Moment κ} {held held' : List Operand}
  {pending pending' : List Pending}

/-- There is a run from `m` to `m'` in which `held` is held at every moment. -/
def Reaches (held : List Operand) (m m' : Moment κ) : Prop :=
  ∃ ms, m.Run ms m' ∧ ∀ n ∈ ms, held ⊆ n.held

namespace Reaches

theorem refl (h : held ⊆ m.held) : m.Reaches held m :=
  ⟨[m], .stop m, fun _ hn => List.mem_singleton.mp hn ▸ h⟩

theorem trans (h : m.Reaches held n) (h' : n.Reaches held m') : m.Reaches held m' := by
  obtain ⟨ms, hms, hheld⟩ := h
  obtain ⟨ns, hns, hheld'⟩ := h'
  obtain ⟨ks, hks, hmem⟩ := hms.trans hns
  exact ⟨ks, hks, fun k hk => (hmem k hk).elim (hheld k) (hheld' k)⟩

theorem single (h : Step m m') (hm : held ⊆ m.held) (hm' : held ⊆ m'.held) :
    m.Reaches held m' := by
  refine ⟨[m, m'], .step h (.stop m'), fun n hn => ?_⟩
  rcases List.mem_cons.mp hn with rfl | hn
  · exact hm
  · exact List.mem_singleton.mp hn ▸ hm'

theorem ofStep (h : Step m m') (hheld : m'.held = m.held) : m.Reaches m.held m' :=
  .single h (List.Subset.refl _) (hheld ▸ List.Subset.refl _)

theorem mono (h : m.Reaches held' m') (hsub : held ⊆ held') : m.Reaches held m' := by
  obtain ⟨ms, hms, hheld⟩ := h
  exact ⟨ms, hms, fun n hn => List.Subset.trans hsub (hheld n hn)⟩

theorem wellScoped (h : m.Reaches held m') (hm : m.WellScoped) : m'.WellScoped := by
  obtain ⟨ms, hms, -⟩ := h
  exact hms.wellScoped hm m' hms.last_mem

theorem id_eq (h : m.Reaches held m') : m'.world.context.id = m.world.context.id := by
  obtain ⟨ms, hms, -⟩ := h
  exact hms.id_eq m' hms.last_mem

/-- Handles are taken of operands that are alive, or made for what is written in the active
scope. -/
theorem hold (h : ∀ x ∈ held, m.Alive x ∨ x.scope = m.arena.active) :
    m.Reaches m.held { m with held := held ++ m.held } := by
  refine .single (.handles m.world.host m.world.nextIdentity (held ++ m.held) fun x hx => ?_)
    (List.Subset.refl _) (List.subset_append_right held m.held)
  simp only [List.mem_append] at hx
  rcases hx with (hx | hx) | hx
  · exact (h x hx).imp_right .inr
  · exact .inl (.inl (List.mem_append_left _ hx))
  · exact .inl (.inl (List.mem_append_right _ hx))

end Reaches

/-- Steps lead from the moment to the end of the evaluation, where its reply is held besides `held`
and `pending` is left to do. On the way `held` is held all the time. If the evaluation is given up
because of a scope that is gone, then steps lead to a moment at which the scope is not live, and it
is one of `S`. -/
structure Leads (S : Set ScopeId) (m : Moment κ) (held : List Operand) (pending : List Pending)
    (o : Outcome κ) : Prop where
  reply : ∀ r w, o = .reply r w → ∃ log, m.Reaches held ⟨w, Reply.operands r ++ held, pending, log⟩
  notLive : ∀ s, o = .abort (.notLive s) →
    s ∈ S ∧ ∃ n, m.Reaches held n ∧ ¬ n.arena.isLive s = true

namespace Leads

variable {o : Outcome κ}

theorem ofReaches {r : Reply κ} {w : World κ} {log : List (Definition κ)}
    (h : m.Reaches held ⟨w, Reply.operands r ++ held, pending, log⟩) :
    m.Leads S held pending (.reply r w) where
  reply := by
    intro r' w' h'
    cases h'
    exact ⟨log, h⟩
  notLive := fun _ h => nomatch h

/-- The last step of an evaluation. -/
theorem ofStep {r : Reply κ} {w : World κ} {log : List (Definition κ)} (hm : held ⊆ m.held)
    (h : Step m ⟨w, Reply.operands r ++ held, pending, log⟩) :
    m.Leads S held pending (.reply r w) :=
  .ofReaches (.single h hm (List.subset_append_right _ held))

/-- The evaluation answers what is at hand. -/
theorem answer {r : Reply κ} (h : ∀ x ∈ Reply.operands r, m.Alive x) :
    m.Leads S m.held m.pending (.reply r m.world) :=
  .ofReaches (.hold fun x hx => .inl (h x hx))

theorem error (e : Error) : m.Leads S m.held m.pending (.reply (.error e) m.world) :=
  .answer fun _ hx => nomatch hx

theorem gone {s : ScopeId} (hs : s ∈ S) (hgone : ¬ m.arena.isLive s = true) :
    m.Leads S m.held pending (.abort (.notLive s)) where
  reply := fun _ _ h => nomatch h
  notLive := by
    intro t ht
    cases ht
    exact ⟨hs, m, .refl (List.Subset.refl _), hgone⟩

/-- The evaluation is given up for another reason. -/
theorem abort {a : Abort} (h : ∀ s, a ≠ .notLive s) : m.Leads S held pending (.abort a) where
  reply := fun _ _ hr => nomatch hr
  notLive := by
    intro s hs
    cases hs
    exact absurd rfl (h s)

theorem after (h : m.Reaches held m') (ho : m'.Leads S held pending o) :
    m.Leads S held pending o where
  reply := by
    intro r w hr
    obtain ⟨log, hrest⟩ := ho.reply r w hr
    exact ⟨log, h.trans hrest⟩
  notLive := by
    intro s hs
    obtain ⟨hmem, n, hrest, hgone⟩ := ho.notLive s hs
    exact ⟨hmem, n, h.trans hrest, hgone⟩

theorem andThen {next : Reply κ → World κ → Outcome κ} (ho : m.Leads S held pending' o)
    (hnext : ∀ r w log, o = .reply r w →
      m.Reaches held ⟨w, Reply.operands r ++ held, pending', log⟩ →
      Leads S ⟨w, Reply.operands r ++ held, pending', log⟩ held pending (next r w)) :
    m.Leads S held pending (o.andThen next) := by
  cases o with
  | reply r w =>
    obtain ⟨log, hrun⟩ := ho.reply r w rfl
    exact .after hrun (hnext r w log rfl hrun)
  | abort a =>
    refine ⟨fun _ _ h => (nomatch h), fun s hs => ho.notLive s ?_⟩
    cases hs
    rfl

/-- Handles that are not needed any more are dropped at the end. -/
theorem drop (ho : m.Leads S held' pending o) (hsub : held ⊆ held') :
    m.Leads S held pending o where
  reply := by
    intro r w hr
    obtain ⟨log, hrun⟩ := ho.reply r w hr
    have hsub' : held ⊆ Reply.operands r ++ held' := List.subset_append_of_subset_right _ hsub
    refine ⟨log, (hrun.mono hsub).trans (.single ?_ hsub' (List.subset_append_right _ held))⟩
    refine .handles w.host w.nextIdentity (Reply.operands r ++ held) fun x hx => .inl (.inl ?_)
    simp only [kept, List.mem_append] at hx ⊢
    exact hx.imp_left (·.imp_right (hsub ·))
  notLive := by
    intro s hs
    obtain ⟨hmem, n, hrun, hgone⟩ := ho.notLive s hs
    exact ⟨hmem, n, hrun.mono hsub, hgone⟩

theorem mapError (ho : m.Leads S held pending o) (f : Error → Error) :
    m.Leads S held pending (o.andThen fun r w => .reply (r.mapError f) w) := by
  cases o with
  | reply r w =>
    obtain ⟨log, hrun⟩ := ho.reply r w rfl
    rw [← Reply.operands_mapError r f] at hrun
    exact .ofReaches hrun
  | abort a => exact ho

theorem answered {α : Type} {answer : Except ScopeId α} {next : α → Outcome κ}
    {a : α} (h : answer = .ok a) (hnext : m.Leads S held pending (next a)) :
    m.Leads S held pending (Action.answered answer next) := by
  rw [h]
  exact hnext

end Leads

end Moment

/-- The evaluator takes steps only. -/
def Evaluator.Leads (S : Set ScopeId) (eval : Evaluator κ) : Prop :=
  ∀ source form (m : Moment κ), m.WellScoped →
    m.Leads S m.held m.pending (eval source form m.world)

/-! ## Scopes that are opened and made active -/

namespace Moment

variable {S T : Set ScopeId} {m n : Moment κ} {held : List Operand} {eval : Evaluator κ}

/-- What was held when a scope was opened makes no difference to its release. -/
theorem WellScoped.release_eq {w : World κ} {r : Reply κ} {mark : Nat} {rest : List Pending}
    {log : List (Definition κ)}
    (h : WellScoped ⟨w, Reply.operands r ++ held, .release mark :: rest, log⟩)
    (hbelow : ∀ x ∈ held, x.owner = w.context.id → x.scope.index < mark) :
    w.context.arena.release w.context.id
        (kept ⟨w, Reply.operands r ++ held, .release mark :: rest, log⟩) mark =
      w.context.arena.release w.context.id (w.heldOperands r) mark := by
  refine h.arena.release_congr h.pending.1 (fun x hx => ?_) fun x hx hx' howner => ?_
  · simp only [kept, List.mem_append]
    exact (World.mem_heldOperands_iff.mp hx).imp_left .inl
  · simp only [World.mem_heldOperands_iff, not_or] at hx'
    refine ⟨h.alive x (.inl hx) howner, hbelow x ?_ howner⟩
    simp only [kept, List.mem_append] at hx
    rcases hx with (hx | hx) | hx
    · exact absurd hx hx'.1
    · exact hx
    · exact absurd hx hx'.2

/-- A scope is opened, and released in the end. -/
theorem WellScoped.withChild_leads (hm : m.WellScoped) {parent : ScopeId}
    (hparent : m.arena.isLive parent = true) {env : Environment κ} (henv : env.KeepsOnly m.Alive)
    {body : ScopeId → World κ → Outcome κ}
    (hbody : ∀ n : Moment κ, n.WellScoped → n.held = m.held →
      n.arena = m.arena.pushed parent env →
      n.Leads S n.held n.pending (body m.arena.next n.world)) :
    m.Leads S m.held m.pending (m.world.withChild parent env body) := by
  have hpush : m.arena.push parent env = .ok (m.arena.next, m.arena.pushed parent env) :=
    Arena.push_eq_ok hparent
  have hopen := Reaches.ofStep (.openScope henv hpush) rfl
  rw [World.withChild]
  simp only [hpush]
  refine .after hopen (.andThen (hbody _ (hopen.wellScoped hm) rfl rfl) ?_)
  intro r w log hr hrun
  have hend := hrun.wellScoped (hopen.wellScoped hm)
  have hid : w.context.id = m.world.context.id := hrun.id_eq
  have hrelease := hend.release_eq fun x hx howner =>
    Arena.index_lt_of_isLive (hm.alive x (.inl (List.mem_append_left _ hx)) (howner.trans hid))
  rw [← hrelease]
  exact .ofStep (List.subset_append_right _ _) (.closeScope rfl)

/-- An operand is evaluated in a live scope, and the scope that was active is made so again. -/
theorem WellScoped.evalIn_leads (hm : m.WellScoped) (heval : eval.Leads S) (x : Operand)
    {s : ScopeId} (hs : x.owner = m.world.context.id → m.arena.isLive s = true ∨ s ∈ S) :
    m.Leads S m.held m.pending (m.world.evalIn eval x s) := by
  unfold World.evalIn
  split
  · exact .abort fun _ h => nomatch h
  next howner =>
    rw [ne_eq, not_not] at howner
    by_cases hlive : m.arena.isLive s = true
    · have hactivate := Arena.activate_eq_ok hlive
      have hbegin := Reaches.ofStep (.activate hactivate) rfl
      simp only [hactivate]
      refine .after hbegin (.andThen (heval _ _ _ (hbegin.wellScoped hm)) fun r w log hr hrun => ?_)
      have hend := hrun.wellScoped (hbegin.wellScoped hm)
      -- The scope that was active is live as long as it waits to be restored.
      have hback : w.context.arena.activate m.arena.active =
          .ok { w.context.arena with active := m.arena.active } :=
        Arena.activate_eq_ok hend.pending.1
      simp only [hback]
      exact .ofStep (List.subset_append_right _ _) (.restore rfl hback)
    · rw [Arena.activate_eq_error hlive]
      exact .gone ((hs howner).resolve_left hlive) hlive

/-! ## What procedures ask for -/

/-- What a procedure relies on: the handles that it uses are held, and the scopes that it asks for
by id are live, if they are not among `S`. -/
structure Grants (S : Set ScopeId) (m : Moment κ) (xs : List Operand) (T : Set ScopeId) : Prop where
  wellScoped : m.WellScoped
  subset_held : xs ⊆ m.held
  scopes : ∀ s ∈ T, m.arena.isLive s = true ∨ s ∈ S

namespace Grants

variable {xs us : List Operand} {x : Operand} {place : Place κ} {o : Outcome κ}

theorem alive (h : m.Grants S xs T) (hx : x ∈ xs) : m.Alive x :=
  .inl (List.mem_append_left _ (h.subset_held hx))

theorem keepsOnly (h : m.Grants S xs T) (hus : ∀ x ∈ us, x ∈ xs) : ∀ x ∈ us, m.Alive x :=
  fun x hx => h.alive (hus x hx)

/-- A later moment, in which the scopes are live that were so, grants the same. -/
theorem later (h : m.Grants S xs T) (us : List Operand) (hrun : m.Reaches held n)
    (hheld : n.held = us ++ m.held)
    (hlive : ∀ s, m.arena.isLive s = true → n.arena.isLive s = true) :
    n.Grants S (us ++ xs) T where
  wellScoped := hrun.wellScoped h.wellScoped
  subset_held := by
    rw [hheld]
    exact List.append_subset.mpr
      ⟨List.subset_append_left _ _, List.subset_append_of_subset_right _ h.subset_held⟩
  scopes := fun s hs => (h.scopes s hs).imp_left (hlive s)

theorem opened (h : m.Grants S xs T) {s : ScopeId} (hs : m.arena.isLive s = true) :
    m.Grants S xs (insert s T) := by
  refine ⟨h.wellScoped, h.subset_held, fun t ht => ?_⟩
  rcases ht with rfl | ht
  · exact .inl hs
  · exact h.scopes t ht

/-- What the arena has answered is held from then on. -/
theorem found (h : m.Grants S xs T) (hus : ∀ x ∈ us, x ∈ m.arena.operands)
    (ho : ∀ n : Moment κ, n.world = m.world → n.Grants S (us ++ xs) T →
      n.Leads S n.held n.pending o) :
    m.Leads S m.held m.pending o := by
  have hhold : m.Reaches m.held { m with held := us ++ m.held } :=
    .hold fun x hx => .inl (.inr (hus x hx))
  refine .after hhold (.drop (ho { m with held := us ++ m.held } rfl ?_) ?_)
  · exact h.later us hhold rfl fun _ hs => hs
  · exact List.subset_append_right us m.held

/-- The data of the host changes, which keeps nothing but what is at hand. -/
theorem hostData (h : m.Grants S xs T) (host : HostData) (identity : Nat)
    (hcaptured : ∀ x ∈ host.captured.values, x ∈ xs ∨ x ∈ m.world.host.captured.values)
    (ho : ∀ n : Moment κ, n.world = { m.world with host, nextIdentity := identity } →
      n.Grants S xs T → n.Leads S n.held n.pending o) :
    m.Leads S m.held m.pending o := by
  have hstep : m.Reaches m.held
      { m with world := { m.world with host, nextIdentity := identity } } := by
    refine .ofStep (.handles host identity m.held fun x hx => .inl ?_) rfl
    rcases List.mem_append.mp hx with hx | hx
    · exact .inl (List.mem_append_left _ hx)
    · rcases hcaptured x hx with hx | hx
      · exact h.alive hx
      · exact .inl (List.mem_append_right _ hx)
  exact .after hstep (ho _ rfl (h.later [] hstep rfl fun _ hs => hs))

theorem force_leads (h : m.Grants S xs T) (heval : eval.Leads S) (hx : x ∈ xs)
    (hplace : place.UsesOnly xs T) :
    m.Leads S m.held m.pending (m.world.force eval x place) := by
  have hown : x.owner = m.world.context.id → m.arena.isLive x.scope = true :=
    h.wellScoped.alive x (h.alive hx)
  cases place with
  | own => exact h.wellScoped.evalIn_leads heval x fun howner => .inl (hown howner)
  | layered env =>
    show m.Leads S m.held m.pending (m.world.evalLayered eval x env)
    unfold World.evalLayered
    split
    · exact .abort fun _ h => nomatch h
    next howner =>
      rw [ne_eq, not_not] at howner
      refine h.wellScoped.withChild_leads (hown howner) (h.keepsOnly hplace)
        fun n hn _ harena => ?_
      refine hn.evalIn_leads heval x fun _ => .inl ?_
      rw [harena]
      exact Arena.isLive_next
  | scope s => exact h.wellScoped.evalIn_leads heval x fun _ => h.scopes s hplace

end Grants

end Moment

section Runs

open Moment

variable {S T : Set ScopeId} {m : Moment κ} {eval : Evaluator κ} {host : Host κ}

/-- The requests of a procedure are steps, one after the other. -/
theorem Action.UsesOnly.run_leads (heval : eval.Leads S) (hbrackets : eval.Brackets)
    {a : Action κ} {xs : List Operand} (ha : a.UsesOnly xs T) (hm : m.Grants S xs T) :
    m.Leads S m.held m.pending (a.run eval m.world) := by
  -- What the action may use grows by the operands of each reply. The scopes that it was granted
  -- stay live, because a request leaves those live that were so before it.
  induction a generalizing m xs T with
  | done v => exact .answer (hm.keepsOnly ha)
  | fail e => exact .error e
  | force x place next ih =>
    obtain ⟨hx, hplace, hnext⟩ := ha
    rw [Action.run]
    refine .andThen (hm.force_leads heval hx hplace) fun r w log hr hrun => ?_
    have hframes := (m.world.force_brackets hbrackets x place r w hr).frames
    refine .drop (ih r (hnext r) ?_) (List.subset_append_right _ _)
    exact hm.later _ hrun rfl fun _ => hframes.isLive
  | lookup id next ih =>
    obtain ⟨v, hv, hfound⟩ := hm.wellScoped.arena.exists_lookupFrom hm.wellScoped.arena.active id
    rw [Action.run]
    refine .answered hv (hm.found hfound fun n hn hgrants => ?_)
    exact hn ▸ ih v (ha v) hgrants
  | lookupFrom s id next ih =>
    rw [Action.run]
    by_cases hs : m.arena.isLive s = true
    · obtain ⟨v, hv, hfound⟩ := hm.wellScoped.arena.exists_lookupFrom hs id
      refine .answered hv (hm.found hfound fun n hn hgrants => ?_)
      exact hn ▸ ih v (ha.2 v) hgrants
    · rw [Arena.lookupFrom_eq_error hs]
      exact .gone ((hm.scopes s ha.1).resolve_left hs) hs
  | lookupLocal id next ih =>
    obtain ⟨f, hf, henv⟩ := hm.wellScoped.arena.exists_env
    have hfound := Arena.mem_operands_of_found (Arena.keepsOnly_of_frame? hf) id
    rw [Action.run]
    refine .answered henv (hm.found hfound fun n hn hgrants => ?_)
    exact hn ▸ ih _ (ha _) hgrants
  | lookupOuter id next ih =>
    rw [Action.run]
    rcases hm.wellScoped.arena.exists_outerEnv with ⟨-, henv⟩ | ⟨f, p, g, -, -, hg, henv⟩
    · refine .answered henv (ih none ?_ hm)
      exact ha none
    · have hfound := Arena.mem_operands_of_found (Arena.keepsOnly_of_frame? hg) id
      refine .answered henv (hm.found hfound fun n hn hgrants => ?_)
      exact hn ▸ ih _ (ha (some (g.env.find? id))) hgrants
  | define id v next ih =>
    obtain ⟨hv, hnext⟩ := ha
    have hstep := Reaches.ofStep (.define id (hm.keepsOnly hv)) rfl
    rw [Action.run]
    exact .after hstep (ih hnext (hm.later [] hstep rfl fun _ => Arena.isLive_define))
  | derive env next ih =>
    obtain ⟨henv, hnext⟩ := ha
    have hpush : m.arena.push m.arena.active env =
        .ok (m.arena.next, m.arena.pushed m.arena.active env) :=
      Arena.push_eq_ok hm.wellScoped.arena.active
    have hstep := Reaches.ofStep (.derive (hm.keepsOnly henv) hpush) rfl
    rw [Action.run]
    refine .answered hpush (.after hstep (ih _ (hnext _) (.opened ?_ Arena.isLive_next)))
    exact hm.later [] hstep rfl fun _ => Arena.isLive_pushed
  | withDerived env body next ihbody ihnext =>
    obtain ⟨henv, hbody, hnext⟩ := ha
    rw [Action.run]
    refine .andThen (hm.wellScoped.withChild_leads hm.wellScoped.arena.active (hm.keepsOnly henv)
      fun n hn hheld harena => ?_) fun r w log hr hrun => ?_
    · have hscopes : ∀ s ∈ T, n.arena.isLive s = true ∨ s ∈ S := fun s hs =>
        (hm.scopes s hs).imp_left fun hlive => harena ▸ Arena.isLive_pushed hlive
      have hn : n.Grants S xs T := ⟨hn, hheld ▸ hm.subset_held, hscopes⟩
      exact ihbody _ (hbody _) (hn.opened (harena ▸ Arena.isLive_next))
    · have hframes := (m.world.withChild_brackets _ env
        (fun s u => Action.run_brackets hbrackets (body s) u) r w hr).frames
      refine .drop (ihnext _ r (hnext _ r) ?_) (List.subset_append_right _ _)
      exact hm.later _ hrun rfl fun _ => hframes.isLive
  | activeScope next ih =>
    rw [Action.run]
    exact ih _ (ha _) (hm.opened hm.wellScoped.arena.active)
  | scopeCount next ih | maxDepth next ih | hasData next ih =>
    rw [Action.run]
    exact ih _ (ha _) hm
  | tick next ih =>
    rw [Action.run]
    refine hm.hostData { m.world.host with ticks := m.world.host.ticks + 1 } m.world.nextIdentity
      (fun x hx => .inr hx) fun n hn hgrants => ?_
    exact hn ▸ ih _ (ha _) hgrants
  | emit line next ih =>
    rw [Action.run]
    refine hm.hostData { m.world.host with out := m.world.host.out.push line } m.world.nextIdentity
      (fun x hx => .inr hx) fun n hn hgrants => ?_
    exact hn ▸ ih ha hgrants
  | capture name x next ih =>
    obtain ⟨hx, hnext⟩ := ha
    rw [Action.run]
    refine hm.hostData { m.world.host with captured := m.world.host.captured.insert name x }
      m.world.nextIdentity (fun y hy => ?_) fun n hn hgrants => ?_
    · rcases Bindings.eq_or_mem_of_mem_values_insert hy with rfl | hy
      · exact .inl hx
      · exact .inr hy
    · exact hn ▸ ih hnext hgrants
  | fresh next ih =>
    rw [Action.run]
    refine hm.hostData m.world.host (m.world.nextIdentity + 1) (fun x hx => .inr hx)
      fun n hn hgrants => ?_
    exact hn ▸ ih _ (ha _) hgrants

/-! ## Evaluation -/

/-- A procedure is called with operands that are written in the active scope. What the procedure
itself and the options keep is bound. -/
theorem Host.UsesOnly.call_leads (hhost : host.UsesOnly S) (heval : eval.Leads S)
    (hbrackets : eval.Brackets) (hm : m.WellScoped) {p : Procedure κ} {given : Call κ}
    (hcaptured : ∀ x ∈ p.captured, x ∈ m.arena.operands)
    (hoperands : ∀ x ∈ given.operands, x.scope = m.arena.active)
    (hoptions : Environment.KeepsOnly (· ∈ m.arena.operands) given.options) :
    m.Leads S m.held m.pending ((host p given).run eval m.world) := by
  have hhold : m.Reaches m.held { m with held := given.handles p ++ m.held } := by
    refine .hold fun x hx => ?_
    simp only [Call.handles, List.mem_append] at hx
    rcases hx with (hx | hx) | hx
    · exact .inl (.inr (hcaptured x hx))
    · exact .inr (hoperands x hx)
    · exact .inl (.inr (hoptions x hx))
  refine .after hhold (.drop ?_ (List.subset_append_right (given.handles p) m.held))
  refine (hhost p given).run_leads (m := { m with held := given.handles p ++ m.held }) heval
    hbrackets ⟨hhold.wellScoped hm, List.subset_append_left _ _, fun s hs => ?_⟩
  rcases hs with hs | ⟨x, hx, rfl⟩
  · exact .inr hs
  · exact .inl (hoperands x hx ▸ hm.arena.active)

theorem Form.dispatch_leads (hhost : host.UsesOnly S) (heval : eval.Leads S)
    (hbrackets : eval.Brackets) (hm : m.WellScoped) (source : Source) (operator : Form.Name)
    (items : List Form.Item) (span : Text.Span) :
    m.Leads S m.held m.pending
      (Form.dispatch host eval source operator items span m.world) := by
  obtain ⟨envs, hchain⟩ := hm.arena.exists_active_chain
  have hkeeps : ∀ env ∈ envs, env.KeepsOnly (· ∈ m.arena.operands) := fun env henv x hx =>
    hchain.mem_operands henv hx
  have hname : operator.value source m.arena =
      (Lexical.nameValue source envs operator).mapError Stop.error :=
    operator.value_eq_lexical hchain
  -- The operator and the options are looked up from the active scope outwards, so that whatever
  -- they keep is bound somewhere in the arena.
  unfold Form.dispatch
  cases hvalue : Lexical.nameValue source envs operator with
  | error e =>
    rw [hname, hvalue]
    exact .error e
  | ok v =>
    have hv : operator.value source m.arena = .ok v := by
      rw [hname, hvalue]
      rfl
    cases v with
    | procedure p =>
      have hp : ∀ x ∈ p.captured, x ∈ m.arena.operands :=
        Lexical.nameValue_keepsOnly hkeeps operator _ hvalue
      rw [hv]
      rcases Form.collect_cases source hchain items with
        ⟨e, hcollect, -⟩ | ⟨given, hcollect, hlexical⟩
      · simp only [hcollect]
        exact .error e
      · simp only [hcollect]
        have hoptions := Lexical.collect_keepsOnly hkeeps .empty hlexical
        have hoperands : ∀ x ∈ given.operands, x.scope = m.arena.active := by
          intro x hx
          rcases Form.exists_of_mem_collect hcollect hx with hx | ⟨f, -, rfl⟩
          · cases hx
          · rfl
        exact (hhost.call_leads heval hbrackets hm hp hoperands hoptions).mapError _
    | _ =>
      rw [hv]
      exact .error _

theorem Form.step_leads (hhost : host.UsesOnly S) (heval : eval.Leads S)
    (hbrackets : eval.Brackets) : Evaluator.Leads S (Form.step host eval) := by
  intro source form m hm
  cases form with
  | atom a =>
    obtain ⟨envs, hchain⟩ := hm.arena.exists_active_chain
    have hkeeps : ∀ env ∈ envs, env.KeepsOnly (· ∈ m.arena.operands) := fun env henv x hx =>
      hchain.mem_operands henv hx
    have ha : a.value source m.arena = (Lexical.atomValue source envs a).mapError Stop.error :=
      a.value_eq_lexical hchain
    rw [Form.step]
    cases hvalue : Lexical.atomValue source envs a with
    | error e =>
      rw [ha, hvalue]
      exact .error e
    | ok v =>
      rw [ha, hvalue]
      exact .answer fun x hx => .inr (Lexical.atomValue_keepsOnly hkeeps a v hvalue x hx)
  | call operator items span =>
    rw [Form.step]
    split
    · exact .error _
    next hdepth =>
      have henter := Reaches.ofStep (.enter (Nat.lt_of_not_le hdepth)) rfl
      refine .after henter (.andThen (Form.dispatch_leads hhost heval hbrackets
        (henter.wellScoped hm) source operator items span) fun r w log hr hrun => ?_)
      exact .ofStep (List.subset_append_right _ _) (.leave rfl)

theorem Form.evalWithin_leads (hhost : host.UsesOnly S) (bound : Nat) :
    (Form.evalWithin host bound).Leads S := by
  induction bound with
  | zero => exact fun _ _ _ _ => .abort fun _ h => nomatch h
  | succ bound ih => exact Form.step_leads hhost ih (Form.evalWithin_brackets host bound)

/-- The evaluation of a script is a run of the context. -/
theorem World.run_leads (hhost : host.UsesOnly S) (hm : m.WellScoped) (p : Program) :
    m.Leads S m.held m.pending (m.world.run host p) := by
  unfold World.run
  split
  · exact .abort fun _ h => nomatch h
  · exact Form.evalWithin_leads hhost _ _ _ m hm

/-- An operand that is alive can be evaluated at any place that is made of what is alive. -/
theorem World.forceAt_leads (hhost : host.UsesOnly S) (hm : m.WellScoped) {x : Operand}
    {xs : List Operand} (hxs : ∀ y ∈ x :: xs, m.Alive y) {place : Place κ}
    (hplace : place.UsesOnly (x :: xs) {s | m.arena.isLive s = true ∨ s ∈ S}) :
    m.Leads S m.held m.pending (m.world.forceAt host x place) := by
  have hhold : m.Reaches m.held { m with held := (x :: xs) ++ m.held } :=
    .hold fun y hy => .inl (hxs y hy)
  refine .after hhold (.drop ?_ (List.subset_append_right (x :: xs) m.held))
  have hgrants : Grants S { m with held := (x :: xs) ++ m.held } (x :: xs)
      {s | m.arena.isLive s = true ∨ s ∈ S} :=
    ⟨hhold.wellScoped hm, List.subset_append_left _ _, fun s hs => hs⟩
  exact hgrants.force_leads (Form.evalWithin_leads hhost _) List.mem_cons_self hplace

end Runs

end Fexpr
