import Fexpr.Eval
import Fexpr.Proofs.Scope.WellFormed

/-!
# Moments in the life of a context

What happens to a context is a sequence of steps: bindings are defined, scopes are opened, made
active and released, calls are entered and left, and handles of operands come and go. A `Moment` is
the state between two steps. Besides the world it has the handles that are held outside the context,
wherever that is, and what the calls in progress still have to do when they end.

Steps know nothing of who takes them. Evaluations of scripts and operands, procedures and the code
around the context are all made of such steps, nested in any way, as long as calls end in the
reverse order of their beginning. A `Run` is a sequence of steps with all its moments.

In every moment that can be reached from a new context the arena is well-formed, and every operand
of the context that is alive was written in a live scope (`Moment.Reachable.wellScoped`).
-/

namespace Fexpr

variable {κ : Type}

/-- What a call in progress does when it ends. -/
inductive Pending where
  /-- Releases the scopes above the first `mark` ones. -/
  | release (mark : Nat)
  /-- Makes the scope active that was active before. -/
  | restore (s : ScopeId)
  /-- Counts one call less. -/
  | leave

/-- A definition, and the scope that was active. -/
structure Definition (κ : Type) where
  scope : ScopeId
  id : String
  value : Value κ

/-- A moment in the life of a context. -/
structure Moment (κ : Type) where
  /-- The context and the data around it. -/
  world : World κ
  /-- The handles that are held outside the context and its data. -/
  held : List Operand
  /-- What the calls in progress still have to do, the innermost call first. -/
  pending : List Pending
  /-- The definitions made so far. -/
  log : List (Definition κ)

namespace Moment

abbrev arena (m : Moment κ) : Arena κ := m.world.context.arena

/-- The operands that are kept outside the scopes. -/
def kept (m : Moment κ) : List Operand := m.held ++ m.world.host.captured.values

/-- There is a handle of the operand that was not dropped. -/
def Alive (m : Moment κ) (x : Operand) : Prop := x ∈ m.kept ∨ x ∈ m.arena.operands

def withArena (m : Moment κ) (a : Arena κ) : Moment κ := { m with world := m.world.withArena a }

inductive Step : Moment κ → Moment κ → Prop
  /-- Handles come and go: they are cloned and dropped, taken out of values, made for what is
  written in the active scope, or received from other contexts. The data of the host changes. -/
  | handles {m : Moment κ} (host : HostData) (identity : Nat) (held : List Operand)
    (h : ∀ x ∈ held ++ host.captured.values,
      m.Alive x ∨ x.owner ≠ m.world.context.id ∨ x.scope = m.arena.active) :
    Step m { m with world := { m.world with host, nextIdentity := identity }, held }
  | define {m : Moment κ} (id : String) {v : Value κ} (hv : v.KeepsOnly m.Alive) :
    Step m { m with
      world := m.world.withArena (m.arena.define id v)
      log := m.log ++ [⟨m.arena.active, id, v⟩] }
  /-- Opens a scope inside the active one. -/
  | derive {m : Moment κ} {env : Environment κ} {s : ScopeId} {a : Arena κ}
    (henv : env.KeepsOnly m.Alive) (h : m.arena.push m.arena.active env = .ok (s, a)) :
    Step m (m.withArena a)
  /-- Begins a call that opens a scope inside a live one and releases it in the end. -/
  | openScope {m : Moment κ} {parent s : ScopeId} {env : Environment κ} {a : Arena κ}
    (henv : env.KeepsOnly m.Alive) (h : m.arena.push parent env = .ok (s, a)) :
    Step m { m with
      world := m.world.withArena a
      pending := .release m.arena.size :: m.pending }
  | closeScope {m : Moment κ} {mark : Nat} {rest : List Pending}
    (h : m.pending = .release mark :: rest) :
    Step m { m with
      world := m.world.withArena (m.arena.release m.world.context.id m.kept mark)
      pending := rest }
  /-- Begins an evaluation in a live scope. -/
  | activate {m : Moment κ} {s : ScopeId} {a : Arena κ} (h : m.arena.activate s = .ok a) :
    Step m { m with
      world := m.world.withArena a
      pending := .restore m.arena.active :: m.pending }
  | restore {m : Moment κ} {s : ScopeId} {a : Arena κ} {rest : List Pending}
    (h : m.pending = .restore s :: rest) (ha : m.arena.activate s = .ok a) :
    Step m { m with world := m.world.withArena a, pending := rest }
  /-- Begins a call of a procedure, which the limit has to allow. -/
  | enter {m : Moment κ} (h : m.world.context.depth < m.world.context.maxDepth) :
    Step m { m with world := m.world.enter, pending := .leave :: m.pending }
  | leave {m : Moment κ} {rest : List Pending} (h : m.pending = .leave :: rest) :
    Step m { m with world := m.world.leave, pending := rest }

/-- `Run m ms m'`: the moments `ms`, of which `m` is the first and `m'` the last one, follow each
other by single steps. -/
inductive Run : Moment κ → List (Moment κ) → Moment κ → Prop
  | stop (m : Moment κ) : Run m [m] m
  | step {m n m' : Moment κ} {ms : List (Moment κ)} (h : Step m n) (rest : Run n ms m') :
    Run m (m :: ms) m'

/-- The context was just made, so that no operand of it exists. -/
def IsNew (m : Moment κ) : Prop :=
  ∃ id env maxDepth data, m.world.context = Context.new id env maxDepth data ∧
    (∀ x ∈ m.kept ++ env.operands, x.owner ≠ id) ∧ m.pending = [] ∧ m.log = []

def Reachable (m : Moment κ) : Prop :=
  ∃ (new : Moment κ) (ms : List (Moment κ)), new.IsNew ∧ new.Run ms m

end Moment

/-! ## The invariant -/

/-- The scopes that will be made active again are live. Each of them lies below the mark of every
release that comes before. -/
def Arena.Supports (a : Arena κ) : (limit : Nat) → List Pending → Prop
  | _, [] => True
  | limit, .release mark :: rest => mark ≤ limit ∧ a.Supports mark rest
  | limit, .restore s :: rest => a.isLive s = true ∧ s.index < limit ∧ a.Supports limit rest
  | limit, .leave :: rest => a.Supports limit rest

theorem Arena.Supports.mono {a b : Arena κ} {limit limit' : Nat} {pending : List Pending}
    (h : a.Supports limit pending) (hle : limit ≤ limit')
    (hlive : ∀ s, s.index < limit → a.isLive s = true → b.isLive s = true) :
    b.Supports limit' pending := by
  induction pending generalizing limit limit' with
  | nil => trivial
  | cons p rest ih =>
    cases p with
    | release mark =>
      obtain ⟨hmark, hrest⟩ := h
      refine ⟨Nat.le_trans hmark hle, ih hrest (Nat.le_refl _) fun s hs => ?_⟩
      exact hlive s (Nat.lt_of_lt_of_le hs hmark)
    | restore s =>
      obtain ⟨hs, hlt, hrest⟩ := h
      exact ⟨hlive s hlt hs, Nat.lt_of_lt_of_le hlt hle, ih hrest hle hlive⟩
    | leave => exact ih h hle hlive

namespace Moment

structure WellScoped (m : Moment κ) : Prop where
  arena : m.arena.WellFormed
  /-- Every operand of the context that is alive was written in a live scope. -/
  alive : ∀ x, m.Alive x → x.owner = m.world.context.id → m.arena.isLive x.scope = true
  pending : m.arena.Supports m.arena.size m.pending

namespace WellScoped

variable {m : Moment κ}

theorem of_isNew (h : m.IsNew) : m.WellScoped := by
  obtain ⟨id, env, maxDepth, data, hcontext, hforeign, hpending, -⟩ := h
  have harena : m.arena = .ofRoot env := by rw [Moment.arena, hcontext]; rfl
  have hid : m.world.context.id = id := by rw [hcontext]; rfl
  refine ⟨harena ▸ .ofRoot env, fun x hx howner => ?_, by rw [hpending]; trivial⟩
  have hx : x ∈ m.kept ++ env.operands := by
    rcases hx with hx | hx
    · exact List.mem_append_left _ hx
    · refine List.mem_append_right _ ?_
      rw [harena] at hx
      simpa [Arena.operands, Arena.ofRoot, Environment.operands] using hx
  exact absurd (howner.trans hid) (hforeign x hx)

/-- Nothing but the arena has changed, in which all scopes are still live, and nothing is kept that
was not alive. -/
theorem withArena (h : m.WellScoped) {a : Arena κ} (ha : a.WellFormed)
    (hsize : m.arena.size ≤ a.size) (hlive : ∀ s, m.arena.isLive s = true → a.isLive s = true)
    (hoperands : ∀ x ∈ a.operands, m.Alive x) : (m.withArena a).WellScoped where
  arena := ha
  alive := by
    intro x hx howner
    have hx : m.Alive x := by
      rcases hx with hx | hx
      · exact .inl hx
      · exact hoperands x hx
    exact hlive _ (h.alive x hx howner)
  pending := h.pending.mono hsize fun s _ hs => hlive s hs

theorem pushed (h : m.WellScoped) {parent : ScopeId} {env : Environment κ}
    (hparent : m.arena.isLive parent = true) (henv : env.KeepsOnly m.Alive) :
    (m.withArena (m.arena.pushed parent env)).WellScoped := by
  have hsize : m.arena.size ≤ (m.arena.pushed parent env).size := by simp
  refine h.withArena (h.arena.pushed hparent) hsize (fun s hs => Arena.isLive_pushed hs) ?_
  intro x hx
  rw [Arena.operands_pushed] at hx
  rcases List.mem_append.mp hx with hx | hx
  · exact .inr hx
  · exact henv x hx

theorem activated (h : m.WellScoped) {s : ScopeId} (hs : m.arena.isLive s = true) :
    (m.withArena { m.arena with active := s }).WellScoped :=
  h.withArena (h.arena.activate hs) (Nat.le_refl _) (fun _ ht => ht) fun _ hx => .inr hx

theorem defined (h : m.WellScoped) (id : String) {v : Value κ} (hv : v.KeepsOnly m.Alive) :
    (m.withArena (m.arena.define id v)).WellScoped := by
  refine h.withArena (h.arena.define id v) (Nat.le_of_eq Arena.size_define.symm)
    (fun s hs => Arena.isLive_define hs) fun x hx => ?_
  rcases Arena.mem_operands_define hx with hx | hx
  · exact hv x hx
  · exact .inr hx

/-- A release spares the active scope, the scopes of operands that are alive, and the scopes that
are to be made active again. -/
theorem released (h : m.WellScoped) {mark : Nat} {rest : List Pending}
    (hpending : m.pending = .release mark :: rest) :
    WellScoped { m with
      world := m.world.withArena (m.arena.release m.world.context.id m.kept mark)
      pending := rest } := by
  have hsupports := h.pending
  rw [hpending] at hsupports
  obtain ⟨hmark, hrest⟩ := hsupports
  obtain ⟨k, hmk, hk, hrelease, hwf, hlive⟩ :=
    h.arena.exists_released m.world.context.id m.kept hmark fun x hx =>
      h.alive x (List.mem_append.mp hx)
  rw [hrelease]
  refine ⟨hwf, fun x hx => hlive x (List.mem_append.mpr hx), ?_⟩
  have hsize : (m.arena.shrink k).size = k := Arena.size_shrink hk
  refine hrest.mono (hsize.symm ▸ hmk) fun s hlt hs => ?_
  exact Arena.isLive_shrink hs (Nat.lt_of_lt_of_le hlt hmk)

end WellScoped

variable {m m' n : Moment κ} {ms ns : List (Moment κ)}

theorem Step.wellScoped (h : Step m m') (hm : m.WellScoped) : m'.WellScoped := by
  cases h with
  | handles host identity held h =>
    refine ⟨hm.arena, fun x hx howner => ?_, hm.pending⟩
    -- A new handle is alive, foreign or bound to the active scope.
    rcases hx with hx | hx
    · rcases h x hx with halive | hforeign | hactive
      · exact hm.alive x halive howner
      · exact absurd howner hforeign
      · exact hactive ▸ hm.arena.active
    · exact hm.alive x (.inr hx) howner
  | define id hv =>
    obtain ⟨harena, halive, hpending⟩ := hm.defined id hv
    exact ⟨harena, halive, hpending⟩
  | derive henv h =>
    obtain ⟨hlive, -, rfl⟩ := Arena.push_cases h
    exact hm.pushed hlive henv
  | openScope henv h =>
    obtain ⟨hlive, -, rfl⟩ := Arena.push_cases h
    obtain ⟨harena, halive, -⟩ := hm.pushed hlive henv
    refine ⟨harena, halive, ?_, hm.pending.mono (Nat.le_refl _) fun s _ hs => ?_⟩
    · exact Nat.le_trans (Nat.le_succ _) (Nat.le_of_eq Arena.size_pushed.symm)
    · exact Arena.isLive_pushed hs
  | closeScope h => exact hm.released h
  | activate h =>
    obtain ⟨hlive, rfl⟩ := Arena.activate_cases h
    obtain ⟨harena, halive, hpending⟩ := hm.activated hlive
    exact ⟨harena, halive, hm.arena.active, Arena.index_lt_of_isLive hm.arena.active, hpending⟩
  | restore h ha =>
    obtain ⟨hlive, rfl⟩ := Arena.activate_cases ha
    obtain ⟨harena, halive, hpending⟩ := hm.activated hlive
    refine ⟨harena, halive, ?_⟩
    have hpending : Arena.Supports _ _ m.pending := hpending
    rw [h] at hpending
    exact hpending.2.2
  | enter h => exact ⟨hm.arena, hm.alive, hm.pending⟩
  | leave h =>
    have hpending := hm.pending
    rw [h] at hpending
    exact ⟨hm.arena, hm.alive, hpending⟩

theorem Step.id_eq (h : Step m m') : m'.world.context.id = m.world.context.id := by
  cases h <;> rfl

/-! ## Runs -/

theorem Run.first_mem (h : m.Run ms m') : m ∈ ms := by
  cases h <;> exact List.mem_cons_self

theorem Run.last_mem (h : m.Run ms m') : m' ∈ ms := by
  induction h with
  | stop m => exact List.mem_cons_self
  | step h rest ih => exact List.mem_cons_of_mem _ ih

theorem Run.trans (h : m.Run ms n) (h' : n.Run ns m') :
    ∃ ks, m.Run ks m' ∧ ∀ k ∈ ks, k ∈ ms ∨ k ∈ ns := by
  induction h with
  | stop m => exact ⟨ns, h', fun k hk => .inr hk⟩
  | @step m _ _ ms h rest ih =>
    obtain ⟨ks, hks, hmem⟩ := ih h'
    refine ⟨m :: ks, .step h hks, fun k hk => ?_⟩
    rcases List.mem_cons.mp hk with rfl | hk
    · exact .inl List.mem_cons_self
    · exact (hmem k hk).imp_left (List.mem_cons_of_mem m)

theorem Run.exists_until (h : m.Run ms m') (hn : n ∈ ms) :
    ∃ ns, m.Run ns n ∧ ∀ k ∈ ns, k ∈ ms := by
  induction h with
  | stop m =>
    rw [List.mem_singleton] at hn
    subst hn
    exact ⟨[n], .stop n, fun k hk => hk⟩
  | @step m _ _ ms h rest ih =>
    rcases List.mem_cons.mp hn with rfl | hn
    · exact ⟨[n], .stop n, fun k hk => List.mem_cons.mpr (.inl (List.mem_singleton.mp hk))⟩
    · obtain ⟨ns, hns, hsub⟩ := ih hn
      refine ⟨m :: ns, .step h hns, fun k hk => ?_⟩
      exact List.mem_cons.mpr ((List.mem_cons.mp hk).imp_right (hsub k))

/-- What holds at the first moment and is kept by each step holds at every moment. -/
theorem Run.forall_mem {P : Moment κ → Prop} (h : m.Run ms m') (hm : P m)
    (hstep : ∀ {n n'}, Step n n' → P n → P n') : ∀ n ∈ ms, P n := by
  induction h with
  | stop m =>
    intro n hn
    rw [List.mem_singleton] at hn
    exact hn ▸ hm
  | step h rest ih =>
    intro n hn
    rcases List.mem_cons.mp hn with rfl | hn
    · exact hm
    · exact ih (hstep h hm) n hn

theorem Run.wellScoped (h : m.Run ms m') (hm : m.WellScoped) : ∀ n ∈ ms, n.WellScoped :=
  h.forall_mem hm Step.wellScoped

theorem Run.id_eq (h : m.Run ms m') : ∀ n ∈ ms, n.world.context.id = m.world.context.id :=
  h.forall_mem rfl fun hstep hn => hstep.id_eq.trans hn

/-- In every moment that can be reached the arena is well-formed and no operand that is alive has
lost its scope. -/
theorem Reachable.wellScoped (h : m.Reachable) : m.WellScoped := by
  obtain ⟨new, ms, hnew, hrun⟩ := h
  exact hrun.wellScoped (.of_isNew hnew) m hrun.last_mem

theorem Reachable.later (h : m.Reachable) (hrun : m.Run ms m') : m'.Reachable := by
  obtain ⟨new, ns, hnew, hbefore⟩ := h
  obtain ⟨ks, hks, -⟩ := hbefore.trans hrun
  exact ⟨new, ks, hnew, hks⟩

end Moment

end Fexpr
