import Fexpr.Proofs.Eval.Lifetime

/-!
# What a release leaves

A call that opens a scope releases it in the end, together with the scopes that were opened since. A
release takes frames off the top until it comes to its mark or to a frame that has to stay. The
active scope is never the reason to stop, since it lies below the mark (`Moment.Reachable.below`).
So what stays on top is the scope of an operand that is alive (`release_exact`).

Which operands are alive depends on all that has happened since the scope was opened, other releases
included. It is enough that a number never names two frames: a frame that has an old number is an
old frame at its old place (`Moment.Run.getElem?_of_serial_lt`).
-/

namespace Fexpr

variable {κ : Type}

/-! ## Where a release stops -/

namespace Arena

variable {a : Arena κ} {owner mark n : Nat} {held : List Operand}

@[simp] theorem active_release (a : Arena κ) (owner : Nat) (held : List Operand) (mark : Nat) :
    (a.release owner held mark).active = a.active := by
  obtain ⟨k, -, -, hpop, -⟩ := exists_pop_eq owner held (a.size - mark) a
  rw [release, hpop]
  rfl

/-- A topmost frame that is active or pinned stays, with all frames below. -/
theorem pop_succ_eq_self {top : Frame κ} (htop : a.frames.back? = some top)
    (hstays : top.serial = a.active.serial ∨ a.isPinned owner held top.serial = true) :
    a.pop owner held (n + 1) = a := by
  rw [pop]
  simp only [htop]
  exact if_pos (by simpa using hstays)

theorem pop_succ_eq_shrink {top : Frame κ} (htop : a.frames.back? = some top)
    (hactive : top.serial ≠ a.active.serial)
    (hpinned : ¬ a.isPinned owner held top.serial = true) :
    a.pop owner held (n + 1) = (a.shrink (a.size - 1)).pop owner held n := by
  rw [pop]
  simp only [htop]
  rw [if_neg (by simp [hactive, hpinned]), pop_eq_shrink]

theorem exists_top (h : 0 < a.size) :
    ∃ top, a.frames.back? = some top ∧ a.frames[a.size - 1]? = some top := by
  have hlast : a.size - 1 < a.frames.size := by
    simp only [size] at h ⊢
    omega
  refine ⟨a.frames[a.size - 1], ?_, Array.getElem?_eq_getElem hlast⟩
  rw [Array.back?_eq_getElem?]
  exact Array.getElem?_eq_getElem hlast

/-- Popping goes all the way, or stops at a frame that is active or pinned by what is left. -/
theorem pop_stops (owner : Nat) (held : List Operand) (hn : n ≤ a.size) :
    (a.pop owner held n).size = a.size - n ∨
      ∃ top, (a.pop owner held n).frames.back? = some top ∧
        (top.serial = a.active.serial ∨
          (a.pop owner held n).isPinned owner held top.serial = true) := by
  induction n generalizing a with
  | zero => exact .inl rfl
  | succ n ih =>
    obtain ⟨top, htop, -⟩ := a.exists_top (by omega)
    by_cases hstays : top.serial = a.active.serial ∨ a.isPinned owner held top.serial = true
    · rw [pop_succ_eq_self htop hstays]
      exact .inr ⟨top, htop, hstays⟩
    · obtain ⟨hactive, hpinned⟩ := not_or.mp hstays
      have hsize : (a.shrink (a.size - 1)).size = a.size - 1 := size_shrink (Nat.sub_le _ _)
      have hrest := ih (a := a.shrink (a.size - 1)) (by omega)
      rw [hsize, Nat.sub_sub, Nat.add_comm 1 n] at hrest
      rw [pop_succ_eq_shrink htop hactive hpinned]
      exact hrest

/-- If the active scope lies below the mark, then a release comes down to the mark or stops at a
frame that is pinned. -/
theorem WellFormed.release_stops (h : a.WellFormed) (owner : Nat) (held : List Operand)
    (hmark : mark ≤ a.size) (hactive : a.active.index < mark) :
    (a.release owner held mark).size = mark ∨
      ∃ top, (a.release owner held mark).frames.back? = some top ∧
        (a.release owner held mark).isPinned owner held top.serial = true := by
  obtain ⟨k, hmk, hk, hrelease, -⟩ := exists_release_eq owner held hmark
  have hsize : (a.release owner held mark).size = k := by rw [hrelease, size_shrink hk]
  rcases pop_stops owner held (Nat.sub_le a.size mark) with hall | ⟨top, htop, hstay⟩
  · left
    rw [release, hall]
    omega
  · by_cases hfull : k = mark
    · exact .inl (hsize.trans hfull)
    · right
      refine ⟨top, htop, hstay.resolve_left fun hserial => ?_⟩
      -- The frame on top lies above the mark, and the active one does not.
      have htop' : (a.release owner held mark).frames[k - 1]? = some top := by
        rw [← hsize, size, ← Array.back?_eq_getElem?]
        exact htop
      rw [hrelease] at htop'
      obtain ⟨g, hg, hgs⟩ := isLive_iff.mp h.active
      have hplace := h.index_eq (getElem?_of_shrink htop').2 hg (hserial.trans hgs.symm)
      omega

end Arena

/-! ## The active scope lies below the marks -/

/-- The scope lies below the marks of the releases that come while it is active, and so do the
scopes that are made active again before the others. -/
def ScopeId.Below : ScopeId → List Pending → Prop
  | _, [] => True
  | s, .release mark :: rest => s.index < mark ∧ s.Below rest
  | _, .restore t :: rest => t.Below rest
  | s, .leave :: rest => s.Below rest

namespace Moment

variable {m m' n last : Moment κ} {ms : List (Moment κ)}

theorem Step.below (h : Step m m') (hm : m.WellScoped) (hbelow : m.arena.active.Below m.pending) :
    m'.arena.active.Below m'.pending := by
  cases h with
  | handles host identity held h => exact hbelow
  | define id hv => exact hbelow
  | derive henv h =>
    obtain ⟨-, -, rfl⟩ := Arena.push_cases h
    exact hbelow
  | openScope henv h =>
    obtain ⟨-, -, rfl⟩ := Arena.push_cases h
    exact ⟨Arena.index_lt_of_isLive hm.arena.active, hbelow⟩
  | closeScope h =>
    rw [h] at hbelow
    show ScopeId.Below (Arena.active (Arena.release _ _ _ _)) _
    rw [Arena.active_release]
    exact hbelow.2
  | activate h =>
    obtain ⟨-, rfl⟩ := Arena.activate_cases h
    exact hbelow
  | restore h ha =>
    obtain ⟨-, rfl⟩ := Arena.activate_cases ha
    rw [h] at hbelow
    exact hbelow
  | enter h => exact hbelow
  | leave h =>
    rw [h] at hbelow
    exact hbelow

theorem Reachable.below (h : m.Reachable) : m.arena.active.Below m.pending := by
  obtain ⟨new, ms, hnew, hrun⟩ := h
  have hscoped : new.WellScoped := .of_isNew hnew
  obtain ⟨-, -, -, -, -, -, hpending, -⟩ := hnew
  have hnew : new.arena.active.Below new.pending := by
    rw [hpending]
    trivial
  have hboth := hrun.forall_mem (P := fun n => n.WellScoped ∧ n.arena.active.Below n.pending)
    ⟨hscoped, hnew⟩ fun hstep hn => ⟨hstep.wellScoped hn.1, hstep.below hn.1 hn.2⟩
  exact (hboth m hrun.last_mem).2

/-! ## Old numbers, old frames -/

/-- A step gives out new numbers only. -/
theorem Step.getElem?_of_serial_lt (h : Step m m') {j : Nat} {g : Frame κ}
    (hg : m'.arena.frames[j]? = some g) (hold : g.serial < m.arena.nextSerial) :
    ∃ f, m.arena.frames[j]? = some f ∧ f.serial = g.serial := by
  rcases h.arena_cases with ⟨-, ⟨s, ha⟩ | ⟨parent, env, ha⟩ | ⟨k, hk, ha⟩⟩ | ⟨id, v, -, ha⟩ <;>
    rw [ha] at hg
  · exact ⟨g, hg, rfl⟩
  · rw [Arena.getElem?_pushed] at hg
    split at hg
    · cases hg
      exact absurd hold (Nat.lt_irrefl _)
    · exact ⟨g, hg, rfl⟩
  · exact ⟨g, (Arena.getElem?_of_shrink hg).2, rfl⟩
  · obtain ⟨f, hf, hserial, -⟩ := Arena.exists_of_getElem?_define hg
    exact ⟨f, hf, hserial.symm⟩

/-- A frame whose number was given out before the run was there before it, at the same place. -/
theorem Run.getElem?_of_serial_lt (h : m.Run ms m') {j : Nat} {g : Frame κ}
    (hg : m'.arena.frames[j]? = some g) (hold : g.serial < m.arena.nextSerial) :
    ∃ f, m.arena.frames[j]? = some f ∧ f.serial = g.serial := by
  induction h with
  | stop m => exact ⟨g, hg, rfl⟩
  | step hstep rest ih =>
    obtain ⟨f, hf, hfg⟩ := ih hg (Nat.lt_of_lt_of_le hold hstep.nextSerial_le)
    obtain ⟨e, he, hef⟩ := hstep.getElem?_of_serial_lt hf (hfg ▸ hold)
    exact ⟨e, he, hef.trans hfg⟩

/-- A scope that is live after the run is not one whose frame went in the run. -/
theorem Run.serial_ne (h : m.Run ms m') (hm : m.WellScoped) {s t : ScopeId}
    (hs : m.arena.isLive s = true) (hgone : ¬ m'.arena.isLive s = true)
    (ht : m'.arena.isLive t = true) : t.serial ≠ s.serial := by
  intro hserial
  obtain ⟨f, hf, hfs⟩ := Arena.isLive_iff.mp hs
  obtain ⟨g, hg, hgt⟩ := Arena.isLive_iff.mp ht
  have hold : g.serial < m.arena.nextSerial := by
    have := hm.arena.serial_lt hf
    omega
  obtain ⟨e, he, heg⟩ := h.getElem?_of_serial_lt hg hold
  have hplace : t.index = s.index := hm.arena.index_eq he hf (by omega)
  refine hgone (Arena.isLive_iff.mpr ⟨g, ?_, hgt.trans hserial⟩)
  rw [← hplace]
  exact hg

theorem Run.exists_from (h : m.Run ms m') (hn : n ∈ ms) : ∃ ns, n.Run ns m' := by
  induction h with
  | stop m =>
    rw [List.mem_singleton] at hn
    exact ⟨[m], hn ▸ .stop m⟩
  | step hstep rest ih =>
    rcases List.mem_cons.mp hn with rfl | hn
    · exact ⟨_, .step hstep rest⟩
    · exact ih hn

/-! ## Calls that open a scope -/

/-- A call that opens a scope begins at `m`. With the scope open it goes through the moments `ms`,
whatever happens there, until at `last` nothing is left to do but to release the scope, which leads
to `m'`. -/
structure ScopedCall (m : Moment κ) (ms : List (Moment κ)) (last m' : Moment κ) : Prop where
  opens : ∃ parent env s a, env.KeepsOnly m.Alive ∧ m.arena.push parent env = .ok (s, a) ∧
    Run { m with
      world := m.world.withArena a
      pending := .release m.arena.size :: m.pending } ms last
  pending : last.pending = .release m.arena.size :: m.pending
  closes : m' = { last with
    world := last.world.withArena
      (last.arena.release last.world.context.id last.kept m.arena.size)
    pending := m.pending }

/-- What the call has released by its end, at `m'`. -/
structure ReleasesExactly (m : Moment κ) (ms : List (Moment κ)) (last m' : Moment κ) : Prop where
  size_le : m.arena.size ≤ m'.arena.size
  /-- Nothing stays without a reason: if there is a frame more, then the topmost one is the scope of
  an operand that is alive. -/
  pinned : m'.arena.size = m.arena.size ∨ ∃ x, m'.Alive x ∧ x.owner = m'.world.context.id ∧
    m'.arena.isLive x.scope = true ∧ x.scope.index + 1 = m'.arena.size
  /-- No frame that went, at the end or in between, is the scope of an operand that is alive, or the
  active scope. -/
  gone : ∀ n ∈ ms, ∀ s, n.arena.isLive s = true → ¬ m'.arena.isLive s = true →
    (∀ x, m'.Alive x → x.owner = m'.world.context.id → x.scope.serial ≠ s.serial) ∧
      m'.arena.active.serial ≠ s.serial
  /-- The release takes frames off the top and does nothing else. -/
  cut : m'.arena = last.arena.shrink m'.arena.size
  active : m'.arena.active = last.arena.active ∧ m'.arena.active.index < m.arena.size
  below : ∀ i < m.arena.size, m'.arena.frames[i]? = last.arena.frames[i]?

namespace ScopedCall

/-- A call is a run. -/
theorem exists_run (h : m.ScopedCall ms last m') :
    (∃ first, Step m first ∧ first.Run ms last) ∧ Step last m' := by
  obtain ⟨⟨parent, env, s, a, henv, hpush, hrun⟩, hpending, rfl⟩ := h
  exact ⟨⟨_, .openScope henv hpush, hrun⟩, .closeScope hpending⟩

/-- The topmost frame that stays above the mark is the scope of an operand that is alive. -/
theorem exists_pinning (h : m.ScopedCall ms last m') (hlast : last.Reachable)
    (hm' : m'.WellScoped) (hmark : m.arena.size ≤ last.arena.size)
    (hactive : last.arena.active.index < m.arena.size) :
    m'.arena.size = m.arena.size ∨ ∃ x, m'.Alive x ∧ x.owner = m'.world.context.id ∧
      m'.arena.isLive x.scope = true ∧ x.scope.index + 1 = m'.arena.size := by
  have hrelease : m'.arena =
      last.arena.release last.world.context.id last.kept m.arena.size := by rw [h.closes]; rfl
  have hid : m'.world.context.id = last.world.context.id := by rw [h.closes]; rfl
  have hkept : m'.kept = last.kept := by rw [h.closes]; rfl
  have hstops := hlast.wellScoped.arena.release_stops last.world.context.id last.kept hmark hactive
  rw [← hrelease] at hstops
  refine hstops.imp_right ?_
  rintro ⟨top, htop, hpinned⟩
  obtain ⟨x, hx, howner, hserial⟩ := Arena.isPinned_iff.mp hpinned
  have halive : m'.Alive x := by
    rw [← hkept] at hx
    exact List.mem_append.mp hx
  have hlive := hm'.alive x halive (howner.trans hid.symm)
  -- The operand is alive, so its scope is live, and the number tells that it is the topmost one.
  obtain ⟨f, hf, hfx⟩ := Arena.isLive_iff.mp hlive
  rw [Array.back?_eq_getElem?] at htop
  have hplace : x.scope.index = m'.arena.frames.size - 1 :=
    hm'.arena.index_eq hf htop (hfx.trans hserial)
  have hlt : x.scope.index < m'.arena.size := Arena.index_lt_of_isLive hlive
  refine ⟨x, halive, howner.trans hid.symm, hlive, ?_⟩
  simp only [Arena.size] at hlt ⊢
  omega

theorem releasesExactly (h : m.ScopedCall ms last m') (hm : m.Reachable) :
    m.ReleasesExactly ms last m' := by
  obtain ⟨⟨first, hopen, hrun⟩, hclose⟩ := h.exists_run
  have hms := hrun.wellScoped (hopen.wellScoped hm.wellScoped)
  have hlast : last.Reachable := hm.later (.step hopen hrun)
  have hm' : m'.WellScoped := hclose.wellScoped hlast.wellScoped
  have hmark : m.arena.size ≤ last.arena.size := by
    have hsupports := hlast.wellScoped.pending
    rw [h.pending] at hsupports
    exact hsupports.1
  have hactive : last.arena.active.index < m.arena.size := by
    have hbelow := hlast.below
    rw [h.pending] at hbelow
    exact hbelow.1
  have hrelease : m'.arena =
      last.arena.release last.world.context.id last.kept m.arena.size := by rw [h.closes]; rfl
  obtain ⟨k, hmk, hk, hshrink, -⟩ :=
    Arena.exists_release_eq last.world.context.id last.kept hmark
  have hcut : m'.arena = last.arena.shrink k := hrelease.trans hshrink
  have hsize : m'.arena.size = k := by rw [hcut, Arena.size_shrink hk]
  have hsame : m'.arena.active = last.arena.active := by rw [hcut]; rfl
  refine ⟨by omega, h.exists_pinning hlast hm' hmark hactive, fun n hn s hs hgone => ?_,
    by rw [hsize]; exact hcut, ⟨hsame, hsame ▸ hactive⟩, fun i hi => ?_⟩
  · obtain ⟨ns, hns⟩ := hrun.exists_from hn
    obtain ⟨ks, hks, -⟩ := hns.trans (.step hclose (.stop m'))
    refine ⟨fun x hx howner => ?_, ?_⟩
    · exact hks.serial_ne (hms n hn) hs hgone (hm'.alive x hx howner)
    · exact hks.serial_ne (hms n hn) hs hgone hm'.arena.active
  · rw [hcut, Arena.getElem?_shrink, if_pos (by omega)]

end ScopedCall

/-! ## Calls of the evaluator -/

/-- What is done with a scope open, and replies, is such a call. -/
theorem WellScoped.exists_scopedCall {S : Set ScopeId} (hm : m.WellScoped) {parent : ScopeId}
    (hparent : m.arena.isLive parent = true) {env : Environment κ} (henv : env.KeepsOnly m.Alive)
    {body : ScopeId → World κ → Outcome κ}
    (hbody : ∀ n : Moment κ, n.WellScoped → n.held = m.held →
      n.arena = m.arena.pushed parent env → n.Leads S n.held n.pending (body m.arena.next n.world))
    {r : Reply κ} {w : World κ} (h : m.world.withChild parent env body = .reply r w) :
    ∃ ms last log, m.ScopedCall ms last ⟨w, Reply.operands r ++ m.held, m.pending, log⟩ := by
  have hpush : m.arena.push parent env = .ok (m.arena.next, m.arena.pushed parent env) :=
    Arena.push_eq_ok hparent
  have hopen : Step m { m with
      world := m.world.withArena (m.arena.pushed parent env)
      pending := .release m.arena.size :: m.pending } := .openScope henv hpush
  rw [World.withChild] at h
  simp only [hpush] at h
  cases hu : body m.arena.next (m.world.withArena (m.arena.pushed parent env)) with
  | abort a =>
    rw [hu] at h
    cases h
  | reply r' u =>
    rw [hu] at h
    cases h
    obtain ⟨log, hreaches⟩ := (hbody _ (hopen.wellScoped hm) rfl rfl).reply r u hu
    have hend := hreaches.wellScoped (hopen.wellScoped hm)
    have hid : u.context.id = m.world.context.id := hreaches.id_eq
    have hrelease := hend.release_eq fun x hx howner =>
      Arena.index_lt_of_isLive (hm.alive x (.inl (List.mem_append_left _ hx)) (howner.trans hid))
    obtain ⟨ms, hrun, -⟩ := hreaches
    refine ⟨ms, _, log, ⟨parent, env, _, _, henv, hpush, hrun⟩, rfl, ?_⟩
    rw [← hrelease]

end Moment

/-- A release is exact. Whatever happens from the opening of a scope to its release, and whatever is
replied, no frame that was there before is lost or changed by the release, and either no other frame
is left or the topmost one is the scope of an operand that is alive. No frame that went is the scope
of an operand that is alive, and the active scope is not among those that went. Every call that
replies is of this kind: what a procedure does with a scope derived from the active one, and the
evaluation of an operand with an environment layered over its scope. -/
theorem release_exact {m : Moment κ} (hm : m.Reachable) :
    (∀ ms last m', m.ScopedCall ms last m' → m.ReleasesExactly ms last m') ∧
    ∀ (S : Set ScopeId) (host : Host κ) (xs : List Operand) (env : Environment κ),
      host.UsesOnly S → xs ⊆ m.held → env.KeepsOnly (· ∈ xs) →
      (∀ bound (body : ScopeId → Action κ) r w,
        (∀ s, (body s).UsesOnly xs (insert s {t | m.arena.isLive t = true ∨ t ∈ S})) →
        (m.world.withChild m.arena.active env fun s u =>
          (body s).run (Form.evalWithin host bound) u) = .reply r w →
        ∃ ms last log, m.ScopedCall ms last ⟨w, Reply.operands r ++ m.held, m.pending, log⟩) ∧
      ∀ x ∈ xs, ∀ r w, m.world.forceAt host x (.layered env) = .reply r w →
        ∃ ms last log, m.ScopedCall ms last ⟨w, Reply.operands r ++ m.held, m.pending, log⟩ := by
  have hscoped := hm.wellScoped
  refine ⟨fun ms last m' h => h.releasesExactly hm, fun S host xs env hhost hxs henv => ?_⟩
  have halive : ∀ x ∈ xs, m.Alive x := fun x hx => .inl (List.mem_append_left _ (hxs hx))
  have henv : env.KeepsOnly m.Alive := fun x hx => halive x (henv x hx)
  refine ⟨fun bound body r w hbody h => ?_, fun x hx r w h => ?_⟩
  · refine hscoped.exists_scopedCall (S := S) hscoped.arena.active henv
      (fun n hn hheld harena => ?_) h
    have hgrants : n.Grants S xs {t | m.arena.isLive t = true ∨ t ∈ S} :=
      ⟨hn, hheld ▸ hxs, fun s hs => hs.imp_left fun hs => harena ▸ Arena.isLive_pushed hs⟩
    have hopened := hgrants.opened (harena ▸ Arena.isLive_next)
    exact (hbody m.arena.next).run_leads (Form.evalWithin_leads hhost bound)
      (Form.evalWithin_brackets host bound) hopened
  · have howner : x.owner = m.world.context.id := by
      by_contra hforeign
      have habort : m.world.forceAt host x (.layered env) = .abort (.foreignOperand x.text) :=
        if_pos hforeign
      rw [habort] at h
      cases h
    have hlayered : m.world.forceAt host x (.layered env) =
        m.world.withChild x.scope env fun s u => u.evalIn (m.world.evaluator host) x s :=
      if_neg (not_not_intro howner)
    rw [hlayered] at h
    refine hscoped.exists_scopedCall (S := S) (hscoped.alive x (halive x hx) howner) henv
      (fun n hn _ harena => ?_) h
    refine hn.evalIn_leads (Form.evalWithin_leads hhost _) x fun _ => .inl ?_
    rw [harena]
    exact Arena.isLive_next

/-- A scope in the outermost one, in which `q` is bound to the operand. -/
def Frame.quoting : Frame Builtin :=
  ⟨Bindings.ofList [("q", .userData 0 (.operand .sample))], some .root, 2⟩

namespace Moment

/-- A call opens a scope, in which the operand is written, and another scope is opened that binds
the operand. -/
theorem sample_bound : ∃ ms,
    (sample [.sample 41 1] .root 2 [] [.release 1]).Run ms
      (sample [.sample 41 1, .quoting] .root 3 [.sample] [.release 1]) := by
  have hderive : Step (sample [.sample 41 1] .root 2 [.sample] [.release 1])
      (sample [.sample 41 1, .quoting] .root 3 [.sample] [.release 1]) := by
    have hpush : (sample [.sample 41 1] .root 2 [.sample] [.release 1]).arena.push .root
        Frame.quoting.env = .ok (⟨2, 2⟩, (sample [.sample 41 1, .quoting] .root 3 [] []).arena) :=
      rfl
    refine .derive (fun x hx => ?_) hpush
    rw [List.mem_singleton.mp hx]
    exact .inl List.mem_cons_self
  obtain ⟨ms, hwritten⟩ := sample_written
  obtain ⟨ns, hbound, -⟩ := hwritten.trans (.step hderive (.stop _))
  exact ⟨ns, hbound⟩

end Moment

/-- If the operand is still held in the end, then the upper scope goes and the scope of the operand
stays. If it is bound in the upper scope only, then its last handle goes with that scope, and both
scopes go. -/
theorem release_exact_bound :
    (Moment.sample [] .root 1 [] []).Reachable ∧ ∃ ms last ms' last',
      (Moment.sample [] .root 1 [] []).ScopedCall ms last
        (.sample [.sample 41 1] .root 3 [.sample] []) ∧
      (Moment.sample [] .root 1 [] []).ReleasesExactly ms last
        (.sample [.sample 41 1] .root 3 [.sample] []) ∧
      (Moment.sample [] .root 1 [] []).ScopedCall ms' last' (.sample [] .root 3 [] []) ∧
      (Moment.sample [] .root 1 [] []).ReleasesExactly ms' last' (.sample [] .root 3 [] []) := by
  have hreachable : (Moment.sample [] .root 1 [] []).Reachable :=
    ⟨_, _, Moment.sample_isNew, .stop _⟩
  have hpush : (Moment.sample [] .root 1 [] []).arena.push .root (Frame.sample 41 1).env =
      .ok (⟨1, 1⟩, (Moment.sample [.sample 41 1] .root 2 [] []).arena) := rfl
  have henv : Environment.KeepsOnly (Moment.sample [] .root 1 [] []).Alive
      (Frame.sample 41 1).env := Environment.KeepsOnly.empty.insert (List.forall_mem_nil _)
  obtain ⟨ms, hrun⟩ := Moment.sample_bound
  have hdrop : Moment.Step (.sample [.sample 41 1, .quoting] .root 3 [.sample] [.release 1])
      (.sample [.sample 41 1, .quoting] .root 3 [] [.release 1]) :=
    .handles .fresh 0 [] (List.forall_mem_nil _)
  obtain ⟨ms', hrun', -⟩ := hrun.trans (.step hdrop (.stop _))
  have hcall : (Moment.sample [] .root 1 [] []).ScopedCall ms _
      (.sample [.sample 41 1] .root 3 [.sample] []) :=
    ⟨⟨_, _, _, _, henv, hpush, hrun⟩, rfl, rfl⟩
  have hcall' : (Moment.sample [] .root 1 [] []).ScopedCall ms' _ (.sample [] .root 3 [] []) :=
    ⟨⟨_, _, _, _, henv, hpush, hrun'⟩, rfl, rfl⟩
  have hexact := (release_exact hreachable).1
  exact ⟨hreachable, ms, _, ms', _, hcall, hexact _ _ _ hcall, hcall', hexact _ _ _ hcall'⟩

end Fexpr
