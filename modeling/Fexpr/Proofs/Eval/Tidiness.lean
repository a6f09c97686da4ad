import Fexpr.Proofs.Eval.Bracketing
import Fexpr.Proofs.Eval.Trace
import Fexpr.Proofs.Library.Handles

/-!
# Scopes that stay

A call that opens a scope releases it in the end, and with it the scopes that were opened meanwhile,
down to the first one that is pinned. What is pinned at that time stays. No later release comes back
to it, so it stays even when the last handle that pinned it is gone (`scopes_outlive_handles`).

An evaluation leaves no scope behind if and only if nothing is pinned at the end of any such call
that is not inside of another one (`scopes_stay_iff_pinned`). What stays inside is released by the
calls around.
-/

namespace Fexpr

variable {κ : Type}

/-! ## Releases -/

namespace Arena

variable {a : Arena κ} {owner mark n : Nat} {held : List Operand}

/-- Of the scopes from `mark` on none is pinned by what is held, or bound in itself or below. What
is bound in the scopes above it does not count. -/
def Unpinned (a : Arena κ) (owner : Nat) (held : List Operand) (mark : Nat) : Prop :=
  ∀ (j : Nat) (f : Frame κ), mark ≤ j → a.frames[j]? = some f →
    (a.shrink (j + 1)).isPinned owner held f.serial = false

/-- Popping goes all the way if and only if no frame on the way is pinned when it is the topmost. -/
theorem size_pop_eq_iff (owner : Nat) (held : List Operand) (hn : n ≤ a.size)
    (hactive : ∀ j f, a.size ≤ j + n → a.frames[j]? = some f → f.serial ≠ a.active.serial) :
    (a.pop owner held n).size = a.size - n ↔ a.Unpinned owner held (a.size - n) := by
  induction n generalizing a with
  | zero =>
    refine ⟨fun _ j f hj hf => ?_, fun _ => rfl⟩
    have : j < a.size := (Array.getElem?_eq_some_iff.mp hf).1
    omega
  | succ n ih =>
    have hlast : a.size - 1 < a.frames.size := by simp only [size] at hn ⊢; omega
    obtain ⟨top, htop⟩ : ∃ top, a.frames[a.size - 1]? = some top :=
      ⟨_, Array.getElem?_eq_getElem hlast⟩
    have hback : a.frames.back? = some top := by rw [Array.back?_eq_getElem?]; exact htop
    have hfree : top.serial ≠ a.active.serial := hactive _ top (by omega) htop
    have hall : a.shrink (a.size - 1 + 1) = a := by
      rw [Nat.sub_add_cancel (by omega), shrink_size]
    rw [pop]
    simp only [hback]
    by_cases hpin : a.isPinned owner held top.serial = true
    -- The topmost frame stays, and no frame below it is looked at.
    · rw [if_pos (by simp [hpin])]
      refine ⟨fun h => by omega, fun h => ?_⟩
      have htidy := h (a.size - 1) top (by omega) htop
      rw [hall, hpin] at htidy
      cases htidy
    · rw [if_neg (by simp [hfree, hpin]), pop_eq_shrink]
      have hsize : (a.shrink (a.size - 1)).size = a.size - 1 := size_shrink (Nat.sub_le _ _)
      have hbelow := ih (a := a.shrink (a.size - 1)) (by omega) fun j f hj hf =>
        hactive j f (by omega) (getElem?_of_shrink hf).2
      have hmark : a.size - 1 - n = a.size - (n + 1) := by omega
      rw [hsize, hmark] at hbelow
      -- The frames on the way are those below the topmost, and the topmost, which is free.
      refine hbelow.trans ⟨fun h j f hj hf => ?_, fun h j f hj hf => ?_⟩
      · rcases Nat.lt_or_ge j (a.size - 1) with hlt | hge
        · have hpinned := h j f hj (by rw [getElem?_shrink, if_pos hlt, hf])
          rwa [shrink_shrink (by omega)] at hpinned
        · have hj : j = a.size - 1 := by
            have : j < a.size := (Array.getElem?_eq_some_iff.mp hf).1
            omega
          subst hj
          cases hf.symm.trans htop
          rw [hall]
          exact Bool.eq_false_iff.mpr hpin
      · obtain ⟨hlt, hf⟩ := getElem?_of_shrink hf
        rw [shrink_shrink (by omega)]
        exact h j f hj hf

namespace WellFormed

/-- A release comes down to its mark if and only if nothing is pinned above. -/
theorem size_release_eq_iff (h : a.WellFormed) (hmark : mark ≤ a.size)
    (hactive : a.active.index < mark) :
    (a.release owner held mark).size = mark ↔ a.Unpinned owner held mark := by
  have hback : a.size - (a.size - mark) = mark := by omega
  have hpop := size_pop_eq_iff owner held (Nat.sub_le a.size mark)
    fun j f hj hf hserial => by
      obtain ⟨g, hg, hgs⟩ := isLive_iff.mp h.active
      have := h.index_eq hf hg (hserial.trans hgs.symm)
      omega
  rwa [hback] at hpop

theorem release (h : a.WellFormed) (owner : Nat) (held : List Operand) (mark : Nat) :
    (a.release owner held mark).WellFormed := by
  obtain ⟨k, -, -, hpop, hgone⟩ := exists_pop_eq owner held (a.size - mark) a
  obtain ⟨f, hf, hserial⟩ := isLive_iff.mp h.active
  rw [Arena.release, hpop]
  exact h.shrink (Nat.lt_of_not_le fun hle => (hgone _ f hle hf).1 hserial)

end WellFormed

end Arena

theorem Stage.Step.wellFormed {st st' : Stage κ} (h : Step st st')
    (hst : st.world.context.arena.WellFormed) : st'.world.context.arena.WellFormed := by
  cases h with
  | hostData | enter | leave => exact hst
  | define id v => exact hst.define id v
  | derive h | openScope h =>
    obtain ⟨hlive, -, rfl⟩ := Arena.push_cases h
    exact hst.pushed hlive
  | closeScope held mark => exact hst.release _ held mark
  | activate h | restore h =>
    obtain ⟨hlive, rfl⟩ := Arena.activate_cases h
    exact hst.activate hlive

theorem Traced.Proceeds.wellFormed {st : Stage κ} {t : Traced κ} (h : t.Proceeds st)
    (hst : st.world.context.arena.WellFormed) {r : Reply κ} {w : World κ}
    (hr : t.outcome = .reply r w) : w.context.arena.WellFormed :=
  (h.reply r w hr).keeps Stage.Step.wellFormed hst

/-! ## What stays -/

/-- None of the calls in progress is going to release a scope. -/
def Pending.Unscoped (pending : List Pending) : Prop := ∀ mark, .release mark ∉ pending

def Pending.isRelease : Pending → Bool
  | release _ => true
  | _ => false

theorem Pending.Unscoped.cons {p : Pending} {pending : List Pending} (h : Unscoped pending)
    (hp : p.isRelease = false) : Unscoped (p :: pending) := by
  intro mark hmark
  rcases List.mem_cons.mp hmark with rfl | hmark
  · cases hp
  · exact h mark hmark

/-- If a call is seen that releases its scope, and is inside of no other such call, then nothing is
pinned of what it releases. -/
def Sight.Tidy (s : Sight κ) : Prop :=
  ∀ r mark rest, s.event = .ends r → s.pending = .release mark :: rest → Pending.Unscoped rest →
    s.world.context.arena.Unpinned s.world.context.id (s.world.heldOperands r) mark

/-- If a procedure is seen to open a scope that it does not release, then some call in progress will
do so. -/
def Sight.DerivesInside (s : Sight κ) : Prop :=
  ∀ env next, s.event = .acts (.derive env next) → ¬ Pending.Unscoped s.pending

def Event.isDerive : Event κ → Bool
  | acts (.derive _ _) => true
  | _ => false

theorem Sight.tidy_of_isEnd {s : Sight κ} (h : s.event.isEnd = false) : s.Tidy := by
  intro r mark rest hevent
  rw [hevent] at h
  cases h

theorem Sight.derivesInside_of_isDerive {s : Sight κ} (h : s.event.isDerive = false) :
    s.DerivesInside := by
  intro env next hevent
  rw [hevent] at h
  cases h

namespace Traced

def Tidy (t : Traced κ) : Prop := ∀ s ∈ t.sights, s.Tidy

def DerivesInside (t : Traced κ) : Prop := ∀ s ∈ t.sights, s.DerivesInside

/-- Nothing that is seen inside of a scope that is going to be released makes a difference. -/
theorem Proceeds.inside {st : Stage κ} {t : Traced κ} (h : t.Proceeds st)
    (hscoped : ¬ Pending.Unscoped st.pending) : t.Tidy ∧ t.DerivesInside := by
  have hscoped : ∀ s ∈ t.sights, ¬ Pending.Unscoped s.around := fun s hs hun =>
    hscoped fun mark hmark => hun mark ((h.around s hs).subset hmark)
  constructor
  · intro s hs r mark rest hevent hpending hun
    refine absurd hun ?_
    have haround : s.around = rest := by rw [Sight.around, hevent, hpending]; rfl
    exact haround ▸ hscoped s hs
  · intro s hs env next hevent
    have haround : s.around = s.pending := by rw [Sight.around, hevent]
    exact haround ▸ hscoped s hs

/-- The evaluation, which begins in `w`, leaves as many scopes as there were, and exactly as many if
and only if all is tidy and no scope was opened to stay. -/
structure Balances (w : World κ) (t : Traced κ) : Prop where
  size_le : ∀ r w', t.outcome = .reply r w' → w.context.arena.size ≤ w'.context.arena.size
  size_eq_iff : ∀ r w', t.outcome = .reply r w' →
    (w'.context.arena.size = w.context.arena.size ↔ t.Tidy ∧ t.DerivesInside)

namespace Balances

variable {w u : World κ} {t : Traced κ}

theorem ofReply (r : Reply κ) (hsize : u.context.arena.size = w.context.arena.size) :
    (ofOutcome (.reply r u)).Balances w where
  size_le := by
    intro r' w' h
    cases h
    exact Nat.le_of_eq hsize.symm
  size_eq_iff := by
    intro r' w' h
    cases h
    exact ⟨fun _ => ⟨List.forall_mem_nil _, List.forall_mem_nil _⟩, fun _ => hsize⟩

theorem ofAborted {a : Abort} (h : t.outcome = .abort a) : t.Balances w := by
  constructor <;>
  · intro r w' hr
    cases h.symm.trans hr

theorem ofAbort (a : Abort) : (ofOutcome (.abort a)).Balances w := ofAborted rfl

theorem see (h : t.Balances w) {event : Event κ} {st : Stage κ} (htidy : Sight.Tidy ⟨st, event⟩)
    (hinside : Sight.DerivesInside ⟨st, event⟩) : (see event st t).Balances w where
  size_le := h.size_le
  size_eq_iff := by
    intro r w' hr
    refine (h.size_eq_iff r w' hr).trans (and_congr ?_ ?_)
    · exact (List.forall_mem_cons.trans (and_iff_right htidy)).symm
    · exact (List.forall_mem_cons.trans (and_iff_right hinside)).symm

/-- Nothing happens to the number of scopes before. -/
theorem after (h : t.Balances u) (hsize : u.context.arena.size = w.context.arena.size) :
    t.Balances w where
  size_le := fun r w' hr => hsize ▸ h.size_le r w' hr
  size_eq_iff := fun r w' hr => hsize ▸ h.size_eq_iff r w' hr

theorem andThen {next : Reply κ → World κ → Traced κ} (h : t.Balances w)
    (hnext : ∀ r u, t.outcome = .reply r u → (next r u).Balances u) :
    (t.andThen next).Balances w := by
  unfold Traced.andThen
  split
  next r u hu =>
    have hle := h.size_le r u hu
    have hiff := h.size_eq_iff r u hu
    obtain ⟨hle', hiff'⟩ := hnext r u hu
    refine ⟨fun r' w' hr => Nat.le_trans hle (hle' r' w' hr), fun r' w' hr => ?_⟩
    have hrest := hiff' r' w' hr
    -- The number of scopes goes up only, so it comes back to `w` if and only if it never went up.
    have hboth : w'.context.arena.size = w.context.arena.size ↔
        u.context.arena.size = w.context.arena.size ∧
          w'.context.arena.size = u.context.arena.size := by
      have := hle' r' w' hr
      omega
    rw [hboth, hiff, hrest]
    simp only [Tidy, DerivesInside, List.forall_mem_append]
    exact and_and_and_comm
  · exact ofAborted rfl

theorem answered {α : Type} {answer : Except ScopeId α} {next : α → Traced κ}
    (hnext : ∀ a, answer = .ok a → (next a).Balances w) : (answered answer next).Balances w := by
  cases answer with
  | error s => exact ofAbort (.notLive s)
  | ok a => exact hnext a rfl

theorem resume {α : Type} {answer : Except Stop α} {next : α → Traced κ}
    (hnext : ∀ a, (next a).Balances w) : (w.resume answer next).Balances w := by
  cases answer with
  | error stop =>
    cases stop with
    | error e => exact ofReply (.error e) rfl
    | abort a => exact ofAbort a
  | ok a => exact hnext a

/-- The end of a call that releases its scope: what is pinned stays. -/
theorem release {pending : List Pending} (hpending : Pending.Unscoped pending)
    (hinside : t.Tidy ∧ t.DerivesInside)
    (hend : ∀ r u, t.outcome = .reply r u → u.context.arena.WellFormed ∧
      w.context.arena.size ≤ u.context.arena.size ∧
      u.context.arena.active.index < w.context.arena.size) :
    (t.ending (.release w.context.arena.size) pending).Balances w := by
  unfold Traced.ending Traced.andThen
  split
  next r u hu =>
    obtain ⟨hwf, hmark, hactive⟩ := hend r u hu
    refine ⟨fun r' w' hr => ?_, fun r' w' hr => ?_⟩
    · cases hr
      obtain ⟨k, hk, hle, hrelease, -⟩ :=
        Arena.exists_release_eq u.context.id (u.heldOperands r) hmark
      change w.context.arena.size ≤ (u.context.arena.release _ _ _).size
      rw [hrelease, Arena.size_shrink hle]
      exact hk
    · cases hr
      -- Whatever is seen of `t` is tidy, so the end alone decides.
      refine (hwf.size_release_eq_iff hmark hactive).trans ⟨fun hunpinned => ⟨?_, ?_⟩, fun h => ?_⟩
      · refine List.forall_mem_append.mpr ⟨hinside.1, List.forall_mem_singleton.mpr ?_⟩
        intro r' mark rest hevent hrest _
        cases hevent
        cases hrest
        exact hunpinned
      · refine List.forall_mem_append.mpr ⟨hinside.2, List.forall_mem_singleton.mpr ?_⟩
        exact Sight.derivesInside_of_isDerive rfl
      · have hlast := (List.forall_mem_append.mp h.1).2 _ List.mem_cons_self
        exact hlast r _ pending rfl rfl hpending
  · exact ofAborted rfl

/-- The end of a call that releases no scope. -/
theorem ending {p : Pending} {pending : List Pending} (hp : p.isRelease = false)
    (h : t.Balances w) : (t.ending p pending).Balances w := by
  refine andThen h fun r u _ => see ?_ ?_ (Sight.derivesInside_of_isDerive rfl)
  · cases p with
    | release mark => cases hp
    | leave => exact ofReply r rfl
    | restore s =>
      rw [Pending.finish]
      cases ha : u.context.arena.activate s with
      | error dead => exact ofAbort (.notLive dead)
      | ok arena =>
        obtain ⟨-, rfl⟩ := Arena.activate_cases ha
        exact ofReply r rfl
  · intro r' mark rest _ hpending
    rw [(List.cons.inj hpending).1] at hp
    cases hp

end Balances

end Traced

/-! ## Evaluations -/

def Tracer.Balances (tracer : Tracer κ) : Prop :=
  ∀ pending source form (w : World κ), Pending.Unscoped pending → w.context.arena.WellFormed →
    (tracer pending source form w).Balances w

section Runs

open Traced

variable {tracer : Tracer κ} {eval : Evaluator κ} {w : World κ} {pending : List Pending}

/-- A scope that is opened at the outermost level stays, with all that was opened meanwhile, as far
as it is pinned in the end. -/
theorem World.traceChild_balances (hw : w.context.arena.WellFormed)
    (hpending : Pending.Unscoped pending) (parent : ScopeId) (env : Environment κ)
    {body : List Pending → ScopeId → World κ → Traced κ}
    (hbody : ∀ pending s u, (body pending s u).Proceeds ⟨u, pending⟩)
    (hbrackets : ∀ pending s u, (body pending s u).outcome.Brackets u) :
    (w.traceChild pending parent env body).Balances w := by
  refine .answered fun opened hpush => ?_
  obtain ⟨child, arena⟩ := opened
  obtain ⟨hparent, -, rfl⟩ := Arena.push_cases hpush
  have hproceeds := hbody (.release w.context.arena.size :: pending) child
    (w.withArena (w.context.arena.pushed parent env))
  have hbracketed := hbrackets (.release w.context.arena.size :: pending) child
    (w.withArena (w.context.arena.pushed parent env))
  have hinside := hproceeds.inside fun hun => hun _ List.mem_cons_self
  refine .release hpending hinside fun r u hu => ?_
  obtain ⟨-, hactive, -, -, -, hframes⟩ := hbracketed r u hu
  refine ⟨hproceeds.wellFormed (hw.pushed hparent) hu, ?_, ?_⟩
  · exact ((Arena.ExtendedBy.pushed _ parent env).trans hframes).size_le
  · rw [hactive]
    exact Arena.index_lt_of_isLive hw.active

theorem World.traceIn_balances (h : tracer.Balances) (hw : w.context.arena.WellFormed)
    (hpending : Pending.Unscoped pending) (x : Operand) (s : ScopeId) :
    (w.traceIn tracer pending x s).Balances w := by
  unfold World.traceIn
  dsimp only
  split
  · exact .ofAbort _
  · refine .answered fun arena ha => ?_
    obtain ⟨hlive, rfl⟩ := Arena.activate_cases ha
    refine .ending rfl (.after (h _ _ _ _ (hpending.cons rfl) ?_) rfl)
    exact hw.activate hlive

theorem World.traceForce_balances (h : tracer.Balances) (hproceeds : tracer.Proceeds)
    (htraces : tracer.Traces eval) (hbrackets : eval.Brackets) (hw : w.context.arena.WellFormed)
    (hpending : Pending.Unscoped pending) (x : Operand) (place : Place κ) :
    (w.traceForce tracer pending x place).Balances w := by
  cases place with
  | own => exact World.traceIn_balances h hw hpending x x.scope
  | layered env =>
    rw [World.traceForce]
    split
    · exact .ofAbort _
    · refine World.traceChild_balances hw hpending x.scope env
        (fun pending' s u => u.traceIn_proceeds hproceeds pending' x s) fun pending' s u => ?_
      rw [u.traceIn_outcome htraces]
      exact u.evalIn_brackets hbrackets x s
  | scope s => exact World.traceIn_balances h hw hpending x s

/-- What is seen of an action, unless it opens a scope to stay, is as it should be. -/
theorem Traced.Balances.seeAction {t : Traced κ} (h : t.Balances w) {a : Action κ}
    {st : Stage κ} (ha : (Event.acts a).isDerive = false) :
    (Traced.see (.acts a) st t).Balances w :=
  .see h (Sight.tidy_of_isEnd rfl) (Sight.derivesInside_of_isDerive ha)

theorem Action.trace_balances (h : tracer.Balances) (hproceeds : tracer.Proceeds)
    (htraces : tracer.Traces eval) (hbrackets : eval.Brackets) (a : Action κ)
    (hw : w.context.arena.WellFormed) (hpending : Pending.Unscoped pending) :
    (a.trace tracer pending w).Balances w := by
  induction a generalizing w with
  | done v | fail e =>
    rw [Action.trace]
    exact .seeAction (.ofReply _ rfl) rfl
  | force x place next ih =>
    rw [Action.trace]
    refine .seeAction ?_ rfl
    refine .andThen (World.traceForce_balances h hproceeds htraces hbrackets hw hpending x place) ?_
    exact fun r u hu => ih r ((w.traceForce_proceeds hproceeds pending x place).wellFormed hw hu)
  | lookup id next ih | lookupFrom s id next ih | lookupLocal id next ih
  | lookupOuter id next ih =>
    rw [Action.trace]
    exact .seeAction (.answered fun v _ => ih _ hw) rfl
  | define id v next ih =>
    rw [Action.trace]
    refine .seeAction ?_ rfl
    exact (ih (w := w.withArena _) (hw.define id v)).after Arena.size_define
  | derive env next ih =>
    rw [Action.trace]
    -- The scope stays, and the sight tells so: neither side of the equivalence holds.
    cases hpush : w.context.arena.push w.context.arena.active env with
    | error s => exact .ofAborted rfl
    | ok opened =>
      obtain ⟨hlive, -, harena⟩ := Arena.push_cases hpush
      have hrest := ih opened.1 (w := w.withArena opened.2) (harena ▸ hw.pushed hlive)
      have hgrows : ∀ r w', (Action.trace tracer pending (next opened.1)
          (w.withArena opened.2)).outcome = .reply r w' →
          w.context.arena.size < w'.context.arena.size := by
        intro r w' hr
        have hle : opened.2.size ≤ w'.context.arena.size := hrest.size_le r w' hr
        rw [harena, Arena.size_pushed] at hle
        exact hle
      refine ⟨fun r w' hr => Nat.le_of_lt (hgrows r w' hr), fun r w' hr => ?_⟩
      refine ⟨fun hsize => absurd hsize (Nat.ne_of_gt (hgrows r w' hr)), fun hclean => ?_⟩
      exact absurd hpending (hclean.2 _ List.mem_cons_self env next rfl)
  | withDerived env body next ihbody ihnext =>
    rw [Action.trace]
    refine .seeAction ?_ rfl
    have hbody : ∀ pending s u,
        ((body s).trace tracer pending u).Proceeds ⟨u, pending⟩ := fun pending s u =>
      (body s).trace_proceeds hproceeds pending u
    refine .andThen (World.traceChild_balances hw hpending _ env hbody fun pending s u => ?_) ?_
    · rw [(body s).trace_outcome htraces]
      exact Action.run_brackets hbrackets (body s) u
    · intro r u hu
      exact ihnext _ r ((w.traceChild_proceeds pending _ env hbody).wellFormed hw hu)
  | activeScope next ih | scopeCount next ih | maxDepth next ih | hasData next ih =>
    rw [Action.trace]
    exact .seeAction (ih _ hw) rfl
  | tick next ih | fresh next ih =>
    rw [Action.trace]
    refine .seeAction (.after (ih _ ?_) ?_) rfl
    · exact hw
    · rfl
  | emit line next ih | capture name x next ih =>
    rw [Action.trace]
    refine .seeAction (.after (ih ?_) ?_) rfl
    · exact hw
    · rfl

namespace Form

variable {host : Host κ}

theorem traceDispatch_balances (h : tracer.Balances) (hproceeds : tracer.Proceeds)
    (htraces : tracer.Traces eval) (hbrackets : eval.Brackets) (source : Source) (operator : Name)
    (items : List Item) (span : Text.Span) (hw : w.context.arena.WellFormed)
    (hpending : Pending.Unscoped pending) :
    (traceDispatch host tracer pending source operator items span w).Balances w :=
  .resume fun a => .andThen (a.trace_balances h hproceeds htraces hbrackets hw hpending)
    fun _ _ _ => .ofReply _ rfl

theorem traceStep_balances (h : tracer.Balances) (hproceeds : tracer.Proceeds)
    (htraces : tracer.Traces eval) (hbrackets : eval.Brackets) :
    (traceStep host tracer).Balances := by
  intro pending source form w hpending hw
  refine .see ?_ (Sight.tidy_of_isEnd rfl) (Sight.derivesInside_of_isDerive rfl)
  cases form with
  | atom a => exact .resume fun v => .ofReply _ rfl
  | call operator items span =>
    dsimp only
    split
    · exact .see (.ofReply _ rfl) (Sight.tidy_of_isEnd rfl) (Sight.derivesInside_of_isDerive rfl)
    · refine .ending rfl (.after (traceDispatch_balances h hproceeds htraces hbrackets source
        operator items span ?_ (hpending.cons rfl)) ?_)
      · exact hw
      · rfl

theorem traceWithin_balances (host : Host κ) (bound : Nat) : (traceWithin host bound).Balances := by
  induction bound with
  | zero => exact fun _ _ _ _ _ _ => .ofAbort _
  | succ bound ih =>
    exact traceStep_balances ih (traceWithin_proceeds host bound) (traceWithin_outcome host bound)
      (evalWithin_brackets host bound)

end Form

theorem World.trace_balances (host : Host κ) (hw : w.context.arena.WellFormed)
    (hpending : Pending.Unscoped pending) (p : Program) :
    (w.trace host pending p).Balances w := by
  unfold World.trace
  split
  · exact .ofAbort _
  · exact Form.traceWithin_balances host _ pending _ _ w hpending hw

end Runs

/-! ## Procedures that release their scopes -/

/-- Scopes that the action opens, whatever it is answered, are released by itself. Inside of a scope
that is going to be released it may open any. -/
def Action.DerivesInside : Action κ → Prop
  | done _ => True
  | fail _ => True
  | force _ _ next => ∀ r, DerivesInside (next r)
  | lookup _ next => ∀ v, DerivesInside (next v)
  | lookupFrom _ _ next => ∀ v, DerivesInside (next v)
  | lookupLocal _ next => ∀ v, DerivesInside (next v)
  | lookupOuter _ next => ∀ v, DerivesInside (next v)
  | define _ _ next => DerivesInside next
  | derive _ _ => False
  | withDerived _ _ next => ∀ s r, DerivesInside (next s r)
  | activeScope next => ∀ s, DerivesInside (next s)
  | scopeCount next => ∀ n, DerivesInside (next n)
  | maxDepth next => ∀ n, DerivesInside (next n)
  | hasData next => ∀ b, DerivesInside (next b)
  | tick next => ∀ n, DerivesInside (next n)
  | emit _ next => DerivesInside next
  | capture _ _ next => DerivesInside next
  | fresh next => ∀ i, DerivesInside (next i)

def Host.DerivesInside (host : Host κ) : Prop := ∀ p call, (host p call).DerivesInside

namespace Traced.DerivesInside

variable {t : Traced κ}

theorem ofOutcome (o : Outcome κ) : (ofOutcome o).DerivesInside := List.forall_mem_nil _

theorem see (h : t.DerivesInside) {event : Event κ} {st : Stage κ}
    (hevent : event.isDerive = false) : (see event st t).DerivesInside :=
  List.forall_mem_cons.mpr ⟨Sight.derivesInside_of_isDerive hevent, h⟩

theorem andThen {next : Reply κ → World κ → Traced κ} (h : t.DerivesInside)
    (hnext : ∀ r w, (next r w).DerivesInside) : (t.andThen next).DerivesInside := by
  unfold Traced.andThen
  split
  next r w _ => exact List.forall_mem_append.mpr ⟨h, hnext r w⟩
  · exact h

theorem answered {α : Type} {answer : Except ScopeId α} {next : α → Traced κ}
    (hnext : ∀ a, (next a).DerivesInside) : (answered answer next).DerivesInside := by
  cases answer with
  | error s => exact ofOutcome _
  | ok a => exact hnext a

theorem resume {α : Type} (w : World κ) {answer : Except Stop α} {next : α → Traced κ}
    (hnext : ∀ a, answer = .ok a → (next a).DerivesInside) :
    (w.resume answer next).DerivesInside := by
  cases answer with
  | error stop => cases stop <;> exact ofOutcome _
  | ok a => exact hnext a rfl

theorem ending (h : t.DerivesInside) (p : Pending) (pending : List Pending) :
    (t.ending p pending).DerivesInside :=
  andThen h fun _ _ => see (ofOutcome _) rfl

end Traced.DerivesInside

def Tracer.DerivesInside (tracer : Tracer κ) : Prop :=
  ∀ pending source form w, (tracer pending source form w).DerivesInside

section Inside

open Traced

variable {tracer : Tracer κ} {host : Host κ}

theorem World.traceIn_derivesInside (h : tracer.DerivesInside) (w : World κ)
    (pending : List Pending) (x : Operand) (s : ScopeId) :
    (w.traceIn tracer pending x s).DerivesInside := by
  unfold World.traceIn
  dsimp only
  split
  · exact .ofOutcome _
  · exact .answered fun arena => .ending (h _ _ _ _) _ _

theorem World.traceForce_derivesInside (h : tracer.DerivesInside) (w : World κ)
    (pending : List Pending) (x : Operand) (place : Place κ) :
    (w.traceForce tracer pending x place).DerivesInside := by
  cases place with
  | own => exact w.traceIn_derivesInside h pending x x.scope
  | layered env =>
    rw [World.traceForce]
    split
    · exact .ofOutcome _
    · exact .answered fun opened =>
        .ending (World.traceIn_derivesInside h _ _ x opened.1) _ _
  | scope s => exact w.traceIn_derivesInside h pending x s

theorem Action.DerivesInside.trace (h : tracer.DerivesInside) (hproceeds : tracer.Proceeds)
    {a : Action κ} (ha : a.DerivesInside) (pending : List Pending) (w : World κ) :
    (a.trace tracer pending w).DerivesInside := by
  induction a generalizing w with
  | done v | fail e => exact .see (.ofOutcome _) rfl
  | force x place next ih =>
    rw [Action.trace]
    refine .see (.andThen (w.traceForce_derivesInside h pending x place) fun r u => ?_) rfl
    exact ih r (ha r) u
  | lookup id next ih | lookupFrom s id next ih | lookupLocal id next ih
  | lookupOuter id next ih =>
    rw [Action.trace]
    exact .see (.answered fun v => ih _ (ha _) w) rfl
  | derive env next ih => exact ha.elim
  | withDerived env body next ihbody ihnext =>
    rw [Action.trace]
    refine .see (.andThen (.answered fun opened => .ending ?_ _ _) fun r u => ?_) rfl
    · have hbody := (body opened.1).trace_proceeds hproceeds
        (.release w.context.arena.size :: pending) (w.withArena opened.2)
      exact (hbody.inside fun hun => hun _ List.mem_cons_self).2
    · exact ihnext _ r (ha _ r) u
  | activeScope next ih | scopeCount next ih | maxDepth next ih | hasData next ih | tick next ih
  | fresh next ih =>
    rw [Action.trace]
    exact .see (ih _ (ha _) _) rfl
  | define id v next ih | emit line next ih | capture name x next ih =>
    rw [Action.trace]
    exact .see (ih ha _) rfl

namespace Form

theorem traceStep_derivesInside (hhost : host.DerivesInside) (h : tracer.DerivesInside)
    (hproceeds : tracer.Proceeds) : (traceStep host tracer).DerivesInside := by
  intro pending source form w
  refine .see ?_ rfl
  cases form with
  | atom a => exact .resume w fun v _ => .ofOutcome _
  | call operator items span =>
    dsimp only
    split
    · exact .see (.ofOutcome _) rfl
    · refine .ending (.resume _ fun a ha => .andThen ?_ fun r u => .ofOutcome _) _ _
      obtain ⟨p, given, rfl⟩ := exists_of_request ha
      exact (hhost p given).trace h hproceeds _ _

theorem traceWithin_derivesInside (hhost : host.DerivesInside) (bound : Nat) :
    (traceWithin host bound).DerivesInside := by
  induction bound with
  | zero => exact fun _ _ _ _ => .ofOutcome _
  | succ bound ih => exact traceStep_derivesInside hhost ih (traceWithin_proceeds host bound)

end Form

/-- If the procedures release their scopes, then no scope is opened to stay in any evaluation. -/
theorem Host.DerivesInside.trace (hhost : host.DerivesInside) (w : World κ) (pending : List Pending)
    (p : Program) : (w.trace host pending p).DerivesInside := by
  unfold World.trace
  split
  · exact .ofOutcome _
  · exact Form.traceWithin_derivesInside hhost _ _ _ _ w

end Inside

/-! ## Results -/

/-- No scope is lost by an evaluation, and it leaves none behind if and only if nothing is pinned,
of what they release, at the end of the calls that open a scope and are inside of no other such
call. This holds if no scope is opened to stay, except inside of one that is released, in which case
the calls around release it. Whether handles are alive before or afterwards does not matter. -/
theorem scopes_stay_iff_pinned (host : Host κ) {m : Moment κ} (hm : m.Reachable) (p : Program)
    (hinside : (m.world.trace host [] p).DerivesInside) {r : Reply κ} {w : World κ}
    (h : m.world.run host p = .reply r w) :
    m.arena.size ≤ w.context.arena.size ∧
      (w.context.arena.size = m.arena.size ↔ (m.world.trace host [] p).Tidy) := by
  have hunscoped : Pending.Unscoped [] := fun _ => List.not_mem_nil
  obtain ⟨hle, hiff⟩ := World.trace_balances host hm.wellScoped.arena hunscoped p
  rw [← World.trace_outcome host m.world [] p] at h
  refine ⟨hle r w h, (hiff r w h).trans ?_⟩
  exact and_iff_left hinside

/-! ### A pinned scope -/

/-- Of the library only the procedures for sequences, layers and quoted operands. -/
def Library.quoting : Host Builtin := fun p =>
  match p.code with
  | .block | .layer | .quote => host p
  | _ => fun _ => .done .nil

theorem Library.quoting_derivesInside : Library.quoting.DerivesInside := by
  have hreply : ∀ r : Reply Builtin, (Action.ofReply r).DerivesInside := fun r => by
    cases r <;> trivial
  have hsequence : ∀ (xs : List Operand) (last : Value Builtin),
      (inSequence last xs).DerivesInside := by
    intro xs
    induction xs with
    | nil => exact fun last => trivial
    | cons x xs ih =>
      intro last r
      cases r with
      | ok v => exact ih v
      | error e => trivial
  rintro ⟨i, code, captured⟩ ⟨operands, options⟩
  cases code with
  | block => cases operands <;> exact hsequence _ .nil
  | layer =>
    rcases operands with _ | ⟨x, _ | ⟨y, xs⟩⟩
    · trivial
    · exact fun r => hreply r
    · trivial
  | quote =>
    rcases operands with _ | ⟨x, _ | ⟨y, xs⟩⟩
    · trivial
    · exact fun i => trivial
    · trivial
  | _ => trivial

theorem Library.quoting_usesOnly : Host.UsesOnly Set.univ Library.quoting := by
  rintro ⟨i, code, captured⟩ call
  cases code with
  | block | layer | quote => exact host_usesOnly _ call
  | _ => exact List.forall_mem_nil _

def World.quoting : World Builtin :=
  let env := Bindings.ofList [("BLOCK", .procedure ⟨0, .block, []⟩),
    ("LAYER", .procedure ⟨1, .layer, []⟩), ("QUOTE", .procedure ⟨2, .quote, []⟩)]
  ⟨Context.new 0 env 8 .absent, .fresh, 3⟩

/-- A new context with these procedures alone. -/
def Moment.quoting : Moment Builtin := ⟨World.quoting, [], [], []⟩

theorem Moment.quoting_not_alive (x : Operand) : ¬ Moment.quoting.Alive x := by
  have hnone : (Moment.quoting.kept ++ Moment.quoting.arena.operands).isEmpty = true := by
    decide +kernel
  intro hx
  have hx : x ∈ Moment.quoting.kept ++ Moment.quoting.arena.operands := List.mem_append.mpr hx
  rw [List.isEmpty_iff.mp hnone] at hx
  cases hx

theorem Moment.quoting_reachable : Moment.quoting.Reachable := by
  refine ⟨quoting, [quoting], ⟨0, _, 8, .absent, rfl, fun x hx => ?_, rfl, rfl⟩, .stop _⟩
  rcases List.mem_append.mp hx with hx | hx
  · exact absurd (.inl hx) (quoting_not_alive x)
  · have henv : x ∈ Moment.quoting.arena.operands := Arena.mem_operands_iff.mpr ⟨0, _, rfl, hx⟩
    exact absurd (.inr henv) (quoting_not_alive x)

/-- The handles that are left when an evaluation has ended with a reply. -/
def World.handles (w : World κ) (r : Reply κ) : List Operand :=
  Reply.operands r ++ w.host.captured.values ++ w.context.arena.operands

/-- How many scopes an evaluation leaves, and how many handles. -/
def Outcome.census : Outcome κ → Option (Nat × Nat)
  | reply r w => some (w.context.arena.size, (w.handles r).length)
  | abort _ => none

theorem Moment.exists_quoting_run {text : String} {scopes handles : Nat}
    (h : (Program.compile ⟨"script", text⟩).toOption.bind
      (fun p => (Moment.quoting.world.run Library.quoting p).census) = some (scopes, handles)) :
    ∃ p r w, Program.compile ⟨"script", text⟩ = .ok p ∧
      quoting.world.run Library.quoting p = .reply r w ∧ w.context.arena.size = scopes ∧
      (w.handles r).length = handles := by
  obtain ⟨p, hp, h⟩ := Option.bind_eq_some_iff.mp h
  have hp := Program.compile_eq_ok_of_toOption hp
  cases hrun : Moment.quoting.world.run Library.quoting p with
  | abort a =>
    rw [hrun] at h
    cases h
  | reply r w =>
    rw [hrun] at h
    obtain ⟨hscopes, hhandles⟩ := Prod.mk.inj (Option.some.inj h)
    exact ⟨p, r, w, hp, hrun, hscopes, hhandles⟩

/-- A quoted operand is answered by one operand of a sequence and dropped before the next one. Its
scope stays. -/
theorem Moment.exists_quoted_run : ∃ p r w,
    Program.compile ⟨"script", "(BLOCK (LAYER (QUOTE 1)) 1)"⟩ = .ok p ∧
      quoting.world.run Library.quoting p = .reply r w ∧ w.context.arena.size = 2 ∧
      (w.handles r).length = 0 :=
  exists_quoting_run (by decide +kernel)

/-- Scopes can stay although no handle is alive any more. It is not the case that every evaluation
of a script, in a context without handles, with procedures that release the scopes they open, leaves
the number of scopes as it was as soon as the handles are gone that it has made. -/
theorem scopes_outlive_handles :
    ¬ ∀ (host : Host Builtin) (m : Moment Builtin) (source : Source) (p : Program)
        (r : Reply Builtin) (w : World Builtin),
      host.DerivesInside → host.UsesOnly Set.univ → m.Reachable → (∀ x, ¬ m.Alive x) →
      Program.compile source = .ok p → m.world.run host p = .reply r w →
      (∀ x, ¬ Moment.Alive { m with world := w, held := Reply.operands r } x) →
      w.context.arena.size = m.arena.size := by
  intro h
  obtain ⟨p, r, w, hp, hrun, hscopes, hhandles⟩ := Moment.exists_quoted_run
  have hgone : ∀ x, ¬ Moment.Alive ⟨w, Reply.operands r, [], []⟩ x := by
    intro x hx
    have hx : x ∈ w.handles r := List.mem_append.mpr hx
    rw [List.eq_nil_of_length_eq_zero hhandles] at hx
    cases hx
  have hsize := h Library.quoting Moment.quoting _ p r w Library.quoting_derivesInside
    Library.quoting_usesOnly Moment.quoting_reachable Moment.quoting_not_alive hp hrun hgone
  rw [hscopes] at hsize
  cases hsize

/-- The scope of a layer stays if its value is quoted, and does not if it is a number. -/
theorem scopes_stay_iff_pinned_layer :
    ∃ p q, Program.compile ⟨"script", "(BLOCK (LAYER (QUOTE 1)) 1)"⟩ = .ok p ∧
      Program.compile ⟨"script", "(BLOCK (LAYER 1) 1)"⟩ = .ok q ∧
      ¬ (World.quoting.trace Library.quoting [] p).Tidy ∧
      (World.quoting.trace Library.quoting [] q).Tidy := by
  obtain ⟨p, r, w, hp, hrun, hscopes, -⟩ := Moment.exists_quoted_run
  have hnumber : (Program.compile ⟨"script", "(BLOCK (LAYER 1) 1)"⟩).toOption.bind
      (fun p => (Moment.quoting.world.run Library.quoting p).census) = some (1, 0) := by
    decide +kernel
  obtain ⟨q, r', w', hq, hrun', hscopes', -⟩ := Moment.exists_quoting_run hnumber
  have hp' := (scopes_stay_iff_pinned Library.quoting Moment.quoting_reachable p
    (Library.quoting_derivesInside.trace _ [] p) hrun).2
  have hq' := (scopes_stay_iff_pinned Library.quoting Moment.quoting_reachable q
    (Library.quoting_derivesInside.trace _ [] q) hrun').2
  refine ⟨p, q, hp, hq, fun htidy => ?_, hq'.mp hscopes'⟩
  have hsize := hp'.mpr htidy
  rw [hscopes] at hsize
  cases hsize

end Fexpr
