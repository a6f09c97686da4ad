import Fexpr.Proofs.Eval.Release
import Fexpr.Proofs.Eval.Tidiness

/-!
# Who forces an operand

An operand is evaluated in the scope it was written in, or in one layered over that. So it makes no
difference which scope is active when a procedure forces it: the reply is the same, and so is all
that happens on the way, in the same order. Afterwards the scope is active again that was active
before, and all else is the same (`force_ignores_caller`).

The scope to come back to is noted among what is in progress, and nothing that is evaluated looks
there (`Form.traceWithin_ignoresPending`). It also is in the way of a release, but it lies below the
mark of every scope that is opened meanwhile (`Arena.WellFormed.release_activating`).
-/

namespace Fexpr

variable {κ : Type}

/-! ## What is in progress is not looked at -/

namespace Traced

/-- What is seen, without what is in progress around it. -/
def happenings (t : Traced κ) : List (Event κ × World κ) := t.sights.map fun s => (s.event, s.world)

/-- The same happens, in the same order, and with the same outcome. -/
structure Agrees (t t' : Traced κ) : Prop where
  happenings : t'.happenings = t.happenings
  outcome : t'.outcome = t.outcome

@[simp] theorem happenings_see (event : Event κ) (st : Stage κ) (t : Traced κ) :
    (see event st t).happenings = (event, st.world) :: t.happenings := rfl

theorem happenings_andThen_reply {t : Traced κ} {r : Reply κ} {w : World κ}
    (h : t.outcome = .reply r w) (next : Reply κ → World κ → Traced κ) :
    (t.andThen next).happenings = t.happenings ++ (next r w).happenings := by
  unfold andThen
  rw [h]
  exact List.map_append

theorem happenings_andThen_abort {t : Traced κ} {a : Abort} (h : t.outcome = .abort a)
    (next : Reply κ → World κ → Traced κ) : (t.andThen next).happenings = t.happenings := by
  unfold andThen
  rw [h]
  rfl

theorem happenings_ending_reply {t : Traced κ} {r : Reply κ} {w : World κ}
    (h : t.outcome = .reply r w) (p : Pending) (pending : List Pending) :
    (t.ending p pending).happenings = t.happenings ++ [(.ends r, w)] :=
  happenings_andThen_reply h _

theorem happenings_ending_abort {t : Traced κ} {a : Abort} (h : t.outcome = .abort a) (p : Pending)
    (pending : List Pending) : (t.ending p pending).happenings = t.happenings :=
  happenings_andThen_abort h _

namespace Agrees

variable {t t' : Traced κ}

theorem refl (t : Traced κ) : t.Agrees t := ⟨rfl, rfl⟩

theorem see (h : t.Agrees t') (event : Event κ) (w : World κ) (pending pending' : List Pending) :
    (see event ⟨w, pending⟩ t).Agrees (Traced.see event ⟨w, pending'⟩ t') := by
  refine ⟨?_, h.outcome⟩
  rw [happenings_see, happenings_see, h.happenings]

theorem andThen {next next' : Reply κ → World κ → Traced κ} (h : t.Agrees t')
    (hnext : ∀ r w, (next r w).Agrees (next' r w)) :
    (t.andThen next).Agrees (t'.andThen next') := by
  have houtcome : (t'.andThen next').outcome = (t.andThen next).outcome := by
    rw [outcome_andThen, outcome_andThen, h.outcome]
    exact congrArg _ (funext fun r => funext fun w => (hnext r w).outcome)
  refine ⟨?_, houtcome⟩
  cases ho : t.outcome with
  | reply r w =>
    rw [happenings_andThen_reply ho, happenings_andThen_reply (h.outcome.trans ho), h.happenings,
      (hnext r w).happenings]
  | abort a =>
    rw [happenings_andThen_abort ho, happenings_andThen_abort (h.outcome.trans ho), h.happenings]

theorem answered {α : Type} {answer : Except ScopeId α} {next next' : α → Traced κ}
    (hnext : ∀ a, (next a).Agrees (next' a)) :
    (answered answer next).Agrees (Traced.answered answer next') := by
  cases answer with
  | error s => exact .refl _
  | ok a => exact hnext a

theorem resume {α : Type} (w : World κ) {answer : Except Stop α} {next next' : α → Traced κ}
    (hnext : ∀ a, (next a).Agrees (next' a)) :
    (w.resume answer next).Agrees (w.resume answer next') := by
  cases answer with
  | error stop => cases stop <;> exact .refl _
  | ok a => exact hnext a

theorem ending (h : t.Agrees t') (p : Pending) (pending pending' : List Pending) :
    (t.ending p pending).Agrees (t'.ending p pending') :=
  h.andThen fun r w => .see (.refl _) (.ends r) w _ _

end Agrees

end Traced

/-- What is in progress makes no difference to the evaluation. -/
def Tracer.IgnoresPending (tracer : Tracer κ) : Prop :=
  ∀ pending pending' source form w,
    (tracer pending source form w).Agrees (tracer pending' source form w)

section Pendings

variable {tracer : Tracer κ}

theorem World.traceChild_agrees (w : World κ) (pending pending' : List Pending) (parent : ScopeId)
    (env : Environment κ) {body : List Pending → ScopeId → World κ → Traced κ}
    (hbody : ∀ pending pending' s u, (body pending s u).Agrees (body pending' s u)) :
    (w.traceChild pending parent env body).Agrees (w.traceChild pending' parent env body) :=
  .answered fun opened => .ending (hbody _ _ opened.1 _) _ _ _

theorem World.traceIn_agrees (h : tracer.IgnoresPending) (w : World κ)
    (pending pending' : List Pending) (x : Operand) (s : ScopeId) :
    (w.traceIn tracer pending x s).Agrees (w.traceIn tracer pending' x s) := by
  unfold World.traceIn
  dsimp only
  split
  · exact .refl _
  · exact .answered fun arena => .ending (h _ _ _ _ _) _ _ _

theorem World.traceForce_agrees (h : tracer.IgnoresPending) (w : World κ)
    (pending pending' : List Pending) (x : Operand) (place : Place κ) :
    (w.traceForce tracer pending x place).Agrees (w.traceForce tracer pending' x place) := by
  cases place with
  | own => exact w.traceIn_agrees h pending pending' x x.scope
  | layered env =>
    rw [World.traceForce, World.traceForce]
    split
    · exact .refl _
    · exact w.traceChild_agrees pending pending' x.scope env fun ps ps' s u =>
        u.traceIn_agrees h ps ps' x s
  | scope s => exact w.traceIn_agrees h pending pending' x s

theorem Action.trace_agrees (h : tracer.IgnoresPending) (a : Action κ)
    (pending pending' : List Pending) (w : World κ) :
    (a.trace tracer pending w).Agrees (a.trace tracer pending' w) := by
  induction a generalizing pending pending' w with
  | done v | fail e =>
    rw [Action.trace, Action.trace]
    exact .see (.refl _) _ w pending pending'
  | force x place next ih =>
    rw [Action.trace, Action.trace]
    refine .see ?_ _ w pending pending'
    exact .andThen (w.traceForce_agrees h pending pending' x place) fun r u =>
      ih r pending pending' u
  | lookup id next ih | lookupFrom s id next ih | lookupLocal id next ih
  | lookupOuter id next ih =>
    rw [Action.trace, Action.trace]
    refine .see ?_ _ w pending pending'
    exact .answered fun v => ih _ pending pending' w
  | derive env next ih =>
    rw [Action.trace, Action.trace]
    refine .see ?_ _ w pending pending'
    exact .answered fun opened => ih opened.1 pending pending' _
  | withDerived env body next ihbody ihnext =>
    rw [Action.trace, Action.trace]
    refine .see ?_ _ w pending pending'
    refine .andThen (w.traceChild_agrees pending pending' _ env fun ps ps' s u => ?_) fun r u => ?_
    · exact ihbody s ps ps' u
    · exact ihnext _ r pending pending' u
  | activeScope next ih | scopeCount next ih | maxDepth next ih | hasData next ih | tick next ih
  | fresh next ih =>
    rw [Action.trace, Action.trace]
    refine .see ?_ _ w pending pending'
    exact ih _ pending pending' _
  | define id v next ih | emit line next ih | capture name x next ih =>
    rw [Action.trace, Action.trace]
    refine .see ?_ _ w pending pending'
    exact ih pending pending' _

namespace Form

theorem traceStep_ignoresPending (host : Host κ) (h : tracer.IgnoresPending) :
    (traceStep host tracer).IgnoresPending := by
  intro pending pending' source form w
  refine .see ?_ (.begins source form) w pending pending'
  cases form with
  | atom a => exact .resume w fun v => .refl _
  | call operator items span =>
    dsimp only
    split
    · exact .see (.refl _) _ w pending pending'
    · refine .ending ?_ _ pending pending'
      exact .resume _ fun a => .andThen (a.trace_agrees h _ _ _) fun r u => .refl _

theorem traceWithin_ignoresPending (host : Host κ) (bound : Nat) :
    (traceWithin host bound).IgnoresPending := by
  induction bound with
  | zero => exact fun _ _ _ _ _ => .refl _
  | succ bound ih => exact traceStep_ignoresPending host ih

end Form

end Pendings

/-! ## Another active scope -/

/-- The arena with another active scope. -/
def Arena.activating (a : Arena κ) (s : ScopeId) : Arena κ := { a with active := s }

namespace Arena

variable {a : Arena κ} {s : ScopeId} {owner mark n : Nat} {held : List Operand}

@[simp] theorem frames_activating (a : Arena κ) (s : ScopeId) :
    (a.activating s).frames = a.frames := rfl

theorem activating_eq_self (h : a.active = s) : a.activating s = a := by
  subst h
  rfl

/-- Popping does not notice which scope is active, if it does not come down to it. -/
theorem pop_activating
    (h : ∀ j f, a.size ≤ j + n → a.frames[j]? = some f →
      f.serial ≠ a.active.serial ∧ f.serial ≠ s.serial) :
    (a.activating s).pop owner held n = (a.pop owner held n).activating s := by
  induction n generalizing a with
  | zero => rfl
  | succ n ih =>
    rcases Nat.eq_zero_or_pos a.size with hnone | hsome
    · have hback : a.frames.back? = none := by
        rw [Array.back?_eq_getElem?]
        exact Array.getElem?_eq_none (by simp only [size] at hnone; omega)
      simp only [pop, frames_activating, hback]
    · obtain ⟨top, htop, hplace⟩ := a.exists_top hsome
      obtain ⟨hactive, hs⟩ := h _ top (by omega) hplace
      by_cases hpin : a.isPinned owner held top.serial = true
      · rw [pop_succ_eq_self htop (.inr hpin)]
        exact pop_succ_eq_self (a := a.activating s) htop (.inr hpin)
      · rw [pop_succ_eq_shrink htop hactive hpin]
        have hrest := ih (a := a.shrink (a.size - 1)) fun j f hj hf => by
          rw [size_shrink (Nat.sub_le _ _)] at hj
          exact h j f (by omega) (getElem?_of_shrink hf).2
        exact (pop_succ_eq_shrink (a := a.activating s) htop hs hpin).trans hrest

/-- A release does not notice which of two scopes below its mark is active. -/
theorem WellFormed.release_activating (h : a.WellFormed) (owner : Nat) (held : List Operand)
    (hactive : a.active.index < mark) (hs : a.isLive s = true) (hlt : s.index < mark) :
    (a.activating s).release owner held mark = (a.release owner held mark).activating s := by
  refine pop_activating fun j f hj hf => ?_
  have hmark : mark ≤ j := by
    have hsize : (a.activating s).size = a.size := rfl
    have : j < a.size := (Array.getElem?_eq_some_iff.mp hf).1
    omega
  constructor
  · intro hserial
    obtain ⟨g, hg, hgs⟩ := isLive_iff.mp h.active
    have := h.index_eq hf hg (hserial.trans hgs.symm)
    omega
  · intro hserial
    obtain ⟨g, hg, hgs⟩ := isLive_iff.mp hs
    have := h.index_eq hf hg (hserial.trans hgs.symm)
    omega

end Arena

/-- The world with another active scope. -/
def World.activating (w : World κ) (s : ScopeId) : World κ :=
  w.withArena (w.context.arena.activating s)

/-- The outcome with another active scope. -/
def Outcome.activating (s : ScopeId) : Outcome κ → Outcome κ
  | reply r w => reply r (w.activating s)
  | abort a => abort a

namespace Traced

/-- What is seen, in order, but for the scopes that are active and for what is in progress. -/
def seen (t : Traced κ) : List (Event κ × World κ) :=
  t.happenings.map fun h => (h.1, h.2.activating .root)

/-- The same is seen, and the outcomes differ in the active scope only, which is `a` or `b`. -/
structure DiffersOnly (a b : ScopeId) (t t' : Traced κ) : Prop where
  seen : t'.seen = t.seen
  outcome : ∃ o : Outcome κ, t.outcome = o.activating a ∧ t'.outcome = o.activating b

namespace DiffersOnly

variable {a b : ScopeId} {t t' : Traced κ}

theorem ofAbort (abort : Abort) :
    (ofOutcome (.abort abort) : Traced κ).DiffersOnly a b (ofOutcome (.abort abort)) :=
  ⟨rfl, .abort abort, rfl, rfl⟩

theorem ofAgrees (h : t.Agrees t')
    (hactive : ∀ r u, t.outcome = .reply r u → u.context.arena.active = a) :
    t.DiffersOnly a a t' := by
  have hsame : t.outcome = t.outcome.activating a := by
    cases ho : t.outcome with
    | abort abort => rfl
    | reply r u =>
      have hu := hactive r u ho
      subst hu
      rfl
  refine ⟨?_, t.outcome, hsame, h.outcome.trans hsame⟩
  unfold Traced.seen
  rw [h.happenings]

/-- Calls end, and what they do in the end makes no other difference. -/
theorem ending {c d : ScopeId} {p p' : Pending} (h : t.DiffersOnly c d t') (pending : List Pending)
    (hfinish : ∀ (r : Reply κ) (u : World κ), t.outcome = .reply r (u.activating c) →
      ∃ v : World κ, p.finish r (u.activating c) = .reply r (v.activating a) ∧
        p'.finish r (u.activating d) = .reply r (v.activating b)) :
    (t.ending p pending).DiffersOnly a b (t'.ending p' pending) := by
  obtain ⟨hseen, o, ho, ho'⟩ := h
  unfold Traced.seen at hseen
  cases o with
  | abort abort =>
    refine ⟨?_, .abort abort, ?_, ?_⟩
    · unfold Traced.seen
      rw [happenings_ending_abort ho, happenings_ending_abort ho', hseen]
    · rw [outcome_ending, ho]
      rfl
    · rw [outcome_ending, ho']
      rfl
  | reply r u =>
    obtain ⟨v, hv, hv'⟩ := hfinish r u ho
    refine ⟨?_, .reply r v, ?_, ?_⟩
    · unfold Traced.seen
      rw [happenings_ending_reply ho, happenings_ending_reply ho', List.map_append,
        List.map_append, hseen]
      -- The sights of the two ends differ in the active scope alone.
      rfl
    · rw [outcome_ending, ho]
      exact hv
    · rw [outcome_ending, ho']
      exact hv'

end DiffersOnly

end Traced

section Callers

open Traced

variable {tracer : Tracer κ} {eval : Evaluator κ} {w : World κ} {a b : ScopeId}

namespace World

variable {x : Operand} {s : ScopeId}

theorem traceIn_eq_foreign (howner : x.owner ≠ w.context.id) (pending : List Pending) :
    w.traceIn tracer pending x s = ofOutcome (.abort (.foreignOperand x.text)) := if_pos howner

theorem traceIn_eq_gone (howner : x.owner = w.context.id) (hs : ¬ w.context.arena.isLive s = true)
    (pending : List Pending) :
    w.traceIn tracer pending x s = ofOutcome (.abort (.notLive s)) := by
  unfold traceIn
  dsimp only
  rw [if_neg (not_not_intro howner), Arena.activate_eq_error hs]
  rfl

theorem traceIn_eq_ending (howner : x.owner = w.context.id) (hs : w.context.arena.isLive s = true)
    (pending : List Pending) :
    w.traceIn tracer pending x s =
      (tracer (.restore w.context.arena.active :: pending) x.source x.form (w.activating s)).ending
        (.restore w.context.arena.active) pending := by
  unfold traceIn
  dsimp only
  rw [if_neg (not_not_intro howner), Arena.activate_eq_ok hs]
  rfl

theorem traceChild_eq_gone {parent : ScopeId} (hparent : ¬ w.context.arena.isLive parent = true)
    (pending : List Pending) (env : Environment κ)
    (body : List Pending → ScopeId → World κ → Traced κ) :
    w.traceChild pending parent env body = ofOutcome (.abort (.notLive parent)) := by
  have hpush : w.context.arena.push parent env = .error parent := if_neg hparent
  unfold traceChild
  dsimp only
  rw [hpush]
  rfl

theorem traceChild_eq_ending {parent : ScopeId} (hparent : w.context.arena.isLive parent = true)
    (pending : List Pending) (env : Environment κ)
    (body : List Pending → ScopeId → World κ → Traced κ) :
    w.traceChild pending parent env body =
      (body (.release w.context.arena.size :: pending) w.context.arena.next
        (w.withArena (w.context.arena.pushed parent env))).ending
          (.release w.context.arena.size) pending := by
  unfold traceChild
  dsimp only
  rw [Arena.push_eq_ok hparent]
  rfl

/-- The operand is evaluated in the same world, whichever scope was active before, and that scope is
live when the evaluation has ended. -/
theorem traceIn_differsOnly (hignores : tracer.IgnoresPending) (htraces : tracer.Traces eval)
    (hbrackets : eval.Brackets) (ha : w.context.arena.isLive a = true)
    (hb : w.context.arena.isLive b = true) (pending : List Pending) (x : Operand) (s : ScopeId) :
    ((w.activating a).traceIn tracer pending x s).DiffersOnly a b
      ((w.activating b).traceIn tracer pending x s) := by
  by_cases howner : x.owner = w.context.id
  · by_cases hs : w.context.arena.isLive s = true
    · rw [traceIn_eq_ending (w := w.activating a) howner hs,
        traceIn_eq_ending (w := w.activating b) howner hs]
      -- Both walks start with `s` active. Only the scope that is to be active again differs.
      have hends : ∀ r u, (tracer (.restore a :: pending) x.source x.form
          (w.activating s)).outcome = .reply r u → (w.activating s).Bracketed u := by
        intro r u hu
        rw [htraces] at hu
        exact hbrackets _ _ _ r u hu
      have hinner := DiffersOnly.ofAgrees (hignores (.restore a :: pending) (.restore b :: pending)
        x.source x.form (w.activating s)) fun r u hu => (hends r u hu).active
      refine hinner.ending pending fun r u hu => ⟨u, ?_, ?_⟩
      · have hlive : u.context.arena.isLive a = true := (hends r _ hu).frames.isLive ha
        rw [Pending.finish]
        exact congrArg (Action.answered · _) (Arena.activate_eq_ok hlive)
      · have hlive : u.context.arena.isLive b = true := (hends r _ hu).frames.isLive hb
        rw [Pending.finish]
        exact congrArg (Action.answered · _) (Arena.activate_eq_ok hlive)
    · rw [traceIn_eq_gone (w := w.activating a) howner hs,
        traceIn_eq_gone (w := w.activating b) howner hs]
      exact .ofAbort _
  · rw [traceIn_eq_foreign (w := w.activating a) howner,
      traceIn_eq_foreign (w := w.activating b) howner]
    exact .ofAbort _

/-- A scope is layered over that of the operand, and released while another one is active again that
was there before. -/
theorem traceLayered_differsOnly (hignores : tracer.IgnoresPending)
    (hproceeds : tracer.Proceeds) (htraces : tracer.Traces eval) (hbrackets : eval.Brackets)
    (hw : w.context.arena.WellFormed) (ha : w.context.arena.isLive a = true)
    (hb : w.context.arena.isLive b = true) (pending : List Pending) (x : Operand)
    (env : Environment κ) :
    ((w.activating a).traceForce tracer pending x (.layered env)).DiffersOnly a b
      ((w.activating b).traceForce tracer pending x (.layered env)) := by
  by_cases howner : x.owner = w.context.id
  · have hforce : ∀ c, (w.activating c).traceForce tracer pending x (.layered env) =
        (w.activating c).traceChild pending x.scope env fun pending' child u =>
          u.traceIn tracer pending' x child := fun c => if_neg (not_not_intro howner)
    rw [hforce, hforce]
    by_cases hscope : w.context.arena.isLive x.scope = true
    · rw [traceChild_eq_ending (w := w.activating a) hscope,
        traceChild_eq_ending (w := w.activating b) hscope]
      have hinner := traceIn_differsOnly (w := w.withArena (w.context.arena.pushed x.scope env))
        hignores htraces hbrackets (Arena.isLive_pushed ha) (Arena.isLive_pushed hb)
        (.release w.context.arena.size :: pending) x w.context.arena.next
      refine hinner.ending pending fun r u hu => ?_
      have hwf : (u.context.arena.activating a).WellFormed :=
        (traceIn_proceeds hproceeds _ _ x _).wellFormed
          ((hw.pushed hscope).activate (Arena.isLive_pushed ha)) hu
      rw [traceIn_outcome htraces] at hu
      have hlive : u.context.arena.isLive b = true :=
        (evalIn_brackets hbrackets _ x _ r _ hu).frames.isLive (Arena.isLive_pushed hb)
      have hback : ((u.context.arena.activating a).release u.context.id (u.heldOperands r)
          w.context.arena.size).active = a := Arena.active_release _ _ _ _
      -- Both scopes are below the mark, so that the release is the same whichever is active.
      have hsame := hwf.release_activating u.context.id (u.heldOperands r)
        (Arena.index_lt_of_isLive ha) hlive (Arena.index_lt_of_isLive hb)
      refine ⟨u.withArena ((u.context.arena.activating a).release u.context.id (u.heldOperands r)
        w.context.arena.size), ?_, ?_⟩
      · rw [Pending.finish]
        refine congrArg (fun arena => Outcome.reply r (u.withArena arena)) ?_
        exact (Arena.activating_eq_self hback).symm
      · rw [Pending.finish]
        refine congrArg (fun arena => Outcome.reply r (u.withArena arena)) ?_
        exact hsame
    · rw [traceChild_eq_gone (w := w.activating a) hscope,
        traceChild_eq_gone (w := w.activating b) hscope]
      exact .ofAbort _
  · have hforce : ∀ c, (w.activating c).traceForce tracer pending x (.layered env) =
        ofOutcome (.abort (.foreignOperand x.text)) := fun c => if_pos howner
    rw [hforce, hforce]
    exact .ofAbort _

theorem traceForce_differsOnly (hignores : tracer.IgnoresPending) (hproceeds : tracer.Proceeds)
    (htraces : tracer.Traces eval) (hbrackets : eval.Brackets) (hw : w.context.arena.WellFormed)
    (ha : w.context.arena.isLive a = true) (hb : w.context.arena.isLive b = true)
    (pending : List Pending) (x : Operand) (place : Place κ) :
    ((w.activating a).traceForce tracer pending x place).DiffersOnly a b
      ((w.activating b).traceForce tracer pending x place) := by
  cases place with
  | own => exact traceIn_differsOnly hignores htraces hbrackets ha hb pending x x.scope
  | layered env =>
    exact traceLayered_differsOnly hignores hproceeds htraces hbrackets hw ha hb pending x env
  | scope s => exact traceIn_differsOnly hignores htraces hbrackets ha hb pending x s

end World

end Callers

/-! ## Results -/

/-- Forcing an operand does not depend on who forces it. At every moment that can be reached, with
whatever procedures, an operand is evaluated at any place with the same outcome if the scope `a` is
active as if `b` is: the same value or the same error, the same data of the host, the same scopes.
All that happens on the way is the same and comes in the same order. What differs is the active
scope, which is `a` or `b` again in the end. -/
theorem force_ignores_caller (host : Host κ) {m : Moment κ} (hm : m.Reachable) {a b : ScopeId}
    (ha : m.arena.isLive a = true) (hb : m.arena.isLive b = true) (x : Operand) (place : Place κ)
    (pending : List Pending) :
    (∃ o : Outcome κ, (m.world.activating a).forceAt host x place = o.activating a ∧
      (m.world.activating b).forceAt host x place = o.activating b) ∧
    ((m.world.activating b).traceAt host pending x place).seen =
      ((m.world.activating a).traceAt host pending x place).seen := by
  obtain ⟨hseen, o, ho, ho'⟩ := World.traceForce_differsOnly
    (Form.traceWithin_ignoresPending host _) (Form.traceWithin_proceeds host _)
    (Form.traceWithin_outcome host _) (Form.evalWithin_brackets host _) hm.wellScoped.arena ha hb
    pending x place
  refine ⟨⟨o, ?_, ?_⟩, hseen⟩
  · rw [← World.traceAt_outcome host (m.world.activating a) pending x place]
    exact ho
  · rw [← World.traceAt_outcome host (m.world.activating b) pending x place]
    exact ho'

/-- The operand `y` is forced from the outermost scope, which does not bind `y`, and from one that
binds it to another number. Both times it is what its own scope says. -/
theorem force_ignores_caller_shadowed :
    ∃ m : Moment Builtin, m.Reachable ∧ m.arena.isLive .root = true ∧
      m.arena.isLive ⟨2, 2⟩ = true ∧ m.arena.lookupFrom .root "y" = .ok none ∧
      m.arena.lookupFrom ⟨2, 2⟩ "y" = .ok (some (.int 5)) ∧
      ∃ w : World Builtin,
        (m.world.activating .root).forceAt Library.host .sample (.layered ∅) =
          .reply (.ok (.int 41)) (w.activating .root) ∧
        (m.world.activating ⟨2, 2⟩).forceAt Library.host .sample (.layered ∅) =
          .reply (.ok (.int 41)) (w.activating ⟨2, 2⟩) := by
  have hreachable : (Moment.sample [.sample 41 1, .sample 5 2] .root 3 [.sample]
      [.release 2]).Reachable :=
    Moment.sample_reachable.later
      (.step (Moment.sample_open [.sample 41 1] 5 2 [.sample]) (.stop _))
  have hroot : (Moment.sample [.sample 41 1, .sample 5 2] .root 3 [.sample]
      [.release 2]).arena.isLive .root = true := rfl
  have hother : (Moment.sample [.sample 41 1, .sample 5 2] .root 3 [.sample]
      [.release 2]).arena.isLive ⟨2, 2⟩ = true := rfl
  have hforce : ∃ u, ((Moment.sample [.sample 41 1, .sample 5 2] .root 3 [.sample]
      [.release 2]).world.activating .root).forceAt Library.host .sample (.layered ∅) =
        .reply (.ok (.int 41)) u := ⟨_, rfl⟩
  obtain ⟨u, hu⟩ := hforce
  obtain ⟨⟨o, ho, ho'⟩, -⟩ :=
    force_ignores_caller Library.host hreachable hroot hother .sample (.layered ∅) []
  cases o with
  | abort abort => cases ho.symm.trans hu
  | reply r w =>
    have hr : r = .ok (.int 41) := by
      have hreply := ho.symm.trans hu
      rw [Outcome.activating] at hreply
      exact (Outcome.reply.inj hreply).1
    subst hr
    exact ⟨_, hreachable, hroot, hother, rfl, rfl, w, ho, ho'⟩

end Fexpr
