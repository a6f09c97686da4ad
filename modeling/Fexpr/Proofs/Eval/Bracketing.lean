import Fexpr.Eval
import Fexpr.Library.Scopes
import Fexpr.Proofs.Scope.WellFormed

/-!
# Evaluation is bracketed

Whatever an evaluation does on its way, it ends as it began: the same scope is active, the same
number of calls is in progress, and every frame that was there is there with the same number and the
same parent. This holds for values and for errors alike, in any world and with any procedures
(`evaluation_bracketed`). What an evaluation can leave behind are definitions, and scopes above
those that it found.
-/

namespace Fexpr

variable {κ : Type} {eval : Evaluator κ} {w w' : World κ}

/-- The frames of `a` are there in `b`, at the same places with the same numbers and parents. -/
def Arena.ExtendedBy (a b : Arena κ) : Prop :=
  ∀ (i : Nat) (f : Frame κ), a.frames[i]? = some f →
    ∃ g, b.frames[i]? = some g ∧ g.serial = f.serial ∧ g.parent = f.parent

namespace Arena.ExtendedBy

variable {a b c : Arena κ}

theorem refl (a : Arena κ) : a.ExtendedBy a := fun _ f hf => ⟨f, hf, rfl, rfl⟩

theorem trans (hab : a.ExtendedBy b) (hbc : b.ExtendedBy c) : a.ExtendedBy c := by
  intro i f hf
  obtain ⟨g, hg, hgs, hgp⟩ := hab i f hf
  obtain ⟨k, hk, hks, hkp⟩ := hbc i g hg
  exact ⟨k, hk, hks.trans hgs, hkp.trans hgp⟩

theorem isLive (h : a.ExtendedBy b) {s : ScopeId} (hs : a.isLive s = true) :
    b.isLive s = true := by
  obtain ⟨f, hf, hserial⟩ := isLive_iff.mp hs
  obtain ⟨g, hg, hgs, -⟩ := h s.index f hf
  exact isLive_iff.mpr ⟨g, hg, hgs.trans hserial⟩

theorem size_le (h : a.ExtendedBy b) : a.size ≤ b.size := by
  rcases Nat.eq_zero_or_pos a.size with hzero | hpos
  · omega
  · have hlast : a.size - 1 < a.frames.size := by simp only [size] at hpos ⊢; omega
    obtain ⟨g, hg, -⟩ := h _ _ (Array.getElem?_eq_getElem hlast)
    have : a.size - 1 < b.size := (Array.getElem?_eq_some_iff.mp hg).1
    omega

theorem pushed (a : Arena κ) (parent : ScopeId) (env : Environment κ) :
    a.ExtendedBy (a.pushed parent env) := by
  intro i f hf
  have hlt : i < a.size := (Array.getElem?_eq_some_iff.mp hf).1
  exact ⟨f, by rw [getElem?_pushed, if_neg (Nat.ne_of_lt hlt), hf], rfl, rfl⟩

theorem define (a : Arena κ) (id : String) (v : Value κ) : a.ExtendedBy (a.define id v) :=
  fun _ _ => exists_getElem?_define

/-- A release leaves what was there at its mark. -/
theorem release (h : a.ExtendedBy b) (owner : Nat) (held : List Operand) :
    a.ExtendedBy (b.release owner held a.size) := by
  obtain ⟨k, hmark, -, hrelease, -⟩ := exists_release_eq owner held h.size_le
  intro i f hf
  obtain ⟨g, hg, hsame⟩ := h i f hf
  have hlt : i < a.size := (Array.getElem?_eq_some_iff.mp hf).1
  refine ⟨g, ?_, hsame⟩
  rw [hrelease, getElem?_shrink, if_pos (Nat.lt_of_lt_of_le hlt hmark), hg]

end Arena.ExtendedBy

/-- What an evaluation leaves as it was. -/
structure World.Bracketed (w w' : World κ) : Prop where
  id : w'.context.id = w.context.id
  active : w'.context.arena.active = w.context.arena.active
  depth : w'.context.depth = w.context.depth
  maxDepth : w'.context.maxDepth = w.context.maxDepth
  data : w'.context.data = w.context.data
  frames : w.context.arena.ExtendedBy w'.context.arena

namespace World.Bracketed

theorem refl (w : World κ) : w.Bracketed w := ⟨rfl, rfl, rfl, rfl, rfl, .refl _⟩

theorem trans {u : World κ} (h : w.Bracketed u) (h' : u.Bracketed w') : w.Bracketed w' :=
  ⟨h'.id.trans h.id, h'.active.trans h.active, h'.depth.trans h.depth,
    h'.maxDepth.trans h.maxDepth, h'.data.trans h.data, h.frames.trans h'.frames⟩

theorem withArena {a : Arena κ} (hactive : a.active = w.context.arena.active)
    (hframes : w.context.arena.ExtendedBy a) : w.Bracketed (w.withArena a) :=
  ⟨rfl, hactive, rfl, rfl, rfl, hframes⟩

end World.Bracketed

/-- If the outcome is a reply, then the world is left as `w` was. -/
def Outcome.Brackets (w : World κ) (o : Outcome κ) : Prop :=
  ∀ r w', o = .reply r w' → w.Bracketed w'

namespace Outcome.Brackets

theorem reply (r : Reply κ) (h : w.Bracketed w') : (Outcome.reply r w').Brackets w := by
  intro r' u hu
  cases hu
  exact h

theorem abort (a : Abort) : (Outcome.abort a : Outcome κ).Brackets w := fun _ _ h => nomatch h

theorem andThen {o : Outcome κ} {next : Reply κ → World κ → Outcome κ} {u : World κ}
    (ho : o.Brackets u) (hnext : ∀ r v, u.Bracketed v → (next r v).Brackets w) :
    (o.andThen next).Brackets w := by
  cases o with
  | reply r v => exact hnext r v (ho r v rfl)
  | abort a => exact abort a

theorem after {o : Outcome κ} {u : World κ} (ho : o.Brackets u) (h : w.Bracketed u) :
    o.Brackets w := fun r w' hr => h.trans (ho r w' hr)

theorem answered {α : Type} {answer : Except ScopeId α} {next : α → Outcome κ}
    (hnext : ∀ a, answer = .ok a → (next a).Brackets w) :
    (Action.answered answer next).Brackets w := by
  cases answer with
  | error s => exact abort (.notLive s)
  | ok a => exact hnext a rfl

end Outcome.Brackets

def Evaluator.Brackets (eval : Evaluator κ) : Prop :=
  ∀ source form w, (eval source form w).Brackets w

section Runs

open Outcome

theorem World.withChild_brackets (w : World κ) (parent : ScopeId) (env : Environment κ)
    {body : ScopeId → World κ → Outcome κ} (hbody : ∀ s u, (body s u).Brackets u) :
    (w.withChild parent env body).Brackets w := by
  unfold World.withChild
  dsimp only
  split
  · exact .abort _
  next child arena hpush =>
    obtain ⟨-, -, rfl⟩ := Arena.push_cases hpush
    refine .andThen (hbody _ _) fun r v hv => .reply r ?_
    have hframes : w.context.arena.ExtendedBy v.context.arena :=
      (Arena.ExtendedBy.pushed _ parent env).trans hv.frames
    obtain ⟨k, -, -, hrelease, -⟩ :=
      Arena.exists_release_eq v.context.id (v.heldOperands r) hframes.size_le
    have hactive : (v.context.arena.release v.context.id (v.heldOperands r)
        w.context.arena.size).active = v.context.arena.active := by
      rw [hrelease]
      rfl
    exact ⟨hv.id, hactive.trans hv.active, hv.depth, hv.maxDepth, hv.data, hframes.release _ _⟩

theorem World.evalIn_brackets (heval : eval.Brackets) (w : World κ) (x : Operand) (s : ScopeId) :
    (w.evalIn eval x s).Brackets w := by
  unfold World.evalIn
  split
  · exact .abort _
  · split
    · exact .abort _
    next arena hactivate =>
      obtain ⟨-, rfl⟩ := Arena.activate_cases hactivate
      refine .andThen (heval _ _ _) fun r v hv => ?_
      split
      · exact .abort _
      next restored hrestore =>
        obtain ⟨-, rfl⟩ := Arena.activate_cases hrestore
        exact .reply r ⟨hv.id, rfl, hv.depth, hv.maxDepth, hv.data, hv.frames⟩

theorem World.force_brackets (heval : eval.Brackets) (w : World κ) (x : Operand)
    (place : Place κ) : (w.force eval x place).Brackets w := by
  cases place with
  | own => exact w.evalIn_brackets heval x x.scope
  | layered env =>
    show (w.evalLayered eval x env).Brackets w
    unfold World.evalLayered
    split
    · exact .abort _
    · exact w.withChild_brackets _ _ fun s u => u.evalIn_brackets heval x s
  | scope s => exact w.evalIn_brackets heval x s

/-- Whatever a procedure asks for, one request after the other is bracketed. -/
theorem Action.run_brackets (heval : eval.Brackets) (a : Action κ) :
    ∀ w, (a.run eval w).Brackets w := by
  induction a with
  | done v | fail e => exact fun w => .reply _ (.refl w)
  | force x place next ih =>
    intro w
    rw [Action.run]
    exact .andThen (w.force_brackets heval x place) fun r v hv => (ih r v).after hv
  | lookup id next ih | lookupFrom s id next ih | lookupLocal id next ih | lookupOuter id next ih =>
    intro w
    rw [Action.run]
    exact .answered fun v _ => ih _ w
  | define id v next ih =>
    intro w
    rw [Action.run]
    exact (ih _).after (.withArena rfl (.define _ id v))
  -- A derived scope outlives the request, but what was there before is still as it was.
  | derive env next ih =>
    intro w
    rw [Action.run]
    refine .answered fun opened hpush => ?_
    obtain ⟨-, -, harena⟩ := Arena.push_cases hpush
    refine (ih opened.1 _).after (.withArena ?_ ?_)
    · rw [harena]
      rfl
    · exact harena ▸ .pushed _ _ env
  | withDerived env body next ihbody ihnext =>
    intro w
    rw [Action.run]
    exact .andThen (w.withChild_brackets _ _ fun s u => ihbody s u) fun r v hv =>
      (ihnext _ r v).after hv
  | activeScope next ih | scopeCount next ih | maxDepth next ih | hasData next ih =>
    intro w
    rw [Action.run]
    exact ih _ w
  | tick next ih | fresh next ih =>
    intro w
    rw [Action.run]
    exact (ih _ _).after ⟨rfl, rfl, rfl, rfl, rfl, .refl _⟩
  | emit line next ih | capture name x next ih =>
    intro w
    rw [Action.run]
    exact (ih _).after ⟨rfl, rfl, rfl, rfl, rfl, .refl _⟩

theorem Form.dispatch_brackets (host : Host κ) (heval : eval.Brackets) (source : Source)
    (operator : Form.Name) (items : List Form.Item) (span : Text.Span) (w : World κ) :
    (Form.dispatch host eval source operator items span w).Brackets w := by
  unfold Form.dispatch
  split
  · exact .abort _
  · exact .reply _ (.refl w)
  · split
    · exact .abort _
    · exact .reply _ (.refl w)
    · exact .andThen (Action.run_brackets heval _ w) fun r v hv => .reply _ hv
  · exact .reply _ (.refl w)

theorem Form.step_brackets (host : Host κ) (heval : eval.Brackets) :
    Evaluator.Brackets (Form.step host eval) := by
  intro source form w
  cases form with
  | atom a =>
    rw [Form.step]
    split
    · exact .abort _
    · exact .reply _ (.refl w)
    · exact .reply _ (.refl w)
  | call operator items span =>
    rw [Form.step]
    split
    · exact .reply _ (.refl w)
    · refine .andThen (Form.dispatch_brackets host heval source operator items span w.enter)
        fun r v hv => .reply r ?_
      have hdepth : v.context.depth = w.context.depth + 1 := hv.depth
      refine ⟨hv.id, hv.active, ?_, hv.maxDepth, hv.data, hv.frames⟩
      show v.context.depth - 1 = w.context.depth
      omega

theorem Form.evalWithin_brackets (host : Host κ) (bound : Nat) :
    (Form.evalWithin host bound).Brackets := by
  induction bound with
  | zero => exact fun _ _ _ => .abort _
  | succ bound ih => exact Form.step_brackets host ih

end Runs

/-- Evaluation is bracketed on every path. Whatever the procedures ask for, the evaluation of a
script, the evaluation of an operand at any place, and what is done with a derived scope open leave
the active scope, the depth of calls, its limit and the data as they were, and every frame where it
was with the same number and parent, whether the reply is a value or an error. -/
theorem evaluation_bracketed (host : Host κ) (w : World κ) :
    (∀ p r w', w.run host p = .reply r w' → w.Bracketed w') ∧
    (∀ x place r w', w.forceAt host x place = .reply r w' → w.Bracketed w') ∧
    ∀ n env (body : ScopeId → Action κ) r w',
      (w.withChild w.context.arena.active env fun s u => (body s).run (Form.evalWithin host n) u) =
        .reply r w' → w.Bracketed w' := by
  refine ⟨fun p r w' h => ?_, fun x place => ?_, fun n env body => ?_⟩
  · unfold World.run at h
    split at h
    · cases h
    · exact Form.evalWithin_brackets host _ _ _ w r w' h
  · exact w.force_brackets (Form.evalWithin_brackets host _) x place
  · exact w.withChild_brackets _ env fun s u =>
      Action.run_brackets (Form.evalWithin_brackets host n) (body s) u

/-- A world in which `F` is bound to a procedure. -/
def World.sample : World Unit :=
  ⟨Context.new 0 (Bindings.ofList [("F", .procedure ⟨0, (), []⟩)]) 4 .absent, .fresh, 0⟩

/-- A call of `F` with an operand that is not bound. -/
def Operand.unboundCall : Operand :=
  ⟨⟨"script", "(F x)"⟩, .call ⟨"F", ⟨1, 2⟩⟩ [.operand (.atom (.name ⟨"x", ⟨3, 4⟩⟩))] ⟨0, 5⟩,
    .root, 0⟩

/-- The call is evaluated in a scope layered over its own, and fails in one derived from that. -/
theorem evaluation_bracketed_unboundCall :
    ∃ (e : Error) (w : World Unit),
      World.sample.forceAt (fun _ => Behaviour.unary Library.inReleased) .unboundCall (.layered ∅) =
        .reply (.error e) w ∧
      w.context.arena.nextSerial = 3 ∧ World.sample.Bracketed w := by
  have hfails : ∃ (e : Error) (w : World Unit),
      World.sample.forceAt (fun _ => Behaviour.unary Library.inReleased) .unboundCall (.layered ∅) =
        .reply (.error e) w ∧ w.context.arena.nextSerial = 3 := ⟨_, _, rfl, rfl⟩
  obtain ⟨e, w, hreply, hserial⟩ := hfails
  exact ⟨e, w, hreply, hserial, (evaluation_bracketed _ World.sample).2.1 _ _ _ w hreply⟩

end Fexpr
