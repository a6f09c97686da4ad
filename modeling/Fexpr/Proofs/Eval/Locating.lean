import Fexpr.Library.Host
import Fexpr.Proofs.Eval.Bracketing
import Fexpr.Proofs.Eval.Safety
import Fexpr.Proofs.Form.Excerpt

/-!
# Where errors are located

A procedure that fails does not know where it was called. The call that runs it places the failure,
at itself and in the script that it is written in, and the calls around that one pass the placed
error on as it is (`errors_located_once`).

`Host.Surfaces` tells how an error gets from the procedure that returns it through the calls around
it: the procedure of each of them returns the error that came out of a forced operand, which may be
one of another script.
-/

namespace Fexpr

open Text (Span)
open Grammar

variable {κ : Type}

/-! ## Placing an error once -/

namespace Error

/-- What the error `e`, returned by a procedure, is outside the call at `span`. A failure of the
procedure has got the place of the call, and all else is as it was. -/
structure ComesOutAs (source : Source) (span : Span) (e e' : Error) : Prop where
  raised : e.kind = .procedure → e'.kind = .evaluate ∧ e'.message = e.message ∧
    e'.causes = e.causes ∧ e'.site? = some ⟨source, span, none⟩
  other : e.kind ≠ .procedure → e' = e

theorem locate_comesOutAs (source : Source) (span : Span) (e : Error) :
    e.ComesOutAs source span (e.locate source span) := by
  cases e with
  | raised message causes => exact ⟨fun _ => ⟨rfl, rfl, rfl, rfl⟩, fun h => absurd rfl h⟩
  | _ => exact ⟨fun h => (nomatch h), fun _ => rfl⟩

theorem ComesOutAs.kind_ne {source : Source} {span : Span} {e e' : Error}
    (h : e.ComesOutAs source span e') : e'.kind ≠ .procedure := by
  by_cases he : e.kind = .procedure
  · rw [(h.raised he).1]
    decide
  · rwa [h.other he]

end Error

theorem Value.kind_of_ofType_error {expected : ValueType} {v : Value κ} {e : Error}
    (h : v.ofType expected = .error e) : e.kind = .procedure := by
  unfold Value.ofType at h
  split at h
  · cases h
  · cases h
    rfl

/-! ## Errors of the evaluator itself -/

/-- The errors that atoms come to: of names, of the steps of paths and of literals. -/
inductive Error.OfAtom : Error → Prop
  | unbound (id : String) (site : Site) : OfAtom (.unbound id site)
  | notIndexable (key : String) (type : ValueType) (site : Site) :
    OfAtom (.failed (.notIndexable key type) site)
  | notFound (key : String) (type : ValueType) (site : Site) :
    OfAtom (.failed (.notFound key type) site)
  | badInteger (text : List Char) (e : Literal.Error) (site : Site) :
    OfAtom (.failed (.badInteger text e) site)
  | badFloat (text : List Char) (e : Literal.Error) (site : Site) :
    OfAtom (.failed (.badFloat text e) site)
  | badString (e : Literal.Error) (site : Site) : OfAtom (.failed (.badString e) site)

theorem Error.OfAtom.kind_ne {e : Error} (h : e.OfAtom) : e.kind ≠ .procedure := by
  cases h <;> rintro ⟨⟩

namespace Form

theorem Literal.ofAtom_of_value {source : Source} {l : Literal} {e : Error}
    (h : (l.value source : Reply κ) = .error e) : e.OfAtom := by
  obtain ⟨kind, text, span⟩ := l
  cases kind with
  | nil | bool | longString => cases h
  | integer =>
    rw [Literal.value] at h
    cases hn : Fexpr.Literal.parseInteger text with
    | ok n =>
      rw [hn] at h
      cases n <;> cases h
    | error problem =>
      rw [hn] at h
      cases h
      exact .badInteger ..
  | float =>
    rw [Literal.value] at h
    cases hx : Fexpr.Literal.parseFloat text with
    | ok x =>
      rw [hx] at h
      cases h
    | error problem =>
      rw [hx] at h
      cases h
      exact .badFloat ..
  | string =>
    rw [Literal.value] at h
    cases hs : Fexpr.Literal.parseString text with
    | ok s =>
      rw [hs] at h
      cases h
    | error problem =>
      rw [hs] at h
      cases h
      exact .badString ..

theorem ofAtom_of_follow {source : Source} {attributes : List Attribute} {v : Value κ} {e : Error}
    (h : follow source attributes v = .error e) : e.OfAtom := by
  induction attributes generalizing v with
  | nil => cases h
  | cons a attributes ih =>
    rw [follow] at h
    split at h
    · exact ih h
    · cases h
      exact .notIndexable ..
    · cases h
      exact .notFound ..

theorem Name.ofAtom_of_value {source : Source} {arena : Arena κ} {n : Name} {e : Error}
    (h : n.value source arena = .error (.error e)) : e.OfAtom := by
  unfold Name.value at h
  split at h <;> cases h
  exact .unbound ..

theorem Atom.ofAtom_of_value {source : Source} {arena : Arena κ} {a : Atom} {e : Error}
    (h : a.value source arena = .error (.error e)) : e.OfAtom := by
  have hreply : ∀ {r : Reply κ}, r.mapError Stop.error = .error (.error e) → r = .error e := by
    intro r hr
    cases r <;> cases hr
    rfl
  cases a with
  | literal l => exact l.ofAtom_of_value (hreply h)
  | name n => exact n.ofAtom_of_value h
  | path base attributes span =>
    rw [Atom.value] at h
    split at h
    next stop hstop =>
      cases h
      exact base.ofAtom_of_value hstop
    · exact ofAtom_of_follow (hreply h)

/-- An error in a call's options is one of an atom. -/
theorem ofAtom_of_collect {source : Source} {c : Context κ} {items : List Item} {given : Call κ}
    {e : Error} (h : collect source c items given = .error (.error e)) : e.OfAtom := by
  induction items generalizing given with
  | nil => cases h
  | cons item items ih =>
    cases item with
    | operand f => exact ih h
    | option key chosen =>
      rw [collect] at h
      split at h
      next stop hstop =>
        cases h
        exact chosen.ofAtom_of_value hstop
      · exact ih h

/-! ## One call -/

/-- The call gets as far as calling the procedure `p`. -/
structure Calls (source : Source) (operator : Name) (items : List Item) (w : World κ)
    (p : Procedure κ) (given : Call κ) : Prop where
  depth : w.context.depth < w.context.maxDepth
  operator : operator.value source w.enter.context.arena = .ok (.procedure p)
  given : collect source w.enter.context items ⟨[], ∅⟩ = .ok given

variable {host : Host κ} {eval : Evaluator κ} {source : Source} {w w' : World κ} {e : Error}

/-- What the procedure of a call returns, the call locates. -/
theorem Calls.step_eq {operator : Name} {items : List Item} {p : Procedure κ} {given : Call κ}
    {r : Reply κ} (h : Calls source operator items w p given)
    (hbody : (host p given).run eval w.enter = .reply r w') (span : Span) :
    step host eval source (.call operator items span) w =
      .reply (r.mapError (Error.locate source span)) w'.leave := by
  rw [step, if_neg (Nat.not_le_of_lt h.depth), dispatch, h.operator]
  dsimp only
  rw [h.given]
  dsimp only
  rw [hbody]
  rfl

end Form

/-- The outcome is no failure of a procedure that has no place. -/
def Outcome.Located (o : Outcome κ) : Prop :=
  ∀ e w, o = .reply (.error e) w → e.kind ≠ .procedure

namespace Outcome.Located

theorem error {e : Error} (h : e.kind ≠ .procedure) (w : World κ) :
    (Outcome.reply (.error e) w).Located := by
  intro e' w' he
  cases he
  exact h

theorem failed (problem : Problem) (site : Site) (w : World κ) :
    (Outcome.reply (.error (.failed problem site)) w).Located := by
  refine .error ?_ w
  exact fun h => nomatch h

theorem abort (a : Abort) : (Outcome.abort a : Outcome κ).Located := fun _ _ h => nomatch h

theorem value (v : Value κ) (w : World κ) : (Outcome.reply (.ok v) w).Located :=
  fun _ _ h => nomatch h

/-- Whatever a procedure replies, the call around it has located it. -/
theorem located (o : Outcome κ) (source : Source) (span : Span) :
    (o.andThen fun r w => .reply (r.mapError (Error.locate source span)) w).Located := by
  cases o with
  | abort a => exact .abort a
  | reply r w =>
    cases r with
    | ok v => exact .value v w
    | error e => exact .error (e.locate_comesOutAs source span).kind_ne w

theorem leave {o : Outcome κ} (h : o.Located) :
    (o.andThen fun r w => .reply r w.leave).Located := by
  cases o with
  | abort a => exact .abort a
  | reply r w =>
    intro e w' he
    cases he
    exact h e w rfl

end Outcome.Located

namespace Form

open Outcome

theorem dispatch_located (host : Host κ) (eval : Evaluator κ) (source : Source) (operator : Name)
    (items : List Item) (span : Span) (w : World κ) :
    (dispatch host eval source operator items span w).Located := by
  unfold dispatch
  split
  · exact .abort _
  next hstop => exact .error (Name.ofAtom_of_value hstop).kind_ne w
  · split
    · exact .abort _
    next hstop => exact .error (ofAtom_of_collect hstop).kind_ne w
    · exact .located _ source span
  · exact .failed _ _ w

/-- No error comes out of a form without its place. -/
theorem step_located (host : Host κ) (eval : Evaluator κ) (source : Source) (form : Form)
    (w : World κ) : (step host eval source form w).Located := by
  cases form with
  | atom a =>
    rw [step]
    split
    · exact .abort _
    next hstop => exact .error (Atom.ofAtom_of_value hstop).kind_ne w
    · exact .value _ w
  | call operator items span =>
    rw [step]
    split
    · exact .failed _ _ w
    · exact (dispatch_located host eval source operator items span w.enter).leave

theorem evalWithin_located (host : Host κ) (n : Nat) (source : Source) (form : Form)
    (w : World κ) : (evalWithin host n source form w).Located := by
  cases n with
  | zero => exact .abort _
  | succ n => exact step_located host _ source form w

end Form

/-! ## Forced operands -/

/-- The scope in which, or in a child of which, the operand is evaluated at a place. -/
def Place.base (x : Operand) : Place κ → ScopeId
  | .own => x.scope
  | .layered _ => x.scope
  | .scope s => s

namespace World

/-- The world in which the form of an operand is evaluated at a place. -/
def opened (w : World κ) (x : Operand) : Place κ → World κ
  | .own => w.withArena { w.context.arena with active := x.scope }
  | .layered env =>
    w.withArena { w.context.arena.pushed x.scope env with active := w.context.arena.next }
  | .scope s => w.withArena { w.context.arena with active := s }

variable {eval : Evaluator κ} {w w' v : World κ} {x : Operand} {s : ScopeId} {r : Reply κ}

theorem exists_of_evalIn (h : w.evalIn eval x s = .reply r w') :
    ∃ v, eval x.source x.form (w.withArena { w.context.arena with active := s }) = .reply r v := by
  unfold evalIn at h
  split at h
  · cases h
  · split at h
    · cases h
    next arena hactivate =>
      obtain ⟨-, rfl⟩ := Arena.activate_cases hactivate
      cases heval : eval x.source x.form (w.withArena { w.context.arena with active := s }) with
      | abort a =>
        rw [heval] at h
        cases h
      | reply r' v =>
        rw [heval, Outcome.andThen] at h
        split at h
        · cases h
        · cases h
          exact ⟨v, rfl⟩

/-- A forced operand replies what its form does. -/
theorem exists_of_force {place : Place κ} (h : w.force eval x place = .reply r w') :
    ∃ v, eval x.source x.form (w.opened x place) = .reply r v := by
  cases place with
  | own => exact exists_of_evalIn h
  | scope s => exact exists_of_evalIn h
  | layered env =>
    change w.evalLayered eval x env = _ at h
    unfold evalLayered at h
    split at h
    · cases h
    · unfold withChild at h
      dsimp only at h
      split at h
      · cases h
      next child arena hpush =>
        obtain ⟨-, rfl, rfl⟩ := Arena.push_cases hpush
        cases heval : (w.withArena (w.context.arena.pushed x.scope env)).evalIn eval x
            w.context.arena.next with
        | abort a =>
          rw [heval] at h
          cases h
        | reply r' v =>
          rw [heval] at h
          cases h
          exact exists_of_evalIn heval

theorem exists_evalIn_eq (hbrackets : eval.Brackets) (howner : x.owner = w.context.id)
    (hs : w.context.arena.isLive s = true)
    (hactive : w.context.arena.isLive w.context.arena.active = true)
    (h : eval x.source x.form (w.withArena { w.context.arena with active := s }) = .reply r v) :
    ∃ w', w.evalIn eval x s = .reply r w' := by
  have hlive : v.context.arena.isLive w.context.arena.active = true :=
    (hbrackets _ _ _ r v h).frames.isLive hactive
  refine ⟨v.withArena { v.context.arena with active := w.context.arena.active }, ?_⟩
  unfold evalIn
  rw [if_neg (not_not_intro howner), Arena.activate_eq_ok hs]
  dsimp only
  rw [h, Outcome.andThen, Arena.activate_eq_ok hlive]

/-- A forced operand replies if its form does: the scope to go back to is still there. -/
theorem exists_force_eq (hbrackets : eval.Brackets) {place : Place κ}
    (howner : x.owner = w.context.id) (hbase : w.context.arena.isLive (place.base x) = true)
    (hactive : w.context.arena.isLive w.context.arena.active = true)
    (h : eval x.source x.form (w.opened x place) = .reply r v) :
    ∃ w', w.force eval x place = .reply r w' := by
  cases place with
  | own => exact exists_evalIn_eq hbrackets howner hbase hactive h
  | scope s => exact exists_evalIn_eq hbrackets howner hbase hactive h
  | layered env =>
    obtain ⟨u, hu⟩ : ∃ u, (w.withArena (w.context.arena.pushed x.scope env)).evalIn eval x
        w.context.arena.next = .reply r u :=
      exists_evalIn_eq hbrackets howner Arena.isLive_next (Arena.isLive_pushed hactive) h
    have hscope : w.context.arena.isLive x.scope = true := hbase
    show ∃ w', w.evalLayered eval x env = .reply r w'
    unfold evalLayered withChild
    rw [if_neg (not_not_intro howner)]
    dsimp only
    rw [Arena.push_eq_ok hscope]
    dsimp only
    rw [hu]
    exact ⟨_, rfl⟩

end World

/-! ## Calls in scripts -/

/-- The form is that of a compiled script, or one that evaluating it can hand to procedures. -/
def Form.IsPartOf (form : Form) (source : Source) : Prop :=
  ∃ p body, Program.compile source = .ok p ∧ p.body = .ok body ∧ (form = body ∨ body.Hands form)

/-- The form is what an expression of the script stands for, and its place is the trimmed span of
that expression. -/
def Form.IsExpressionOf (form : Form) (source : Source) : Prop :=
  ∃ p tree u, Program.compile source = .ok p ∧ p.tree? = some tree ∧ IsOperandNode tree u ∧
    u.rule = .expression ∧ ofTree source.chars u = .ok form ∧
    form.span = u.trimmedSpan source.chars

/-- The tree of a written call is an expression. -/
theorem Grammar.Written.rule_of_call {mayOpen : Nat → Prop} {n : Nat} {i j : Cursor}
    {ts : List Tree} {t g u : Tree} {operator : Form.Name} {items : List Form.Item} {span : Span}
    (h : Written mayOpen n .value i j ts [.operand (.call operator items span)])
    (hts : ts = [nodeAt .value i j [t, g]]) (hu : Tree.prunes [t] = [u]) :
    u.rule = .expression := by
  have hlt := h.offset_lt
  cases h with
  | call =>
    simp only [nodeAt, List.cons.injEq, Tree.node.injEq, true_and, and_true] at hts
    rw [← hts.1, ← nodeAt, prunes_nodeAt (Nat.ne_of_lt hlt)] at hu
    rw [← (List.cons.inj hu).1]
    rfl

namespace Form.IsPartOf

variable {source : Source}

/-- What is part of a script is written in it. -/
theorem exists_written {form : Form} (h : form.IsPartOf source) :
    ∃ p i t tree n k l us, Program.compile source = .ok p ∧ p.tree? = some tree ∧
      Tree.prunes [scriptNode source.chars i t] = [tree] ∧ k.IsIn source.chars ∧
      Written (· < maxNesting) n .value k l us [.operand form] ∧
      ∀ v ∈ Tree.prunes us, ∃ w ∈ Tree.prunes [t], v ∈ w.nodes := by
  obtain ⟨p, body, hp, hbody, hform⟩ := h
  obtain ⟨i, j, t, f, hscript, rfl⟩ := Program.exists_scriptAt_of_compile hp
  obtain rfl : f = body := Except.ok.inj hbody
  obtain ⟨tree, -, -, -, hprunes, -⟩ := hscript.reads
  have htree : Program.tree? ⟨source, Tree.prunes [scriptNode source.chars i t], .ok f⟩ =
      some tree := by
    rw [Program.tree?, hprunes]
    rfl
  rcases hform with rfl | hform
  · exact ⟨_, i, t, tree, 0, i, j, [t], hp, htree, hprunes, hscript.isIn, hscript.value,
      fun v hv => ⟨v, hv, v.mem_nodes_self⟩⟩
  · obtain ⟨n, k, l, us, hus, hk, hsub⟩ := hscript.value.exists_of_hands hscript.isIn hform
    exact ⟨_, i, t, tree, n, k, l, us, hp, htree, hprunes, hk, hus, hsub⟩

theorem isExpressionOf {operator : Name} {items : List Item} {span : Span}
    (h : IsPartOf (.call operator items span) source) :
    IsExpressionOf (.call operator items span) source := by
  obtain ⟨p, i, t, tree, n, k, l, us, hp, htree, hprunes, hk, hus, hsub⟩ := h.exists_written
  obtain ⟨t₀, k₀, u, rfl, hu, hspacing, hspan, hread⟩ := hus.reads hk
  exact ⟨p, tree, u, hp, htree, hus.isOperandNode hu hspacing hprunes hsub,
    hus.rule_of_call rfl hu, hread, hspan.symm⟩

/-- The operands that a call hands over are part of the script of the call. -/
theorem of_collect {operator : Name} {items : List Item} {span : Span} {c : Context κ}
    {given : Call κ} (h : IsPartOf (.call operator items span) source)
    (hgiven : collect source c items ⟨[], ∅⟩ = .ok given) {x : Operand} (hx : x ∈ given.operands) :
    x.form.IsPartOf x.source := by
  rcases exists_of_mem_collect hgiven hx with hx | ⟨f, hf, rfl⟩
  · cases hx
  · obtain ⟨p, body, hp, hbody, rfl | hcall⟩ := h
    · exact ⟨p, _, hp, hbody, .inr (.operand hf)⟩
    · exact ⟨p, body, hp, hbody, .inr (hcall.trans (.operand hf))⟩

end Form.IsPartOf

/-! ## Errors on their way out -/

/-- Evaluating the form in the world `w` lets out the error `e` that the procedure of `call`, a form
of `origin`, has returned. Either `call` is the form itself. Or `e` has come out of an operand of
some script, forced in some world, and the procedure of the form returns what came out there. -/
inductive Host.Surfaces (host : Host κ) :
    Nat → Source → Form → World κ → Error → Source → Form → Prop
  | returned {n : Nat} {source : Source} {operator : Form.Name} {items : List Form.Item}
    {span : Span} {w w' : World κ} {p : Procedure κ} {given : Call κ} {e : Error}
    (hcalls : Form.Calls source operator items w p given)
    (hbody : (host p given).run (Form.evalWithin host n) w.enter = .reply (.error e) w') :
    Surfaces host (n + 1) source (.call operator items span) w e source (.call operator items span)
  | passed {n : Nat} {source : Source} {operator : Form.Name} {items : List Form.Item}
    {span : Span} {w w' v v' : World κ} {p : Procedure κ} {given : Call κ} {x : Operand}
    {place : Place κ} {e e' : Error} {origin : Source} {call : Form}
    (hx : x.form.IsPartOf x.source)
    (hsurfaces : Surfaces host n x.source x.form (v.opened x place) e origin call)
    (hforce : v.force (Form.evalWithin host n) x place = .reply (.error e') v')
    (hcalls : Form.Calls source operator items w p given)
    (hbody : (host p given).run (Form.evalWithin host n) w.enter = .reply (.error e') w') :
    Surfaces host (n + 1) source (.call operator items span) w e origin call

namespace Host.Surfaces

variable {host : Host κ} {n : Nat} {source origin : Source} {form call : Form} {w : World κ}
  {e : Error}

/-- The error comes out with the place of the call whose procedure has returned it. -/
theorem exists_reply (h : host.Surfaces n source form w e origin call) :
    ∃ e' w', Form.evalWithin host n source form w = .reply (.error e') w' ∧
      e.ComesOutAs origin call.span e' := by
  induction h with
  | @returned n source operator items span w w' p given e hcalls hbody =>
    exact ⟨_, _, hcalls.step_eq hbody span, e.locate_comesOutAs source span⟩
  | @passed n source operator items span w w' v v' p given x place e e' _ _ _ _ hforce hcalls hbody
      ih =>
    obtain ⟨e'', u, hu, hout⟩ := ih
    -- what came out of the operand is what its form replied
    obtain ⟨u', hu'⟩ := World.exists_of_force hforce
    cases hu.symm.trans hu'
    have hsame : e'.locate source span = e' :=
      (e'.locate_comesOutAs source span).other hout.kind_ne
    refine ⟨e', w'.leave, (hcalls.step_eq hbody span).trans ?_, hout⟩
    exact congrArg (fun e => Outcome.reply (.error e) w'.leave) hsame

theorem isExpressionOf (h : host.Surfaces n source form w e origin call)
    (hform : form.IsPartOf source) : call.IsExpressionOf origin := by
  induction h with
  | returned => exact hform.isExpressionOf
  | passed hx _ _ _ _ ih => exact ih hx

end Host.Surfaces

/-- Errors are located once, at the innermost call. Whatever the procedures do, the error of a
script or of an operand, forced at any place, is never a failure of a procedure that has no place:
custom failures, wrapped errors and values of the wrong type are such failures until a call places
them. An error that the procedure of some call returns comes out through all calls around it: a
failure of the procedure with its message and its causes, at the trimmed span of that call in the
script that the call is part of, and any other error as it is. The operands that a call hands to its
procedure are part of the same script as the call. -/
theorem errors_located_once (host : Host κ) (w : World κ) :
    (∀ p e w', w.run host p = .reply (.error e) w' → e.kind ≠ .procedure) ∧
    (∀ x place e w', w.forceAt host x place = .reply (.error e) w' → e.kind ≠ .procedure) ∧
    (∀ message, (Error.custom message).kind = .procedure) ∧
    (∀ e : Error, e.wrap.kind = .procedure) ∧
    (∀ expected (v : Value κ) e, v.ofType expected = .error e → e.kind = .procedure) ∧
    (∀ source p form e origin call, Program.compile source = .ok p → p.body = .ok form →
      host.Surfaces (w.context.maxDepth - w.context.depth + 1) source form w e origin call →
      ∃ e' w', w.run host p = .reply (.error e') w' ∧ e.ComesOutAs origin call.span e' ∧
        call.IsExpressionOf origin) ∧
    (∀ x place e origin call, x.form.IsPartOf x.source → x.owner = w.context.id →
      w.context.arena.isLive (Place.base x place) = true →
      w.context.arena.isLive w.context.arena.active = true →
      host.Surfaces (w.context.maxDepth - w.context.depth + 1) x.source x.form (w.opened x place)
        e origin call →
      ∃ e' w', w.forceAt host x place = .reply (.error e') w' ∧
        e.ComesOutAs origin call.span e' ∧ call.IsExpressionOf origin) ∧
    ∀ source operator items span (given : Call κ),
      Form.IsPartOf (.call operator items span) source →
      Form.collect source w.context items ⟨[], ∅⟩ = .ok given →
      ∀ x ∈ given.operands, x.form.IsPartOf x.source := by
  refine ⟨fun p e w' h => ?_, fun x place e w' h => ?_, fun _ => rfl, fun _ => rfl,
    fun expected v e => Value.kind_of_ofType_error,
    fun source p form e origin call hp hform h => ?_,
    fun x place e origin call hx howner hbase hactive h => ?_,
    fun source operator items span given hcall hgiven x hx => hcall.of_collect hgiven hx⟩
  · unfold World.run at h
    split at h
    · cases h
    · exact Form.evalWithin_located host _ _ _ w e w' h
  · obtain ⟨v, hv⟩ := World.exists_of_force h
    exact Form.evalWithin_located host _ _ _ _ e v hv
  · obtain ⟨e', w', hw', hout⟩ := h.exists_reply
    refine ⟨e', w', ?_, hout, h.isExpressionOf ⟨p, form, hp, hform, .inl rfl⟩⟩
    obtain ⟨_, _, _, _, -, rfl⟩ := Program.exists_scriptAt_of_compile hp
    unfold World.run
    rw [hform]
    exact hw'
  · obtain ⟨e', v, hv, hout⟩ := h.exists_reply
    obtain ⟨w', hw'⟩ :=
      World.exists_force_eq (Form.evalWithin_brackets host _) howner hbase hactive hv
    exact ⟨e', w', hw', hout, h.isExpressionOf hx⟩

/-- A call without operands, and a blank after it. -/
def Source.nullaryCall (name : String) : Source := ⟨name, String.ofList ['(', 't', ')', ' ']⟩

def Form.nullaryCall : Form := .call ⟨String.ofList ['t'], ⟨1, 2⟩⟩ [] ⟨0, 3⟩

theorem Program.compile_nullaryCall (name : String) : ∃ forest,
    compile (.nullaryCall name) = .ok ⟨.nullaryCall name, forest, .ok .nullaryCall⟩ := by
  have hopen : Cursor.Clear ⟨['(', 't', ')', ' '], 0⟩ := fun c hc => by cases hc; rfl
  have hname : Cursor.Clear ⟨['t', ')', ' '], 1⟩ := fun c hc => by cases hc; rfl
  have hclose : Cursor.Clear ⟨[')', ' '], 2⟩ := fun c hc => by cases hc; rfl
  have hblank : Spaced ⟨[' '], 3⟩ ⟨[], 4⟩ :=
    ⟨[' '], ⟨rfl, rfl⟩, .blank rfl (.nil fun c hc => nomatch hc)⟩
  have hoperator : NameAt ['t'] ⟨['t', ')', ' '], 1⟩ ⟨[')', ' '], 2⟩ ⟨[')', ' '], 2⟩ :=
    ⟨rfl, ⟨rfl, rfl⟩, fun c hc => by cases hc; rfl, .refl hclose⟩
  have hvalue : Written (· < maxNesting) 0 .value ⟨['(', 't', ')', ' '], 0⟩ ⟨[], 4⟩ _
      [.operand .nullaryCall] :=
    .call (by decide) ⟨rfl, rfl⟩ (.refl hname) hoperator (.nil rfl) ⟨rfl, rfl⟩ hblank
  have hchars : (Source.nullaryCall name).chars = ['(', 't', ')', ' '] := String.toList_ofList
  have hscript : ScriptAt ['(', 't', ')', ' '] ⟨['(', 't', ')', ' '], 0⟩ ⟨[], 4⟩ _ .nullaryCall :=
    ⟨.refl hopen, hvalue, rfl⟩
  rw [← hchars] at hscript
  exact ⟨_, compile_eq_ok hscript⟩

/-- The call, written in the inner one of two scopes. -/
def Operand.nullaryCall : Operand := ⟨.nullaryCall "body", .nullaryCall, ⟨1, 1⟩, 0⟩

/-- In the outer scope the call runs a closure over the call of another script. That one stands in
the inner scope, where it moves the counter of a host that cannot be reached. -/
def World.closureOverTick : World Builtin :=
  let outer := Bindings.ofList [("t", .procedure ⟨0, .closure [], [.nullaryCall]⟩)]
  let inner := Bindings.ofList [("t", .procedure ⟨1, .tick, []⟩)]
  ⟨⟨0, (Arena.ofRoot outer).pushed .root inner, 0, 4, .absent⟩, .fresh, 2⟩

/-- The failure of the inner call has its place in the inner script. -/
theorem errors_located_once_closure :
    ∃ p e w, Program.compile (.nullaryCall "script") = .ok p ∧
      World.closureOverTick.run Library.host p = .reply (.error e) w ∧ e.kind = .evaluate ∧
      e.message = "no user data" ∧ e.causes = [] ∧
      e.site? = some ⟨.nullaryCall "body", ⟨0, 3⟩, none⟩ ∧
      Form.nullaryCall.IsExpressionOf (.nullaryCall "body") := by
  obtain ⟨forest, hp⟩ := Program.compile_nullaryCall "script"
  obtain ⟨forest', hbody⟩ := Program.compile_nullaryCall "body"
  have hinner : Library.host.Surfaces 4 (.nullaryCall "body") .nullaryCall
      (World.closureOverTick.enter.opened .nullaryCall (.layered (Bindings.ofList [])))
      (.custom "no user data") (.nullaryCall "body") .nullaryCall :=
    .returned ⟨by decide, rfl, rfl⟩ rfl
  have hforce : ∃ v, World.closureOverTick.enter.force (Form.evalWithin Library.host 4)
      .nullaryCall (.layered (Bindings.ofList [])) = .reply (.error
        ((Error.custom "no user data").locate (.nullaryCall "body") ⟨0, 3⟩)) v := ⟨_, rfl⟩
  obtain ⟨v, hv⟩ := hforce
  have houter : Library.host.Surfaces 5 (.nullaryCall "script") .nullaryCall World.closureOverTick
      (.custom "no user data") (.nullaryCall "body") .nullaryCall :=
    .passed ⟨_, _, hbody, rfl, .inl rfl⟩ hinner hv ⟨by decide, rfl, rfl⟩ rfl
  obtain ⟨-, -, -, -, -, hrun, -⟩ := errors_located_once Library.host World.closureOverTick
  obtain ⟨e, w, hreply, hout, hexpression⟩ := hrun _ _ _ _ _ _ hp rfl houter
  obtain ⟨hkind, hmessage, hcauses, hsite⟩ := hout.raised rfl
  exact ⟨_, e, w, hp, hreply, hkind, hmessage, hcauses, hsite, hexpression⟩

end Fexpr
