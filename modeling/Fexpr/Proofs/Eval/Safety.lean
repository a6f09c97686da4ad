import Fexpr.Eval
import Fexpr.Proofs.Form.Reading

/-!
# Accepted scripts are evaluated without a fault

The tree of an accepted text has everything that evaluation looks for in it, and every piece of the
source that is cut out on the way is a piece of whole characters (`run_ne_malformed`). Whatever
procedures do, no evaluation of the script or of one of its operands ends because a part of the tree
is missing.
-/

namespace Fexpr

open Text (Span slice?)
open Grammar

variable {κ : Type}

/-- The outcome is not that a part of a tree was missing. -/
def Outcome.Formed (o : Outcome κ) : Prop := ∀ fault, o ≠ .abort (.malformed fault)

namespace Outcome.Formed

theorem reply (r : Reply κ) (w : World κ) : (Outcome.reply r w).Formed := fun _ h => nomatch h

theorem notLive (s : ScopeId) : (Outcome.abort (.notLive s) : Outcome κ).Formed :=
  fun _ h => nomatch h

theorem andThen {o : Outcome κ} {next : Reply κ → World κ → Outcome κ} (ho : o.Formed)
    (hnext : ∀ r w, (next r w).Formed) : (o.andThen next).Formed := by
  cases o with
  | reply r w => exact hnext r w
  | abort a => exact ho

theorem answered {α : Type} {answer : Except ScopeId α} {next : α → Outcome κ}
    (hnext : ∀ a, (next a).Formed) : (Action.answered answer next).Formed := by
  cases answer with
  | error s => exact notLive s
  | ok a => exact hnext a

end Outcome.Formed

/-- The evaluator finds every part that it looks for. -/
def Evaluator.Formed (eval : Evaluator κ) : Prop :=
  ∀ source form w, (eval source form w).Formed

section Runs

open Outcome

variable {eval : Evaluator κ}

theorem World.withChild_formed (w : World κ) (parent : ScopeId) (env : Environment κ)
    {body : ScopeId → World κ → Outcome κ} (hbody : ∀ s w, (body s w).Formed) :
    (w.withChild parent env body).Formed := by
  unfold World.withChild
  dsimp only
  split
  · exact .notLive _
  · exact .andThen (hbody _ _) fun _ _ => .reply _ _

theorem World.evalIn_formed (heval : eval.Formed) (w : World κ) (x : Operand) (s : ScopeId) :
    (w.evalIn eval x s).Formed := by
  unfold World.evalIn
  split
  · exact fun _ h => nomatch h
  · split
    · exact .notLive _
    · refine .andThen (heval _ _ _) fun r w' => ?_
      split
      · exact .notLive _
      · exact .reply _ _

theorem World.force_formed (heval : eval.Formed) (w : World κ) (x : Operand) (place : Place κ) :
    (w.force eval x place).Formed := by
  cases place with
  | own => exact w.evalIn_formed heval x x.scope
  | layered env =>
    change (w.evalLayered eval x env).Formed
    unfold World.evalLayered
    split
    · exact fun _ h => nomatch h
    · exact w.withChild_formed _ _ fun s w' => w'.evalIn_formed heval x s
  | scope s => exact w.evalIn_formed heval x s

/-- Whatever a procedure asks for, no part of a tree is found missing. -/
theorem Action.run_formed (heval : eval.Formed) (a : Action κ) :
    ∀ w, (a.run eval w).Formed := by
  induction a with
  | done v => exact fun w => .reply _ _
  | fail e => exact fun w => .reply _ _
  | force x place next ih =>
    intro w
    rw [Action.run]
    exact .andThen (w.force_formed heval x place) fun r w' => ih r w'
  | lookup id next ih | lookupFrom s id next ih | lookupLocal id next ih | lookupOuter id next ih =>
    intro w
    rw [Action.run]
    exact .answered fun v => ih _ w
  | define id v next ih =>
    intro w
    rw [Action.run]
    exact ih _
  | derive env next ih =>
    intro w
    rw [Action.run]
    exact .answered fun v => ih _ _
  | withDerived env body next ihbody ihnext =>
    intro w
    rw [Action.run]
    exact .andThen (w.withChild_formed _ _ fun s w' => ihbody s w') fun r w' => ihnext _ _ _
  | activeScope next ih | scopeCount next ih | maxDepth next ih | hasData next ih | tick next ih
  | fresh next ih =>
    intro w
    rw [Action.run]
    exact ih _ _
  | emit line next ih | capture name x next ih =>
    intro w
    rw [Action.run]
    exact ih _

theorem Form.Name.value_ne_malformed (source : Source) (arena : Arena κ) (n : Form.Name)
    (fault : Form.Fault) : n.value source arena ≠ .error (.abort (.malformed fault)) := by
  unfold Form.Name.value
  split <;> exact fun h => nomatch h

theorem Form.Atom.value_ne_malformed (source : Source) (arena : Arena κ) (a : Form.Atom)
    (fault : Form.Fault) : a.value source arena ≠ .error (.abort (.malformed fault)) := by
  have hreply : ∀ r : Reply κ, r.mapError Stop.error ≠ .error (.abort (.malformed fault)) := by
    intro r
    cases r <;> exact fun h => nomatch h
  cases a with
  | literal l => exact hreply _
  | name n => exact n.value_ne_malformed source arena fault
  | path base attributes span =>
    have hbase := base.value_ne_malformed source arena fault
    rw [Form.Atom.value]
    split
    next stop hstop => rwa [← hstop]
    · exact hreply _

theorem Form.collect_ne_malformed (source : Source) (c : Context κ) (items : List Form.Item)
    (fault : Form.Fault) :
    ∀ given, Form.collect source c items given ≠ .error (.abort (.malformed fault)) := by
  induction items with
  | nil => exact fun given h => nomatch h
  | cons item items ih =>
    intro given
    cases item with
    | operand f => exact ih _
    | option key chosen =>
      have hchosen := chosen.value_ne_malformed source c.arena fault
      rw [Form.collect]
      split
      next stop hstop =>
        intro h
        cases h
        exact hchosen hstop
      · exact ih _

theorem Form.dispatch_formed (host : Host κ) (heval : eval.Formed) (source : Source)
    (operator : Form.Name) (items : List Form.Item) (span : Span) (w : World κ) :
    (Form.dispatch host eval source operator items span w).Formed := by
  unfold Form.dispatch
  split
  next a ha =>
    intro fault h
    cases h
    exact operator.value_ne_malformed source w.context.arena fault ha
  · exact .reply _ _
  · split
    next a ha =>
      intro fault h
      cases h
      exact Form.collect_ne_malformed source w.context items fault _ ha
    · exact .reply _ _
    · exact .andThen (Action.run_formed heval _ w) fun _ _ => .reply _ _
  · exact .reply _ _

theorem Form.step_formed (host : Host κ) (heval : eval.Formed) :
    Evaluator.Formed (Form.step host eval) := by
  intro source form w
  cases form with
  | atom a =>
    rw [Form.step]
    split
    next abort habort =>
      intro fault h
      cases h
      exact a.value_ne_malformed source w.context.arena fault habort
    · exact .reply _ _
    · exact .reply _ _
  | call operator items span =>
    rw [Form.step]
    split
    · exact .reply _ _
    · exact .andThen (Form.dispatch_formed host heval source operator items span w.enter)
        fun _ _ => .reply _ _

/-- Evaluating forms finds every part, however deep calls may go. -/
theorem Form.evalWithin_formed (host : Host κ) (bound : Nat) :
    (Form.evalWithin host bound).Formed := by
  induction bound with
  | zero => exact fun _ _ _ _ h => nomatch h
  | succ bound ih => exact Form.step_formed host ih

end Runs

/-- What a call hands over are its operands, bound to the active scope. -/
theorem Form.exists_of_mem_collect {source : Source} {c : Context κ} {items : List Form.Item}
    {given given' : Call κ} (h : Form.collect source c items given = .ok given') {x : Operand}
    (hx : x ∈ given'.operands) :
    x ∈ given.operands ∨ ∃ f, .operand f ∈ items ∧ x = ⟨source, f, c.arena.active, c.id⟩ := by
  induction items generalizing given with
  | nil =>
    cases h
    exact .inl hx
  | cons item items ih =>
    have hlater : (∃ f, .operand f ∈ items ∧ x = ⟨source, f, c.arena.active, c.id⟩) →
        ∃ f, .operand f ∈ item :: items ∧ x = ⟨source, f, c.arena.active, c.id⟩ := by
      rintro ⟨f, hf, rfl⟩
      exact ⟨f, List.mem_cons_of_mem item hf, rfl⟩
    cases item with
    | operand f =>
      rw [Form.collect] at h
      rcases ih h with hx | hx
      · rcases List.mem_append.mp hx with hx | hx
        · exact .inl hx
        · exact .inr ⟨f, List.mem_cons_self, List.mem_singleton.mp hx⟩
      · exact .inr (hlater hx)
    | option key chosen =>
      rw [Form.collect] at h
      split at h
      · cases h
      · rcases ih h with hx | hx
        · exact .inl hx
        · exact .inr (hlater hx)

/-- An accepted text compiles to a licensed tree of whole characters and the form it stands for. -/
theorem Program.exists_of_compile {source : Source} {p : Program}
    (h : Program.compile source = .ok p) :
    ∃ tree form, p = ⟨source, [tree], .ok form⟩ ∧ tree.Licensed ∧ tree.Sliceable source.chars ∧
      Form.ofTree source.chars tree = .ok form := by
  unfold Program.compile at h
  dsimp only at h
  split at h
  · cases h
  next tokens hmatch =>
    obtain ⟨us, hd, hnested, rfl, hslice⟩ := exists_tree_of_matchScript hmatch
    have hpos : 0 < Text.byteSize source.chars := hnested.start_lt_stop
    generalize htree : Tree.node .script ⟨0, Text.byteSize source.chars⟩ (Tree.prunes us) = tree
      at hnested hslice h
    have hl : tree.Licensed := by
      refine hd.licensed_prunes tree ?_
      rw [Tree.prunes_node (Nat.ne_of_lt hpos), htree]
      exact List.mem_singleton.mpr rfl
    have hrule : tree.rule = .script := by
      rw [← htree]
      rfl
    obtain ⟨form, hform, _⟩ := Form.ofTree_eq_ok hl hslice (.inl hrule)
    rw [Forest.ofTokens_postorder hnested] at h
    simp only [Forest.root?, List.head?_cons, hform, Except.ok.injEq] at h
    exact ⟨tree, form, h.symm, hl, hslice, hform⟩

/-- An accepted script is evaluated without a fault. It has a tree and a form. The text, the
significant text and the trimmed text of every node can be cut out of the source. Every operand that
a call of the script, at whatever depth, hands to its procedure is the content of a value of the
tree, which is read without a fault and whose text can be cut out. And neither the evaluation of the
script, nor that of an operand at any place, in any world and with any procedures, ends because a
part of a tree is missing. -/
theorem run_ne_malformed {source : Source} {p : Program} (h : Program.compile source = .ok p) :
    ∃ tree form, p.tree? = some tree ∧ p.body = .ok form ∧
      (∀ u ∈ tree.nodes, (slice? source.chars u.span).isSome = true ∧
        (slice? source.chars u.significantSpan).isSome = true ∧
        (slice? source.chars (u.trimmedSpan source.chars)).isSome = true) ∧
      (∀ (κ : Type) (c : Context κ) (operator : Form.Name) (items : List Form.Item) (span : Span)
        (given : Call κ), (form = .call operator items span ∨
          form.Hands (.call operator items span)) →
        Form.collect source c items ⟨[], ∅⟩ = .ok given → ∀ x ∈ given.operands,
          form.Hands x.form ∧ x.source = source) ∧
      (∀ f, form.Hands f → (slice? source.chars f.span).isSome = true ∧
        ∃ u, Form.IsOperandNode tree u ∧ Form.ofTree source.chars u = .ok f) ∧
      ∀ (κ : Type) (host : Host κ) (w : World κ) (fault : Form.Fault),
        w.run host p ≠ .abort (.malformed fault) ∧
        ∀ (x : Operand) (place : Place κ), w.forceAt host x place ≠ .abort (.malformed fault) := by
  obtain ⟨tree, form, rfl, hl, hs, hform⟩ := Program.exists_of_compile h
  refine ⟨tree, form, rfl, rfl, ?_, ?_, ?_, ?_⟩
  · intro u hu
    have hsu : u.Sliceable source.chars := fun v hv => hs v (Tree.mem_nodes_trans hu hv)
    exact ⟨hs u hu, Tree.slice?_significantSpan_isSome hsu, Tree.slice?_trimmedSpan_isSome hsu⟩
  · intro κ c operator items span given hcall hgiven x hx
    rcases Form.exists_of_mem_collect hgiven hx with hx | ⟨f, hf, rfl⟩
    · cases hx
    · refine ⟨?_, rfl⟩
      rcases hcall with rfl | hcall
      · exact .operand hf
      · exact hcall.trans (.operand hf)
  · intro f hf
    obtain ⟨u, hu, hread⟩ := Form.exists_node_of_hands hform hf
    obtain ⟨f', hread', hspan⟩ := hu.ofTree_eq_ok hl hs
    cases hread.symm.trans hread'
    exact ⟨hspan, u, hu, hread⟩
  · intro κ host w fault
    constructor
    · exact Form.evalWithin_formed host _ _ _ _ fault
    · intro x place
      exact World.force_formed (Form.evalWithin_formed host _) w x place fault

/-- A call with a path, an option, a call inside it, comments and characters of several bytes. -/
theorem run_ne_malformed_call :
    ∃ p tree form, Program.compile ⟨"script", "; ä\n(F x.y ; é\n #:k 1 (G \"é\")) "⟩ = .ok p ∧
      p.tree? = some tree ∧ p.body = .ok form ∧
      ∀ (κ : Type) (host : Host κ) (w : World κ) (fault : Form.Fault),
        w.run host p ≠ .abort (.malformed fault) := by
  have hok : (Program.compile
      ⟨"script", "; ä\n(F x.y ; é\n #:k 1 (G \"é\")) "⟩).toOption.isSome = true := by
    decide +kernel
  obtain ⟨p, hp⟩ := Option.isSome_iff_exists.mp hok
  have hp := Program.compile_eq_ok_of_toOption hp
  obtain ⟨tree, form, htree, hform, -, -, -, hrun⟩ := run_ne_malformed hp
  exact ⟨p, tree, form, hp, htree, hform, fun κ host w fault => (hrun κ host w fault).1⟩

end Fexpr
