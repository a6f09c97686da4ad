import Fexpr.Proofs.Eval.Dispatch
import Fexpr.Proofs.Eval.Parts
import Fexpr.Proofs.Form.Marks
import Fexpr.Proofs.Text.Position

/-!
# Errors point at their causes

Errors that the evaluator makes itself, and does not pass on from a procedure, tell what was wrong
with the form that was being evaluated (`Form.Blames`): a name that was looked up for it is bound
nowhere, or it failed at one of its marks. The places that they name are those of nodes in the tree
of the script that the form is written in. All of this holds at every evaluation on the way of a
script, whichever scripts the operands come from (`errors_point_at_causes`).
-/

namespace Fexpr

open Text (Span byteSize)
open Grammar (isWord)

variable {κ : Type}

/-! ## What is wrong with a form -/

namespace Form

/-- The evaluation of the form in the environments gets as far as looking the name up. The operator
of a call is looked up first. The values of the options follow in order, if it is a procedure and
those before have values. -/
inductive LooksUp (source : Source) (envs : List (Environment κ)) : Form → Name → Prop
  | name (n : Name) : LooksUp source envs (.atom (.name n)) n
  | base (base : Name) (attributes : List Attribute) (span : Span) :
    LooksUp source envs (.atom (.path base attributes span)) base
  | operator (operator : Name) (items : List Item) (span : Span) :
    LooksUp source envs (.call operator items span) operator
  | option {operator n : Name} {items : List Item} {span : Span} {p : Procedure κ}
    {before after : List (Name × Atom)} {o : Name × Atom}
    (hoperator : Lexical.nameValue source envs operator = .ok (.procedure p))
    (hoptions : items.filterMap Item.option? = before ++ o :: after)
    (hbefore : ∀ o' ∈ before, ∃ v, Lexical.atomValue source envs o'.2 = .ok v)
    (h : LooksUp source envs (.atom o.2) n) : LooksUp source envs (.call operator items span) n

/-- What the error says is wrong with the form: a name that is looked up for it is bound in none of
the environments, or it fails at one of its marks. -/
inductive Blames (source : Source) (envs : List (Environment κ)) (form : Form) : Error → Prop
  | unbound {n : Name} (hlooks : form.LooksUp source envs n)
    (hnone : ∀ env ∈ envs, env.find? n.text = none) :
    Blames source envs form (.unbound n.text ⟨source, n.span, none⟩)
  | failed {span : Span} (problem : Problem) (hspan : span ∈ form.marks) :
    Blames source envs form (.failed problem ⟨source, span, none⟩)

variable {source : Source} {envs : List (Environment κ)}

theorem LooksUp.mem_names {form : Form} {n : Name} (h : form.LooksUp source envs n) :
    n ∈ form.names := by
  induction h with
  | name | base => exact List.mem_singleton.mpr rfl
  | operator => exact List.mem_cons_self
  | option _ hoptions _ _ ih =>
    refine List.mem_cons_of_mem _ (List.mem_flatMap.mpr ⟨_, ?_, ih⟩)
    rw [hoptions]
    exact List.mem_append_right _ List.mem_cons_self

theorem Literal.exists_of_value_error {l : Literal} {e : Error}
    (h : (l.value source : Reply κ) = .error e) :
    ∃ problem, e = .failed problem ⟨source, l.span, none⟩ := by
  obtain ⟨kind, text, span⟩ := l
  cases kind with
  | nil | bool | longString => cases h
  | integer =>
    rw [Literal.value] at h
    dsimp only at h
    split at h
    · cases h
    · cases h
    · cases h
      exact ⟨_, rfl⟩
  | float | string =>
    rw [Literal.value] at h
    dsimp only at h
    split at h
    · cases h
    · cases h
      exact ⟨_, rfl⟩

theorem exists_of_follow_error {attributes : List Attribute} {v : Value κ} {e : Error}
    (h : follow source attributes v = .error e) :
    ∃ a ∈ attributes, ∃ problem, e = .failed problem ⟨source, a.span, none⟩ := by
  induction attributes generalizing v with
  | nil => cases h
  | cons a attributes ih =>
    rw [follow] at h
    split at h
    · obtain ⟨a', ha', he⟩ := ih h
      exact ⟨a', List.mem_cons_of_mem a ha', he⟩
    all_goals
      cases h
      exact ⟨a, List.mem_cons_self, _, rfl⟩

theorem eq_unbound_of_nameValue {n : Name} {e : Error}
    (h : Lexical.nameValue source envs n = .error e) :
    e = .unbound n.text ⟨source, n.span, none⟩ ∧ ∀ env ∈ envs, env.find? n.text = none := by
  unfold Lexical.nameValue at h
  split at h
  next hfind =>
    cases h
    exact ⟨rfl, List.findSome?_eq_none_iff.mp hfind⟩
  · cases h

theorem blames_of_atomValue {a : Atom} {e : Error}
    (h : Lexical.atomValue source envs a = .error e) : (Form.atom a).Blames source envs e := by
  cases a with
  | literal l =>
    obtain ⟨problem, rfl⟩ := l.exists_of_value_error h
    exact .failed problem (List.mem_singleton.mpr rfl)
  | name n =>
    obtain ⟨rfl, hnone⟩ := eq_unbound_of_nameValue h
    exact .unbound (.name n) hnone
  | path base attributes span =>
    rw [Lexical.atomValue] at h
    cases hbase : Lexical.nameValue source envs base with
    | error e' =>
      rw [hbase] at h
      cases h
      obtain ⟨rfl, hnone⟩ := eq_unbound_of_nameValue hbase
      exact .unbound (.base base attributes span) hnone
    | ok v =>
      rw [hbase] at h
      obtain ⟨a, ha, problem, rfl⟩ := exists_of_follow_error h
      exact .failed problem (List.mem_map_of_mem ha)

/-- If the options of a call give an error, it is that of the first one without a value. -/
theorem exists_of_collect_error {c : Context κ} (hchain : c.arena.Chain c.arena.active envs)
    {items : List Item} {given : Call κ} {e : Error}
    (h : collect source c items given = .error (.error e)) :
    ∃ before o after, items.filterMap Item.option? = before ++ o :: after ∧
      (∀ o' ∈ before, ∃ v, Lexical.atomValue source envs o'.2 = .ok v) ∧
      Lexical.atomValue source envs o.2 = .error e := by
  induction items generalizing given with
  | nil => cases h
  | cons item items ih =>
    cases item with
    | operand f => exact ih h
    | option key chosen =>
      rw [collect, chosen.value_eq_lexical hchain] at h
      cases hvalue : Lexical.atomValue source envs chosen with
      | error e' =>
        rw [hvalue] at h
        cases h
        exact ⟨[], (key, chosen), _, rfl, List.forall_mem_nil _, hvalue⟩
      | ok v =>
        rw [hvalue] at h
        obtain ⟨before, o, after, hoptions, hbefore, ho⟩ := ih h
        refine ⟨(key, chosen) :: before, o, after, ?_, ?_, ho⟩
        · exact congrArg (List.cons (key, chosen)) hoptions
        · exact List.forall_mem_cons.mpr ⟨⟨v, hvalue⟩, hbefore⟩

/-- What is wrong with the value of an option is wrong with the call. -/
theorem Blames.option {operator : Name} {items : List Item} {span : Span} {p : Procedure κ}
    {before after : List (Name × Atom)} {o : Name × Atom} {e : Error}
    (h : (Form.atom o.2).Blames source envs e)
    (hoperator : Lexical.nameValue source envs operator = .ok (.procedure p))
    (hoptions : items.filterMap Item.option? = before ++ o :: after)
    (hbefore : ∀ o' ∈ before, ∃ v, Lexical.atomValue source envs o'.2 = .ok v) :
    (Form.call operator items span).Blames source envs e := by
  cases h with
  | unbound hlooks hnone => exact .unbound (.option hoperator hoptions hbefore hlooks) hnone
  | failed problem hspan =>
    refine .failed problem (List.mem_cons_of_mem _ (List.mem_flatMap.mpr ⟨o, ?_, hspan⟩))
    rw [hoptions]
    exact List.mem_append_right _ List.mem_cons_self

end Form

/-! ## Errors that the evaluator makes -/

/-- Evaluating the form replies the error, and no procedure that the form calls has replied it. -/
structure World.Produces (host : Host κ) (w : World κ) (source : Source) (form : Form)
    (e : Error) : Prop where
  reply : ∃ w', w.evaluator host source form w = .reply (.error e) w'
  made : ∀ p given w', w.CallsWith host source form p given →
    (host p given).run (w.enter.evaluator host) w.enter ≠ .reply (.error e) w'

namespace World.Produces

variable {host : Host κ} {w : World κ} {source : Source} {e : Error}
  {envs : List (Environment κ)}

/-- What a procedure replies is an error of the evaluator only if it was given its place. -/
theorem blames_of_callsWith {operator : Form.Name} {items : List Form.Item} {span : Span}
    {p : Procedure κ} {given : Call κ}
    (h : w.Produces host source (.call operator items span) e)
    (hcalls : w.CallsWith host source (.call operator items span) p given) :
    (Form.call operator items span).Blames source envs e := by
  obtain ⟨w', hreply⟩ := h.reply
  rw [hcalls.outcome] at hreply
  cases hrun : (host p given).run (w.enter.evaluator host) w.enter with
  | abort a =>
    rw [hrun] at hreply
    cases hreply
  | reply r u =>
    rw [hrun] at hreply
    cases r with
    | ok v => cases hreply
    | error e' =>
      have hlocate : e'.locate source span = e := Except.error.inj (Outcome.reply.inj hreply).1
      cases e' with
      | raised message causes =>
        rw [← hlocate]
        exact .failed _ List.mem_cons_self
      | _ =>
        obtain rfl : _ = e := hlocate
        exact absurd hrun (h.made p given u hcalls)

theorem blames {form : Form} (h : w.Produces host source form e)
    (hchain : w.context.arena.Chain w.context.arena.active envs) :
    form.Blames source envs e := by
  obtain ⟨w', hreply⟩ := h.reply
  cases form with
  | atom a =>
    refine Form.blames_of_atomValue ?_
    have hstep : w.evaluator host source (.atom a) w =
        .reply (Lexical.atomValue source envs a) w := by
      rw [World.evaluator, Form.evalWithin, Form.step, a.value_eq_lexical hchain]
      cases Lexical.atomValue source envs a <;> rfl
    rw [hstep] at hreply
    exact (Outcome.reply.inj hreply).1
  | call operator items span =>
    by_cases hdepth : w.context.maxDepth ≤ w.context.depth
    · rw [(Form.failsUncalled_of_limit hdepth).outcome] at hreply
      cases hreply
      exact .failed _ List.mem_cons_self
    have hdepth := Nat.lt_of_not_le hdepth
    have henter : w.enter.context.arena.Chain w.enter.context.arena.active envs := hchain
    -- If the request fails, then its error comes out and no procedure is called.
    have huncalled : ∀ {e'}, Form.request host source operator items span w.enter.context =
        .error (.error e') → e' = e := by
      intro e' hrequest
      rw [(Form.failsUncalled_of_request hdepth hrequest).outcome] at hreply
      cases hreply
      rfl
    cases hfind : envs.findSome? (·.find? operator.text) with
    | none =>
      obtain rfl := huncalled (Form.request_of_unbound host henter hfind)
      exact .unbound (.operator operator items span) (List.findSome?_eq_none_iff.mp hfind)
    | some v =>
      by_cases hv : ∃ q, v = .procedure q
      · obtain ⟨q, rfl⟩ := hv
        have hrequest : Form.request host source operator items span w.enter.context =
            (Form.collect source w.enter.context items ⟨[], ∅⟩).map (host q) :=
          Form.request_of_procedure host henter hfind
        have hoperator : Lexical.nameValue source envs operator = .ok (.procedure q) := by
          rw [Lexical.nameValue, hfind]
        rcases Form.collect_cases source henter items with
          ⟨e', hcollect, -⟩ | ⟨given, hcollect, -⟩
        · rw [hcollect] at hrequest
          obtain rfl := huncalled hrequest
          obtain ⟨before, o, after, hoptions, hbefore, ho⟩ :=
            Form.exists_of_collect_error henter hcollect
          exact (Form.blames_of_atomValue ho).option hoperator hoptions hbefore
        · rw [hcollect] at hrequest
          exact h.blames_of_callsWith (Form.callsWith_of_request hdepth hrequest)
      · have hother : ∀ q, v ≠ .procedure q := fun q hq => hv ⟨q, hq⟩
        obtain rfl := huncalled (Form.request_of_not_procedure host henter hfind hother)
        exact .failed _ List.mem_cons_self

end World.Produces

/-! ## Places of errors -/

/-- The text stands at the site, and the location of the site counts the lines and the columns, from
one on, of what comes before the two ends of the text. -/
def Site.PointsAt (site : Site) (text : List Char) : Prop :=
  ∃ pre post, site.source.chars = pre ++ (text ++ post) ∧
    site.span = ⟨byteSize pre, byteSize (pre ++ text)⟩ ∧
    site.location = ⟨.behind pre, .behind (pre ++ text)⟩

/-- A span that can be cut out points at what is cut out. -/
theorem Site.pointsAt_of_slice? {source : Source} {span : Span} {text : List Char}
    (h : Text.slice? source.chars span = some text) (help : Option String) :
    Site.PointsAt ⟨source, span, help⟩ text := by
  obtain ⟨pre, post, hchars, hstart, hstop⟩ := Text.slice?_eq_some_iff.mp h
  obtain ⟨start, stop⟩ := span
  obtain rfl : start = byteSize pre := hstart
  obtain rfl : stop = byteSize pre + byteSize text := hstop
  refine ⟨pre, post, hchars, by rw [Text.byteSize_append], ?_⟩
  rw [Site.location, Source.locate, hchars]
  exact Text.Location.of_slice rfl rfl

/-- The error points at what was wrong when the form was evaluated in the environments. The form is
what the node `u` of its script stands for. -/
inductive Error.PointsAtCause (source : Source) (form : Form) (u : Tree)
    (envs : List (Environment κ)) : Error → Prop
  /-- The evaluation came to look a name up that is bound in none of the environments. The site is
  that of an identifier under the node, and the text there is the name, which is a word. -/
  | unbound {name : Form.Name} {v : Tree} (hlooks : form.LooksUp source envs name)
    (hnone : ∀ env ∈ envs, env.find? name.text = none) (hv : v ∈ u.nodes)
    (hrule : v.rule = .identifier) (hat : name.IsAt source v)
    (hword : isWord name.text.toList = true)
    (hsite : Site.PointsAt ⟨source, name.span, none⟩ name.text.toList) :
    PointsAtCause source form u envs (.unbound name.text ⟨source, name.span, none⟩)
  /-- The form failed. The site is the trimmed span of a node, and the text there is not empty. -/
  | failed {v : Tree} {text : List Char} (problem : Problem) (hv : v ∈ u.nodes) (hne : text ≠ [])
    (hsite : Site.PointsAt ⟨source, v.trimmedSpan source.chars, none⟩ text) :
    PointsAtCause source form u envs
      (.failed problem ⟨source, v.trimmedSpan source.chars, none⟩)

/-- What is part of a script stands at a node of its tree, and so does what errors name. -/
theorem Form.IsPartOf.exists_marks {form : Form} {source : Source} (h : form.IsPartOf source) :
    ∃ p tree u, Program.compile source = .ok p ∧ p.tree? = some tree ∧
      tree.Sliceable source.chars ∧ u ∈ tree.nodes ∧ form.IsAt source u ∧
      (∀ name ∈ form.names, name.StandsIn source u) ∧ ∀ s ∈ form.marks, u.Marks source s := by
  obtain ⟨p, i, t, tree, n, k, l, us, hp, htree, hprunes, hk, hus, hsub⟩ := h.exists_written
  obtain ⟨v, u, hv, hu, hat, hstands, hmarks⟩ := hus.marks hk
  obtain ⟨w, hw, hvw⟩ := hsub v (by rw [hv]; exact List.mem_singleton.mpr rfl)
  have hslices : tree.Sliceable source.chars := by
    obtain ⟨tree', form', rfl, -, hslices, -⟩ := Program.exists_of_compile hp
    obtain rfl : tree' = tree := Option.some.inj htree
    exact hslices
  have hwt := Grammar.mem_nodes_of_scriptNode hprunes hw
  exact ⟨p, tree, u, hp, htree, hslices, Tree.mem_nodes_trans hwt (Tree.mem_nodes_trans hvw hu),
    hat, hstands, hmarks⟩

/-- What is wrong with a form that stands at a node is told with its place. -/
theorem Form.Blames.pointsAtCause {source : Source} {envs : List (Environment κ)} {form : Form}
    {e : Error} {tree u : Tree} (h : form.Blames source envs e)
    (hslices : tree.Sliceable source.chars) (hu : u ∈ tree.nodes)
    (hstands : ∀ name ∈ form.names, name.StandsIn source u)
    (hmarks : ∀ s ∈ form.marks, u.Marks source s) : e.PointsAtCause source form u envs := by
  have hslice : ∀ v ∈ u.nodes, ∃ text,
      Text.slice? source.chars (v.trimmedSpan source.chars) = some text := by
    intro v hv
    refine Option.isSome_iff_exists.mp (Tree.slice?_trimmedSpan_isSome fun w hw => ?_)
    exact hslices w (Tree.mem_nodes_trans hu (Tree.mem_nodes_trans hv hw))
  cases h with
  | @unbound name hlooks hnone =>
    obtain ⟨hword, v, hv, hrule, hat⟩ := hstands name hlooks.mem_names
    obtain ⟨text, htext⟩ := hslice v hv
    rw [← hat.span] at htext
    have hname : name.text.toList = text := by
      rw [hat.text, Source.slice, String.toList_ofList, Text.slice, htext, Option.getD_some]
    refine .unbound hlooks hnone hv hrule hat hword (Site.pointsAt_of_slice? ?_ none)
    rw [hname, htext]
  | @failed span problem hspan =>
    obtain ⟨hlt, v, hv, rfl⟩ := hmarks span hspan
    obtain ⟨text, htext⟩ := hslice v hv
    refine .failed problem hv (fun hnil => ?_) (Site.pointsAt_of_slice? htext none)
    -- Nothing is cut out only between two ends that are the same.
    obtain ⟨pre, post, -, hstart, hstop⟩ := Text.slice?_eq_some_iff.mp htext
    rw [hnil, Text.byteSize_nil] at hstop
    omega

/-! ## Every evaluation on the way -/

/-- If a form begins to be evaluated here, it is what a node of an accepted script stands for, and
each error that the evaluator makes of it points at its cause. The environments are those from the
active scope outwards. -/
def Sight.PointsAtCauses (host : Host κ) (s : Sight κ) : Prop :=
  ∀ source form e, s.event = .begins source form → s.world.Produces host source form e →
    ∃ p tree u envs, Program.compile source = .ok p ∧ p.tree? = some tree ∧ u ∈ tree.nodes ∧
      form.IsAt source u ∧ s.world.context.arena.Chain s.world.context.arena.active envs ∧
      e.PointsAtCause source form u envs

theorem Traced.OfScripts.pointsAtCauses {t : Traced κ} (h : t.OfScripts) (host : Host κ) :
    ∀ s ∈ t.sights, s.PointsAtCauses host := by
  intro s hs source form e hevent hproduces
  obtain ⟨hform, hworld⟩ := h.sights s hs source form hevent
  obtain ⟨p, tree, u, hp, htree, hslices, hu, hat, hstands, hmarks⟩ := hform.exists_marks
  obtain ⟨envs, hchain⟩ := hworld.arena.exists_active_chain
  exact ⟨p, tree, u, envs, hp, htree, hu, hat, hchain,
    (hproduces.blames hchain).pointsAtCause hslices hu hstands hmarks⟩

/-- Errors point at their causes. Take a moment of a context at which all operands that are alive
are written in accepted scripts, and evaluate a script, or one of the operands at any place.
Whenever a form is evaluated on the way, and an error comes out that no procedure called for it has
replied, the error says one of two things. Either a name is unbound: the evaluation came to look it
up, it is bound in no environment from the active scope outwards, and the site is that of the
identifier, with exactly the name as its text. Or the form failed: the site is the trimmed span of a
node, with a text that is not empty. The source of the site is that of the form, and its location
has the lines and columns of the two ends. -/
theorem errors_point_at_causes {S : Set ScopeId} {host : Host κ} (hhost : host.UsesOnly S)
    {m : Moment κ} (hm : m.Reachable) (hwritten : ∀ x, m.Alive x → x.IsWritten) :
    (∀ source p, Program.compile source = .ok p →
      ∀ s ∈ (m.world.trace host m.pending p).sights, s.PointsAtCauses host) ∧
    ∀ x place xs, m.Alive x → (∀ y ∈ xs, m.Alive y) → Place.UsesOnly xs Set.univ place →
      ∀ s ∈ (m.world.traceAt host m.pending x place).sights, s.PointsAtCauses host := by
  have hworld : m.world.OfScripts :=
    ⟨hm.wellScoped.arena, fun x hx => hwritten x (.inr hx),
      fun x hx => hwritten x (.inl (List.mem_append_right _ hx))⟩
  constructor
  · intro source p hp
    exact (hworld.trace hhost m.pending hp).pointsAtCauses host
  · intro x place xs hx hxs hplace
    exact (hworld.traceAt hhost m.pending (hwritten x hx) (fun y hy => hwritten y (hxs y hy))
      hplace).pointsAtCauses host

/-- A block whose second operand is not bound. Characters of several bytes stand before it, also in
a comment, and a comment stands after it. -/
def Source.missingOperand : Source := ⟨"script", "; é\n(f \"é\" missing ; c\n)"⟩

/-- A new context in which the operator is bound to the block. -/
def Moment.missingOperand : Moment Builtin :=
  ⟨⟨Context.new 0 (Bindings.ofList [("f", .procedure ⟨0, .block, []⟩)]) 8 .absent, .fresh, 1⟩,
    [], [], []⟩

theorem Moment.missingOperand_not_alive (x : Operand) : ¬ Moment.missingOperand.Alive x := by
  intro hx
  rcases hx with hx | hx <;> cases hx

theorem Moment.missingOperand_reachable : Moment.missingOperand.Reachable := by
  refine ⟨_, _, ⟨0, _, 8, .absent, rfl, fun x hx => ?_, rfl, rfl⟩, .stop _⟩
  cases hx

/-- The name that begins to be evaluated, if it is bound nowhere, with the source and its place. -/
def Sight.unboundName? (s : Sight κ) : Option (String × String × String × Nat × Nat) :=
  match s.event with
  | .begins source (.atom (.name n)) =>
    match s.world.context.arena.lookup n.text with
    | .ok none => some (source.name, source.text, n.text, n.span.start, n.span.stop)
    | _ => none
  | _ => none

/-- An atom calls no procedure. -/
theorem World.not_callsWith_atom {host : Host κ} {w : World κ} {source : Source} {a : Form.Atom}
    {p : Procedure κ} {given : Call κ} : ¬ w.CallsWith host source (.atom a) p given := by
  intro h
  obtain ⟨rest, hrest⟩ := h.called []
  rw [World.tracer, Form.traceWithin, Form.traceStep] at hrest
  have hsights := (List.cons.inj hrest).2
  cases hvalue : a.value source w.context.arena with
  | ok v =>
    rw [hvalue] at hsights
    cases hsights
  | error stop =>
    rw [hvalue] at hsights
    cases stop <;> cases hsights

/-- An unbound name makes an error. -/
theorem Sight.exists_of_unboundName? {s : Sight κ} {name text id : String} {start stop : Nat}
    (h : s.unboundName? = some (name, text, id, start, stop)) (host : Host κ) :
    s.event = .begins ⟨name, text⟩ (.atom (.name ⟨id, ⟨start, stop⟩⟩)) ∧
      s.world.Produces host ⟨name, text⟩ (.atom (.name ⟨id, ⟨start, stop⟩⟩))
        (.unbound id ⟨⟨name, text⟩, ⟨start, stop⟩, none⟩) := by
  unfold unboundName? at h
  split at h
  next source n hevent =>
    split at h
    next hlookup =>
      cases h
      refine ⟨hevent, ⟨s.world, ?_⟩, fun p given w' hcalls => ?_⟩
      · rw [World.evaluator, Form.evalWithin, Form.step, Form.Atom.value, Form.Name.value, hlookup]
      · exact absurd hcalls World.not_callsWith_atom
    · cases h
  · cases h

/-- The second operand of the block is unbound, in the second line from the eighth character on. -/
theorem errors_point_at_causes_operand :
    ∃ p s form e envs, Program.compile .missingOperand = .ok p ∧
      s ∈ (Moment.missingOperand.world.trace Library.host [] p).sights ∧
      s.event = .begins .missingOperand form ∧
      s.world.Produces Library.host .missingOperand form e ∧
      s.world.context.arena.Chain s.world.context.arena.active envs ∧
      (∀ env ∈ envs, env.find? "missing" = none) ∧
      e = .unbound "missing" ⟨.missingOperand, ⟨13, 20⟩, none⟩ ∧
      Site.PointsAt ⟨.missingOperand, ⟨13, 20⟩, none⟩ "missing".toList ∧
      Site.location ⟨.missingOperand, ⟨13, 20⟩, none⟩ = ⟨⟨2, 8⟩, ⟨2, 15⟩⟩ := by
  have hread : (Program.compile .missingOperand).toOption.bind (fun p =>
      (Moment.missingOperand.world.trace Library.host [] p).sights.findSome?
        Sight.unboundName?) =
      some ("script", "; é\n(f \"é\" missing ; c\n)", "missing", 13, 20) := by
    decide +kernel
  obtain ⟨p, hp, hread⟩ := Option.bind_eq_some_iff.mp hread
  obtain ⟨s, hs, hname⟩ := List.exists_of_findSome?_eq_some hread
  have hp := Program.compile_eq_ok_of_toOption hp
  obtain ⟨hevent, hproduces⟩ := s.exists_of_unboundName? hname Library.host
  obtain ⟨hscript, -⟩ := errors_point_at_causes Library.host_usesOnly
    Moment.missingOperand_reachable fun x hx => absurd hx (Moment.missingOperand_not_alive x)
  obtain ⟨_, _, _, envs, -, -, -, -, hchain, hcause⟩ :=
    hscript .missingOperand p hp s hs _ _ _ hevent hproduces
  generalize he : Error.unbound "missing" ⟨_, ⟨13, 20⟩, none⟩ = e at hcause
  cases hcause with
  | unbound hlooks hnone hv hrule hat hword hsite =>
    cases hlooks
    refine ⟨p, s, _, _, envs, hp, hs, hevent, hproduces, hchain, hnone, rfl, hsite, ?_⟩
    rw [Site.location, Source.locate, Text.Location.of_eq]
    decide
  | failed => cases he

end Fexpr
