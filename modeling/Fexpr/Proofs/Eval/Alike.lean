import Fexpr.Eval
import Fexpr.Proofs.Scope.Alike

/-!
# Evaluation does not look at places

A procedure ignores places if it does alike things when it is called with alike operands. If all
procedures that can be reached do, then alike forms, evaluated in alike worlds, have alike outcomes
(`World.run_alike`): the same value up to the places of the operands in it, or the same error at the
corresponding place.
-/

namespace Fexpr

open Text (Span)

variable {κ : Type} {L : Likeness κ}

/-! ## Outcomes -/

inductive Site.Alike (L : Likeness κ) : Site → Site → Prop
  | mk {source source' : Source} {φ : Nat → Nat} (h : L.Moves source source' φ) (span : Span)
    (help : Option String) : Alike L ⟨source, span, help⟩ ⟨source', span.relocate φ, help⟩

/-- The errors are the same, at corresponding places. -/
inductive Error.Alike (L : Likeness κ) : Error → Error → Prop
  | rejected (rule : Grammar.Rule) {s s' : Site} (h : s.Alike L s') :
    Alike L (.rejected rule s) (.rejected rule s')
  | unbound (id : String) {s s' : Site} (h : s.Alike L s') : Alike L (.unbound id s) (.unbound id s')
  | failed (problem : Problem) {s s' : Site} (h : s.Alike L s') :
    Alike L (.failed problem s) (.failed problem s')
  | arity (mismatch : Arity.Mismatch) : Alike L (.arity mismatch) (.arity mismatch)
  | raised (message : String) (causes : List String) :
    Alike L (.raised message causes) (.raised message causes)
  | noValue (id : String) : Alike L (.noValue id) (.noValue id)
  | badPattern (pattern : String) : Alike L (.badPattern pattern) (.badPattern pattern)

abbrev Reply.Alike (L : Likeness κ) (r r' : Reply κ) : Prop :=
  ExceptRel (Error.Alike L) (Value.Alike L) r r'

structure World.Alike (L : Likeness κ) (w w' : World κ) : Prop where
  contextId : w'.context.id = w.context.id
  arena : w.context.arena.Alike L w'.context.arena
  depth : w'.context.depth = w.context.depth
  maxDepth : w'.context.maxDepth = w.context.maxDepth
  data : w'.context.data = w.context.data
  ticks : w'.host.ticks = w.host.ticks
  out : w'.host.out = w.host.out
  captured : Bindings.Rel (Operand.Alike L) w.host.captured w'.host.captured
  nextIdentity : w'.nextIdentity = w.nextIdentity

inductive Abort.Alike (L : Likeness κ) : Abort → Abort → Prop
  | notLive (s : ScopeId) : Alike L (.notLive s) (.notLive s)
  | foreignOperand {x x' : Operand} (h : x.Alike L x') :
    Alike L (.foreignOperand x.text) (.foreignOperand x'.text)
  | malformed (fault : Form.Fault) : Alike L (.malformed fault) (.malformed fault)
  | exhausted : Alike L .exhausted .exhausted

inductive Outcome.Alike (L : Likeness κ) : Outcome κ → Outcome κ → Prop
  | reply {r r' : Reply κ} {w w' : World κ} (hr : Reply.Alike L r r') (hw : w.Alike L w') :
    Alike L (.reply r w) (.reply r' w')
  | abort {a a' : Abort} (h : a.Alike L a') : Alike L (.abort a) (.abort a')

theorem Error.Alike.locate {e e' : Error} (h : e.Alike L e') {source source' : Source}
    {φ : Nat → Nat} (hmoves : L.Moves source source' φ) (span : Span) :
    (e.locate source span).Alike L (e'.locate source' (span.relocate φ)) := by
  cases h with
  | raised message causes => exact .failed _ (.mk hmoves span none)
  | rejected rule h => exact .rejected rule h
  | unbound id h => exact .unbound id h
  | failed problem h => exact .failed problem h
  | arity mismatch => exact .arity mismatch
  | noValue id => exact .noValue id
  | badPattern pattern => exact .badPattern pattern

theorem World.Alike.refl (hmoves : ∀ source, L.Moves source source id) {w : World κ}
    (h : ∀ code ∈ w.context.arena.codes, L.Allows code) : w.Alike L w where
  contextId := rfl
  arena := .refl hmoves h
  depth := rfl
  maxDepth := rfl
  data := rfl
  ticks := rfl
  out := rfl
  captured := by
    refine List.forall₂_same.mpr ?_
    rintro ⟨key, x⟩ -
    exact .mk key (.refl hmoves x)
  nextIdentity := rfl

theorem World.Alike.withArena {w w' : World κ} (h : w.Alike L w') {a a' : Arena κ}
    (ha : a.Alike L a') : (w.withArena a).Alike L (w'.withArena a') :=
  { h with arena := ha }

theorem World.Alike.heldOperands {w w' : World κ} (h : w.Alike L w') {r r' : Reply κ}
    (hr : Reply.Alike L r r') :
    List.Forall₂ (Operand.Alike L) (w.heldOperands r) (w'.heldOperands r') := by
  cases hr with
  | error _ => exact h.captured.values
  | ok hv => exact List.rel_append hv.operands h.captured.values

namespace Outcome.Alike

theorem andThen {o o' : Outcome κ} {next next' : Reply κ → World κ → Outcome κ}
    (h : o.Alike L o') (hnext : ∀ r r' w w', Reply.Alike L r r' → w.Alike L w' →
      (next r w).Alike L (next' r' w')) : (o.andThen next).Alike L (o'.andThen next') := by
  cases h with
  | reply hr hw => exact hnext _ _ _ _ hr hw
  | abort h => exact .abort h

theorem answered {α : Type} {R : α → α → Prop} {answer answer' : Except ScopeId α}
    {next next' : α → Outcome κ} (h : ExceptRel Eq R answer answer')
    (hnext : ∀ a a', R a a' → (next a).Alike L (next' a')) :
    (Action.answered answer next).Alike L (Action.answered answer' next') := by
  cases h with
  | error hs =>
    subst hs
    exact .abort (.notLive _)
  | ok ha => exact hnext _ _ ha

/-- A value that keeps no operands is answered on both sides. -/
theorem exists_reply_eq {v : Value κ} {w : World κ} {o : Outcome κ}
    (h : (Outcome.reply (.ok v) w).Alike L o) (hv : v.operands = []) :
    ∃ w', o = .reply (.ok v) w' := by
  cases h with
  | reply hr _ =>
    cases hr with
    | ok hvalue => exact ⟨_, by rw [hvalue.eq_of_operands hv]⟩

end Outcome.Alike

/-! ## Actions -/

inductive Place.Alike (L : Likeness κ) : Place κ → Place κ → Prop
  | own : Alike L .own .own
  | layered {env env' : Environment κ} (h : env.Alike L env') :
    Alike L (.layered env) (.layered env')
  | scope (s : ScopeId) : Alike L (.scope s) (.scope s)

/-- The actions ask for the same, as long as they get answers that are alike. -/
inductive Action.Alike (L : Likeness κ) : Action κ → Action κ → Prop
  | done {v v' : Value κ} (h : v.Alike L v') : Alike L (.done v) (.done v')
  | fail {e e' : Error} (h : e.Alike L e') : Alike L (.fail e) (.fail e')
  | force {x x' : Operand} {place place' : Place κ} {next next' : Reply κ → Action κ}
    (hx : x.Alike L x') (hplace : place.Alike L place')
    (hnext : ∀ r r', Reply.Alike L r r' → Alike L (next r) (next' r')) :
    Alike L (.force x place next) (.force x' place' next')
  | lookup (id : String) {next next' : Option (Value κ) → Action κ}
    (hnext : ∀ v v', Option.Rel (Value.Alike L) v v' → Alike L (next v) (next' v')) :
    Alike L (.lookup id next) (.lookup id next')
  | lookupFrom (s : ScopeId) (id : String) {next next' : Option (Value κ) → Action κ}
    (hnext : ∀ v v', Option.Rel (Value.Alike L) v v' → Alike L (next v) (next' v')) :
    Alike L (.lookupFrom s id next) (.lookupFrom s id next')
  | lookupLocal (id : String) {next next' : Option (Value κ) → Action κ}
    (hnext : ∀ v v', Option.Rel (Value.Alike L) v v' → Alike L (next v) (next' v')) :
    Alike L (.lookupLocal id next) (.lookupLocal id next')
  | lookupOuter (id : String) {next next' : Option (Option (Value κ)) → Action κ}
    (hnext : ∀ v v', Option.Rel (Option.Rel (Value.Alike L)) v v' → Alike L (next v) (next' v')) :
    Alike L (.lookupOuter id next) (.lookupOuter id next')
  | define (id : String) {v v' : Value κ} {next next' : Action κ} (hv : v.Alike L v')
    (hnext : Alike L next next') : Alike L (.define id v next) (.define id v' next')
  | derive {env env' : Environment κ} {next next' : ScopeId → Action κ} (henv : env.Alike L env')
    (hnext : ∀ s, Alike L (next s) (next' s)) : Alike L (.derive env next) (.derive env' next')
  | withDerived {env env' : Environment κ} {body body' : ScopeId → Action κ}
    {next next' : ScopeId → Reply κ → Action κ} (henv : env.Alike L env')
    (hbody : ∀ s, Alike L (body s) (body' s))
    (hnext : ∀ s r r', Reply.Alike L r r' → Alike L (next s r) (next' s r')) :
    Alike L (.withDerived env body next) (.withDerived env' body' next')
  | activeScope {next next' : ScopeId → Action κ} (hnext : ∀ s, Alike L (next s) (next' s)) :
    Alike L (.activeScope next) (.activeScope next')
  | scopeCount {next next' : Nat → Action κ} (hnext : ∀ n, Alike L (next n) (next' n)) :
    Alike L (.scopeCount next) (.scopeCount next')
  | maxDepth {next next' : Nat → Action κ} (hnext : ∀ n, Alike L (next n) (next' n)) :
    Alike L (.maxDepth next) (.maxDepth next')
  | hasData {next next' : Bool → Action κ} (hnext : ∀ b, Alike L (next b) (next' b)) :
    Alike L (.hasData next) (.hasData next')
  | tick {next next' : Nat → Action κ} (hnext : ∀ n, Alike L (next n) (next' n)) :
    Alike L (.tick next) (.tick next')
  | emit (line : String) {next next' : Action κ} (hnext : Alike L next next') :
    Alike L (.emit line next) (.emit line next')
  | capture (name : String) {x x' : Operand} {next next' : Action κ} (hx : x.Alike L x')
    (hnext : Alike L next next') : Alike L (.capture name x next) (.capture name x' next')
  | fresh {next next' : Nat → Action κ} (hnext : ∀ n, Alike L (next n) (next' n)) :
    Alike L (.fresh next) (.fresh next')

structure Call.Alike (L : Likeness κ) (call call' : Call κ) : Prop where
  operands : List.Forall₂ (Operand.Alike L) call.operands call'.operands
  options : Environment.Alike L call.options call'.options

/-- The procedures of the given codes do not look at texts and places of operands and errors: called
with what is alike, they do what is alike. -/
def Host.IgnoresPlaces (host : Host κ) (codes : κ → Prop) : Prop :=
  ∀ (moves : Source → Source → (Nat → Nat) → Prop) (p p' : Procedure κ) (call call' : Call κ),
    p.Alike ⟨moves, codes⟩ p' → call.Alike ⟨moves, codes⟩ call' →
      (host p call).Alike ⟨moves, codes⟩ (host p' call')

/-- Alike forms in alike worlds have alike outcomes. -/
def Evaluator.Alike (L : Likeness κ) (eval : Evaluator κ) : Prop :=
  ∀ source source' φ form w w', L.Moves source source' φ → w.Alike L w' →
    (eval source form w).Alike L (eval source' (form.relocate φ) w')

section Running

variable {eval : Evaluator κ} {w w' : World κ}

theorem World.Alike.withChild (hw : w.Alike L w') (parent : ScopeId) {env env' : Environment κ}
    (henv : env.Alike L env') {body body' : ScopeId → World κ → Outcome κ}
    (hbody : ∀ s w w', w.Alike L w' → (body s w).Alike L (body' s w')) :
    (w.withChild parent env body).Alike L (w'.withChild parent env' body') := by
  have hpush := hw.arena.push parent henv
  simp only [World.withChild, hw.arena.size_eq]
  generalize w.context.arena.push parent env = pushed at hpush
  generalize w'.context.arena.push parent env' = pushed' at hpush
  cases hpush with
  | error hs =>
    subst hs
    exact .abort (.notLive _)
  | @ok pushed pushed' h =>
    obtain ⟨s, arena⟩ := pushed
    obtain ⟨s', arena'⟩ := pushed'
    obtain ⟨rfl, harena⟩ := h
    refine (hbody _ _ _ (hw.withArena harena)).andThen fun r r' w w' hr hw => ?_
    refine .reply hr (hw.withArena ?_)
    rw [hw.contextId]
    exact hw.arena.release _ (hw.heldOperands hr) _

theorem World.Alike.evalIn (heval : eval.Alike L) (hw : w.Alike L w') {x x' : Operand}
    (hx : x.Alike L x') (s : ScopeId) : (w.evalIn eval x s).Alike L (w'.evalIn eval x' s) := by
  have hx' := hx
  obtain ⟨hmoves, form, scope, owner⟩ := hx'
  simp only [World.evalIn, hw.contextId]
  split
  · exact .abort (.foreignOperand hx)
  · have hs := hw.arena.activate s
    generalize w.context.arena.activate s = active at hs
    generalize w'.context.arena.activate s = active' at hs
    cases hs with
    | error hs =>
      subst hs
      exact .abort (.notLive _)
    | ok ha =>
      refine (heval _ _ _ form _ _ hmoves (hw.withArena ha)).andThen fun r r' v v' hr hv => ?_
      have hback := hv.arena.activate w.context.arena.active
      simp only [hw.arena.active]
      generalize v.context.arena.activate w.context.arena.active = restored at hback
      generalize v'.context.arena.activate w.context.arena.active = restored' at hback
      cases hback with
      | error hs =>
        subst hs
        exact .abort (.notLive _)
      | ok ha => exact .reply hr (hv.withArena ha)

theorem World.Alike.force (heval : eval.Alike L) (hw : w.Alike L w') {x x' : Operand}
    (hx : x.Alike L x') {place place' : Place κ} (hplace : place.Alike L place') :
    (w.force eval x place).Alike L (w'.force eval x' place') := by
  have hscope : x'.scope = x.scope := by
    cases hx
    rfl
  have howner : x'.owner = x.owner := by
    cases hx
    rfl
  cases hplace with
  | own =>
    simp only [World.force, hscope]
    exact hw.evalIn heval hx _
  | scope s => exact hw.evalIn heval hx s
  | layered henv =>
    simp only [World.force, World.evalLayered, hw.contextId, hscope, howner]
    split
    · exact .abort (.foreignOperand hx)
    · exact hw.withChild _ henv fun s w w' hw => hw.evalIn heval hx s

/-- Actions that are alike have alike outcomes. -/
theorem Action.Alike.run (heval : eval.Alike L) {a a' : Action κ} (h : a.Alike L a')
    (hw : w.Alike L w') : (a.run eval w).Alike L (a'.run eval w') := by
  -- Each request has alike answers in the two worlds and leaves them alike.
  induction h generalizing w w' with
  | done hv => exact .reply (.ok hv) hw
  | fail he => exact .reply (.error he) hw
  | force hx hplace _ ih =>
    rw [Action.run, Action.run]
    exact (hw.force heval hx hplace).andThen fun r r' w w' hr hw => ih r r' hr hw
  | lookup id _ ih =>
    rw [Action.run, Action.run]
    exact .answered (hw.arena.lookup id) fun v v' hv => ih v v' hv hw
  | lookupFrom s id _ ih =>
    rw [Action.run, Action.run]
    exact .answered (hw.arena.lookupWithin id _ s) fun v v' hv => ih v v' hv hw
  | lookupLocal id _ ih =>
    rw [Action.run, Action.run]
    exact .answered hw.arena.env fun env env' henv => ih _ _ (henv.find? id) hw
  | lookupOuter id _ ih =>
    rw [Action.run, Action.run]
    refine .answered hw.arena.outerEnv fun env env' henv => ih _ _ ?_ hw
    cases henv with
    | none => exact .none
    | some henv => exact .some (henv.find? id)
  | define id hv _ ih =>
    rw [Action.run, Action.run]
    exact ih (hw.withArena (hw.arena.define id hv))
  | derive henv _ ih =>
    rw [Action.run, Action.run, hw.arena.active]
    refine .answered (hw.arena.push _ henv) ?_
    rintro ⟨s, arena⟩ ⟨s', arena'⟩ ⟨rfl, harena⟩
    exact ih _ (hw.withArena harena)
  | withDerived henv _ _ ihbody ihnext =>
    rw [Action.run, Action.run]
    simp only [hw.arena.active, hw.arena.size_eq, hw.arena.nextSerial]
    exact (hw.withChild _ henv fun s w w' hw => ihbody s hw).andThen
      fun r r' w w' hr hw => ihnext _ r r' hr hw
  | activeScope _ ih =>
    rw [Action.run, Action.run, hw.arena.active]
    exact ih _ hw
  | scopeCount _ ih =>
    rw [Action.run, Action.run, hw.arena.size_eq]
    exact ih _ hw
  | maxDepth _ ih =>
    rw [Action.run, Action.run, hw.maxDepth]
    exact ih _ hw
  | hasData _ ih =>
    rw [Action.run, Action.run, hw.data]
    exact ih _ hw
  | tick _ ih =>
    rw [Action.run, Action.run]
    simp only [hw.ticks]
    exact ih _ { hw with ticks := rfl }
  | emit line _ ih =>
    rw [Action.run, Action.run]
    exact ih { hw with out := by rw [hw.out] }
  | capture name hx _ ih =>
    rw [Action.run, Action.run]
    exact ih { hw with captured := hw.captured.insert name hx }
  | fresh _ ih =>
    rw [Action.run, Action.run, hw.nextIdentity]
    exact ih _ { hw with nextIdentity := rfl }

end Running

/-! ## Forms -/

inductive Stop.Alike (L : Likeness κ) : Stop → Stop → Prop
  | error {e e' : Error} (h : e.Alike L e') : Alike L (.error e) (.error e')
  | abort {a a' : Abort} (h : a.Alike L a') : Alike L (.abort a) (.abort a')

section Forms

variable {source source' : Source} {φ : Nat → Nat}

theorem Form.Literal.value_alike (hmoves : L.Moves source source' φ) (l : Form.Literal) :
    Reply.Alike L (l.value source) ((l.relocate φ).value source') := by
  obtain ⟨kind, text, span⟩ := l
  have hsite : Site.Alike L ⟨source, span, none⟩ ⟨source', span.relocate φ, none⟩ :=
    .mk hmoves span none
  cases kind with
  | nil => exact .ok .nil
  | bool => exact .ok (.bool _)
  | integer =>
    simp only [Form.Literal.value, Form.Literal.relocate]
    cases Fexpr.Literal.parseInteger text with
    | error e => exact .error (.failed _ hsite)
    | ok n =>
      cases n with
      | signed n => exact .ok (.int n)
      | unsigned n => exact .ok (.uint n)
  | float =>
    simp only [Form.Literal.value, Form.Literal.relocate]
    cases Fexpr.Literal.parseFloat text with
    | error e => exact .error (.failed _ hsite)
    | ok x => exact .ok (.float x)
  | string =>
    simp only [Form.Literal.value, Form.Literal.relocate]
    cases Fexpr.Literal.parseString text with
    | error e => exact .error (.failed _ hsite)
    | ok s => exact .ok (.string s)
  | longString => exact .ok (.string _)

theorem Form.Name.value_alike (hmoves : L.Moves source source' φ) {a a' : Arena κ}
    (ha : a.Alike L a') (n : Form.Name) :
    ExceptRel (Stop.Alike L) (Value.Alike L) (n.value source a)
      ((n.relocate φ).value source' a') := by
  have hid := ha.lookup n.text
  simp only [Form.Name.value, Form.Name.relocate]
  generalize a.lookup n.text = found at hid
  generalize a'.lookup n.text = found' at hid
  cases hid with
  | error hs =>
    subst hs
    exact .error (.abort (.notLive _))
  | ok hv =>
    cases hv with
    | none => exact .error (.error (.unbound _ (.mk hmoves n.span none)))
    | some hv => exact .ok hv

theorem Form.follow_alike (hmoves : L.Moves source source' φ) (attributes : List Form.Attribute)
    {v v' : Value κ} (hv : v.Alike L v') :
    Reply.Alike L (Form.follow source attributes v)
      (Form.follow source' (attributes.map (·.relocate φ)) v') := by
  induction attributes generalizing v v' with
  | nil => exact .ok hv
  | cons a attributes ih =>
    have hselect := hv.select a.key
    simp only [List.map_cons, Form.follow, Form.Attribute.relocate, hv.type_eq]
    generalize v.select a.key = found at hselect
    generalize v'.select a.key = found' at hselect
    cases hselect with
    | ok hu => exact ih hu
    | @error e _ he =>
      subst he
      cases e with
      | notIndexable => exact .error (.failed _ (.mk hmoves a.span none))
      | notFound => exact .error (.failed _ (.mk hmoves a.span none))

theorem Form.Atom.value_alike (hmoves : L.Moves source source' φ) {a a' : Arena κ}
    (ha : a.Alike L a') (atom : Form.Atom) :
    ExceptRel (Stop.Alike L) (Value.Alike L) (atom.value source a)
      ((atom.relocate φ).value source' a') := by
  cases atom with
  | literal l => exact (l.value_alike hmoves).mapError fun e e' he => .error he
  | name n => exact n.value_alike hmoves ha
  | path base attributes span =>
    have hbase := base.value_alike hmoves ha
    simp only [Form.Atom.relocate, Form.Atom.value]
    generalize base.value source a = found at hbase
    generalize (base.relocate φ).value source' a' = found' at hbase
    cases hbase with
    | error hstop => exact .error hstop
    | ok hv => exact (Form.follow_alike hmoves attributes hv).mapError fun e e' he => .error he

theorem Form.collect_alike (hmoves : L.Moves source source' φ) {w w' : World κ}
    (hw : w.Alike L w') (items : List Form.Item) {given given' : Call κ}
    (hgiven : given.Alike L given') :
    ExceptRel (Stop.Alike L) (Call.Alike L) (Form.collect source w.context items given)
      (Form.collect source' w'.context (Form.relocates φ items) given') := by
  induction items generalizing given given' with
  | nil =>
    rw [Form.relocates_nil]
    exact .ok hgiven
  | cons item items ih =>
    cases item with
    | operand f =>
      rw [Form.relocates_operand, Form.collect, Form.collect, hw.arena.active, hw.contextId]
      refine ih ⟨List.rel_append hgiven.operands ?_, hgiven.options⟩
      exact .cons (.mk hmoves f _ _) .nil
    | option key chosen =>
      have hchosen := chosen.value_alike hmoves hw.arena
      rw [Form.relocates_option, Form.collect, Form.collect]
      generalize chosen.value source w.context.arena = found at hchosen
      generalize (chosen.relocate φ).value source' w'.context.arena = found' at hchosen
      cases hchosen with
      | error hstop => exact .error hstop
      | ok hv => exact ih ⟨hgiven.operands, hgiven.options.insert key.text hv⟩

theorem Form.dispatch_alike {host : Host κ} (hhost : host.IgnoresPlaces L.Allows)
    {eval : Evaluator κ} (heval : eval.Alike L) (hmoves : L.Moves source source' φ)
    (operator : Form.Name) (items : List Form.Item) (span : Span) {w w' : World κ}
    (hw : w.Alike L w') :
    (Form.dispatch host eval source operator items span w).Alike L
      (Form.dispatch host eval source' (operator.relocate φ) (Form.relocates φ items)
        (span.relocate φ) w') := by
  have hoperator := operator.value_alike hmoves hw.arena
  simp only [Form.dispatch]
  generalize operator.value source w.context.arena = found at hoperator
  generalize (operator.relocate φ).value source' w'.context.arena = found' at hoperator
  cases hoperator with
  | error hstop =>
    cases hstop with
    | abort ha => exact .abort ha
    | error he => exact .reply (.error he) hw
  | ok hv =>
    cases hv with
    | @procedure p p' hp =>
      have hempty : Call.Alike L ⟨[], ∅⟩ ⟨[], ∅⟩ := ⟨.nil, .empty⟩
      have hcollect := Form.collect_alike hmoves hw items hempty
      simp only
      generalize Form.collect source w.context items ⟨[], ∅⟩ = given at hcollect
      generalize Form.collect source' w'.context _ ⟨[], ∅⟩ = given' at hcollect
      cases hcollect with
      | error hstop =>
        cases hstop with
        | abort ha => exact .abort ha
        | error he => exact .reply (.error he) hw
      | ok hgiven =>
        refine ((hhost L.Moves p p' _ _ hp hgiven).run heval hw).andThen ?_
        intro r r' w w' hr hw
        exact .reply (hr.mapError fun e e' he => he.locate hmoves span) hw
    | nil | int _ | uint _ | float _ | bool _ | string _ | userData _ _ =>
      exact .reply (.error (.failed _ (.mk hmoves span none))) hw

theorem Form.step_alike {host : Host κ} (hhost : host.IgnoresPlaces L.Allows) {eval : Evaluator κ}
    (heval : eval.Alike L) : (Form.step host eval).Alike L := by
  intro source source' φ form w w' hmoves hw
  cases form with
  | atom a =>
    have ha := a.value_alike hmoves hw.arena
    rw [Form.relocate_atom]
    simp only [Form.step]
    generalize a.value source w.context.arena = found at ha
    generalize (a.relocate φ).value source' w'.context.arena = found' at ha
    cases ha with
    | error hstop =>
      cases hstop with
      | abort ha => exact .abort ha
      | error he => exact .reply (.error he) hw
    | ok hv => exact .reply (.ok hv) hw
  | call operator items span =>
    rw [Form.relocate_call]
    simp only [Form.step, hw.maxDepth, hw.depth]
    split
    · exact .reply (.error (.failed _ (.mk hmoves span none))) hw
    · have henter : w.enter.Alike L w'.enter :=
        { hw with depth := by rw [World.enter, World.enter, hw.depth] }
      refine (Form.dispatch_alike hhost heval hmoves operator items span henter).andThen ?_
      intro r r' w w' hr hw
      exact .reply hr { hw with depth := by rw [World.leave, World.leave, hw.depth] }

/-- Evaluation does not look at places if procedures do not. -/
theorem Form.evalWithin_alike {host : Host κ} (hhost : host.IgnoresPlaces L.Allows) (bound : Nat) :
    (Form.evalWithin host bound).Alike L := by
  induction bound with
  | zero => exact fun source source' φ form w w' _ _ => .abort .exhausted
  | succ bound ih => exact Form.step_alike hhost ih

theorem World.run_alike {host : Host κ} (hhost : host.IgnoresPlaces L.Allows) {w w' : World κ}
    (hw : w.Alike L w') {p p' : Program} {form : Form} (hmoves : L.Moves p.source p'.source φ)
    (hform : p.body = .ok form) (hform' : p'.body = .ok (form.relocate φ)) :
    (World.run host w p).Alike L (World.run host w' p') := by
  simp only [World.run, hform, hform', World.evaluator, hw.maxDepth, hw.depth]
  exact Form.evalWithin_alike hhost _ _ _ _ form _ _ hmoves hw

end Forms

end Fexpr
