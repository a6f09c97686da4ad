import Fexpr.Proofs.Eval.Keeping
import Fexpr.Proofs.Eval.Locating

/-!
# Where the evaluated forms come from

Procedures make no operands up, so whatever is evaluated in the course of an evaluation is part of
an accepted script: of the script itself, or of another one whose operands were kept
(`World.OfScripts.trace`). The arena is well-formed whenever the evaluation of a form begins.
-/

namespace Fexpr

variable {κ : Type}

/-- The form of the operand is part of the script that it is written in. -/
def Operand.IsWritten (x : Operand) : Prop := x.form.IsPartOf x.source

/-- The arena is well-formed, and all operands that are kept are written in accepted scripts. -/
abbrev World.OfScripts (w : World κ) : Prop := w.KeepsOnly Operand.IsWritten

/-- If the evaluation of a form begins, the form is part of an accepted script, in a world that
keeps only operands of such scripts. -/
def Sight.OfScripts (s : Sight κ) : Prop :=
  ∀ source form, s.event = .begins source form → form.IsPartOf source ∧ s.world.OfScripts

/-- Every form that is evaluated is part of an accepted script, in a world that keeps only operands
of such scripts. So does the world in the end, and so does the reply. -/
abbrev Traced.OfScripts (t : Traced κ) : Prop := t.Keeps Sight.OfScripts Operand.IsWritten

def Event.isBegin : Event κ → Bool
  | begins _ _ => true
  | _ => false

theorem Sight.ofScripts_of_isBegin {s : Sight κ} (h : s.event.isBegin = false) : s.OfScripts := by
  intro source form hevent
  rw [hevent] at h
  cases h

def Tracer.OfScripts (tracer : Tracer κ) : Prop :=
  ∀ pending source form w, form.IsPartOf source → w.OfScripts →
    (tracer pending source form w).OfScripts

section Runs

variable {S T : Set ScopeId} {tracer : Tracer κ} {host : Host κ} {w : World κ}

theorem World.OfScripts.traceChild (hw : w.OfScripts) (pending : List Pending) (parent : ScopeId)
    {env : Environment κ} (henv : env.KeepsOnly Operand.IsWritten)
    {body : List Pending → ScopeId → World κ → Traced κ}
    (hbody : ∀ pending s u, u.OfScripts → (body pending s u).OfScripts) :
    (w.traceChild pending parent env body).OfScripts :=
  .answered fun _ hpush => (hbody _ _ _ (hw.pushed henv hpush)).ending fun _ _ _ _ =>
    Sight.ofScripts_of_isBegin rfl

theorem World.OfScripts.traceIn (h : tracer.OfScripts) (hw : w.OfScripts) (pending : List Pending)
    {x : Operand} (hx : x.IsWritten) (s : ScopeId) :
    (w.traceIn tracer pending x s).OfScripts := by
  unfold World.traceIn
  dsimp only
  split
  · exact .ofAbort _
  · exact .answered fun arena ha => (h _ _ _ _ hx (hw.activated ha)).ending fun _ _ _ _ =>
      Sight.ofScripts_of_isBegin rfl

theorem World.OfScripts.traceForce (h : tracer.OfScripts) (hw : w.OfScripts)
    (pending : List Pending) {x : Operand} (hx : x.IsWritten) {xs : List Operand}
    (hxs : ∀ x ∈ xs, x.IsWritten) {place : Place κ} (hplace : place.UsesOnly xs T) :
    (w.traceForce tracer pending x place).OfScripts := by
  cases place with
  | own => exact hw.traceIn h pending hx x.scope
  | layered env =>
    rw [World.traceForce]
    split
    · exact .ofAbort _
    · refine hw.traceChild pending x.scope (fun y hy => hxs y (hplace y hy)) ?_
      exact fun pending' s u hu => hu.traceIn h pending' hx s
  | scope s => exact hw.traceIn h pending hx s

/-- What a procedure evaluates is written in scripts, if what it was called with is. -/
theorem Action.UsesOnly.trace_ofScripts (h : tracer.OfScripts) {a : Action κ} {xs : List Operand}
    (ha : a.UsesOnly xs T) (hxs : ∀ x ∈ xs, x.IsWritten) (pending : List Pending)
    (hw : w.OfScripts) : (a.trace tracer pending w).OfScripts := by
  have hmore : ∀ {us xs : List Operand}, (∀ x ∈ us, x.IsWritten) → (∀ x ∈ xs, x.IsWritten) →
      ∀ x ∈ us ++ xs, x.IsWritten :=
    fun hus hxs x hx => (List.mem_append.mp hx).elim (hus x) (hxs x)
  have hacts : ∀ (a : Action κ) (w : World κ) (pending : List Pending),
      Sight.OfScripts ⟨⟨w, pending⟩, .acts a⟩ := fun _ _ _ => Sight.ofScripts_of_isBegin rfl
  -- The operands at hand are those of the beginning and those of the replies, which come from the
  -- arena or from what is evaluated below.
  induction a generalizing xs T pending w with
  | done v =>
    rw [Action.trace]
    refine .see (.ofReply hw fun x hx => ?_) (hacts _ w pending)
    exact hxs x (ha x hx)
  | fail e =>
    rw [Action.trace]
    exact .see (.ofError e hw) (hacts _ w pending)
  | force x place next ih =>
    obtain ⟨hx, hplace, hnext⟩ := ha
    rw [Action.trace]
    refine .see ?_ (hacts _ w pending)
    refine .andThen (hw.traceForce h pending (hxs x hx) hxs hplace) fun r u _ hu hr => ?_
    exact ih r (hnext r) (hmore hr hxs) pending hu
  | lookup id next ih =>
    rw [Action.trace]
    refine .see ?_ (hacts _ w pending)
    exact .answered fun v hv => ih v (ha v) (hmore (hw.found hv) hxs) pending hw
  | lookupFrom s id next ih =>
    rw [Action.trace]
    refine .see ?_ (hacts _ w pending)
    exact .answered fun v hv => ih v (ha.2 v) (hmore (hw.found hv) hxs) pending hw
  | lookupLocal id next ih =>
    rw [Action.trace]
    refine .see (.answered fun env henv => ?_) (hacts _ w pending)
    obtain ⟨f, hf, henv'⟩ := hw.arena.exists_env
    cases henv.symm.trans henv'
    have hfound := Arena.mem_operands_of_found (Arena.keepsOnly_of_frame? hf) id
    exact ih _ (ha _) (hmore (fun x hx => hw.bound x (hfound x hx)) hxs) pending hw
  | lookupOuter id next ih =>
    rw [Action.trace]
    refine .see (.answered fun env henv => ?_) (hacts _ w pending)
    rcases hw.arena.exists_outerEnv with ⟨-, henv'⟩ | ⟨f, p, g, -, -, hg, henv'⟩
    · cases henv.symm.trans henv'
      exact ih none (ha none) hxs pending hw
    · cases henv.symm.trans henv'
      have hfound := Arena.mem_operands_of_found (Arena.keepsOnly_of_frame? hg) id
      refine ih _ (ha (some (g.env.find? id))) (hmore (fun x hx => ?_) hxs) pending hw
      exact hw.bound x (hfound x hx)
  | define id v next ih =>
    obtain ⟨hv, hnext⟩ := ha
    rw [Action.trace]
    refine .see ?_ (hacts _ w pending)
    exact ih hnext hxs pending (hw.defined id fun x hx => hxs x (hv x hx))
  | derive env next ih =>
    obtain ⟨henv, hnext⟩ := ha
    rw [Action.trace]
    refine .see (.answered fun opened hpush => ?_) (hacts _ w pending)
    exact ih _ (hnext _) hxs pending (hw.pushed (fun x hx => hxs x (henv x hx)) hpush)
  | withDerived env body next ihbody ihnext =>
    obtain ⟨henv, hbody, hnext⟩ := ha
    rw [Action.trace]
    refine .see ?_ (hacts _ w pending)
    refine .andThen (hw.traceChild pending _ (fun x hx => hxs x (henv x hx))
      fun pending' s u hu => ?_) fun r u _ hu hr => ?_
    · exact ihbody s (hbody s) hxs pending' hu
    · exact ihnext _ r (hnext _ r) (hmore hr hxs) pending hu
  | activeScope next ih | scopeCount next ih | maxDepth next ih | hasData next ih =>
    rw [Action.trace]
    refine .see ?_ (hacts _ w pending)
    exact ih _ (ha _) hxs pending hw
  | tick next ih | fresh next ih =>
    rw [Action.trace]
    refine .see ?_ (hacts _ w pending)
    exact ih _ (ha _) hxs pending ⟨hw.arena, hw.bound, hw.captured⟩
  | emit line next ih =>
    rw [Action.trace]
    refine .see ?_ (hacts _ w pending)
    exact ih ha hxs pending ⟨hw.arena, hw.bound, hw.captured⟩
  | capture name x next ih =>
    obtain ⟨hx, hnext⟩ := ha
    rw [Action.trace]
    refine .see ?_ (hacts _ w pending)
    exact ih hnext hxs pending (hw.captures name (hxs x hx))

namespace Form

/-- What is at hand when the procedure of a call is called is written in scripts. -/
theorem IsPartOf.request_trace (hhost : host.UsesOnly S) (h : tracer.OfScripts) {source : Source}
    {operator : Name} {items : List Item} {span : Text.Span}
    (hcall : IsPartOf (.call operator items span) source) (hw : w.OfScripts) {a : Action κ}
    (ha : request host source operator items span w.context = .ok a) (pending : List Pending) :
    (a.trace tracer pending w).OfScripts := by
  obtain ⟨p, given, -, hcollect, rfl, hcaptured, hoptions⟩ := hw.request ha
  refine (hhost p given).trace_ofScripts h (fun x hx => ?_) pending hw
  simp only [Call.handles, List.mem_append] at hx
  rcases hx with (hx | hx) | hx
  · exact hcaptured x hx
  · exact hcall.of_collect hcollect hx
  · exact hoptions x hx

theorem traceStep_ofScripts (hhost : host.UsesOnly S) (h : tracer.OfScripts) :
    (traceStep host tracer).OfScripts := by
  intro pending source form w hform hw
  have hbegin : Sight.OfScripts ⟨⟨w, pending⟩, .begins source form⟩ := by
    intro source' form' hbegins
    cases hbegins
    exact ⟨hform, hw⟩
  cases form with
  | atom a =>
    rw [traceStep]
    refine .see (.resume hw fun v hv => ?_) hbegin
    exact .ofReply hw (hw.atom hv)
  | call operator items span =>
    rw [traceStep]
    refine .see ?_ hbegin
    split
    · exact .see (.ofError _ hw) (Sight.ofScripts_of_isBegin rfl)
    · refine .ending (.resume hw.entered fun a ha => ?_) fun _ _ _ _ =>
        Sight.ofScripts_of_isBegin rfl
      refine .andThen (hform.request_trace hhost h hw.entered ha _) fun r u _ hu hr => ?_
      refine .ofReply hu ?_
      rw [Reply.operands_mapError]
      exact hr

theorem traceWithin_ofScripts (hhost : host.UsesOnly S) (bound : Nat) :
    (traceWithin host bound).OfScripts := by
  induction bound with
  | zero => exact fun _ _ _ _ _ _ => .ofAbort _
  | succ bound ih => exact traceStep_ofScripts hhost ih

end Form

theorem World.OfScripts.trace (hhost : host.UsesOnly S) (hw : w.OfScripts) (pending : List Pending)
    {source : Source} {p : Program} (hp : Program.compile source = .ok p) :
    (w.trace host pending p).OfScripts := by
  obtain ⟨tree, form, rfl, -, -, -⟩ := Program.exists_of_compile hp
  exact Form.traceWithin_ofScripts hhost _ pending source form w ⟨_, form, hp, rfl, .inl rfl⟩ hw

theorem World.OfScripts.traceAt (hhost : host.UsesOnly S) (hw : w.OfScripts)
    (pending : List Pending) {x : Operand} (hx : x.IsWritten) {xs : List Operand}
    (hxs : ∀ x ∈ xs, x.IsWritten) {place : Place κ} (hplace : place.UsesOnly xs T) :
    (w.traceAt host pending x place).OfScripts :=
  hw.traceForce (Form.traceWithin_ofScripts hhost _) pending hx hxs hplace

end Runs

end Fexpr
