import Fexpr.Proofs.Eval.Steps
import Fexpr.Proofs.Library.Handles
import Fexpr.Proofs.Scope.History

/-!
# Scopes in the life of a context

At every moment that a context can reach, its arena is well-formed and each operand that is alive
has its scope, so that evaluation finds what it needs (`reachable_arena_wellFormed`). An operand
that stays alive keeps the scope that it was written in and all scopes around it
(`captured_scope_persists`). A scope id is never taken for that of another frame
(`scopeId_names_one_frame`). What they say of runs holds of evaluations, which are runs.
-/

namespace Fexpr

variable {κ : Type} {m m' : Moment κ} {ms : List (Moment κ)} {S : Set ScopeId} {host : Host κ}

/-- At every moment that can be reached, by whatever nesting of evaluations, scopes and handles, the
arena is well-formed, and every operand of the context that is alive was written in a live scope. So
the way outwards from a live scope ends after finitely many scopes, the active environment and the
one around it can be read, and a definition goes to the frame that is read. Every evaluation of a
script or of an operand that is alive leads to such a moment again. It is given up because of a
scope that is gone only if the scope is one of `S`, which are those that procedures ask for by id
without knowing them to be live, and only at a moment at which it is in fact not live. -/
theorem reachable_arena_wellFormed (hm : m.Reachable) (hhost : host.UsesOnly S) :
    m.arena.WellFormed ∧
    (∀ x, m.Alive x → x.owner = m.world.context.id → m.arena.isLive x.scope = true) ∧
    (∀ s, m.arena.isLive s = true → ∃ envs, m.arena.Chain s envs ∧ ∀ id steps, s.index < steps →
      m.arena.lookupWithin id steps s = .ok (envs.findSome? (·.find? id))) ∧
    (∃ f, m.arena.frame? m.arena.active = some f ∧ m.arena.env = .ok f.env) ∧
    (∃ env, m.arena.outerEnv = .ok env) ∧
    (∀ id v s f, m.arena.frame? s = some f → (m.arena.define id v).frame? s =
      some (if s = m.arena.active then { f with env := f.env.insert id v } else f)) ∧
    (∀ p, m.Leads S m.held m.pending (m.world.run host p)) ∧
    ∀ x xs place, (∀ y ∈ x :: xs, m.Alive y) →
      Place.UsesOnly (x :: xs) {s | m.arena.isLive s = true ∨ s ∈ S} place →
      m.Leads S m.held m.pending (m.world.forceAt host x place) := by
  have hscoped := hm.wellScoped
  refine ⟨hscoped.arena, hscoped.alive, fun s hs => ?_, hscoped.arena.exists_env, ?_,
    fun id v s f => hscoped.arena.frame?_define, World.run_leads hhost hscoped,
    fun x xs place hxs => World.forceAt_leads hhost hscoped hxs⟩
  · obtain ⟨envs, hchain⟩ := hscoped.arena.exists_chain hs
    exact ⟨envs, hchain, hchain.lookupWithin⟩
  · rcases hscoped.arena.exists_outerEnv with ⟨-, henv⟩ | ⟨f, p, g, -, -, -, henv⟩
    · exact ⟨_, henv⟩
    · exact ⟨_, henv⟩

/-- A scope in the outermost one, in which `y` is bound. -/
def Frame.sample (y : Int64) (serial : Nat) : Frame Builtin :=
  ⟨Bindings.ofList [("y", .int y)], some .root, serial⟩

/-- The operand `y`, written in the first such scope. -/
def Operand.sample : Operand := ⟨⟨"script", "y"⟩, .atom (.name ⟨"y", ⟨0, 1⟩⟩), ⟨1, 1⟩, 7⟩

/-- A moment with the given scopes besides the outermost one. -/
def Moment.sample (frames : List (Frame Builtin)) (active : ScopeId) (nextSerial : Nat)
    (held : List Operand) (pending : List Pending) : Moment Builtin :=
  ⟨⟨⟨7, ⟨(⟨∅, none, 0⟩ :: frames).toArray, active, nextSerial⟩, 0, 8, .absent⟩, .fresh, 0⟩, held,
    pending, []⟩

namespace Moment

theorem sample_isNew : (sample [] .root 1 [] []).IsNew :=
  ⟨7, ∅, 8, .absent, rfl, fun _ hx => (nomatch hx), rfl, rfl⟩

theorem sample_open (frames : List (Frame Builtin)) (y : Int64) (serial : Nat)
    (held : List Operand) :
    Step (sample frames .root serial held [])
      (sample (frames ++ [Frame.sample y serial]) .root (serial + 1) held
        [.release (frames.length + 1)]) := by
  have henv : ∀ P : Operand → Prop, Environment.KeepsOnly P (Frame.sample y serial).env := fun _ =>
    Environment.KeepsOnly.empty.insert fun _ hx => (nomatch hx)
  have hpush : (sample frames .root serial held []).arena.push .root (Frame.sample y serial).env =
      .ok (⟨frames.length + 1, serial⟩,
        (sample (frames ++ [Frame.sample y serial]) .root (serial + 1) held []).arena) := by
    have hroot : (sample frames .root serial held []).arena.isLive .root = true := rfl
    rw [Arena.push_eq_ok hroot]
    simp [Arena.next, Arena.pushed, Arena.size, sample, Frame.sample]
  exact .openScope (henv _) hpush

/-- The scope is active for a while, and the operand is written in it. -/
theorem sample_written : ∃ ms, (sample [.sample 41 1] .root 2 [] [.release 1]).Run ms
    (sample [.sample 41 1] .root 2 [.sample] [.release 1]) := by
  have hlive : (sample [.sample 41 1] .root 2 [] [.release 1]).arena.activate ⟨1, 1⟩ =
      .ok (sample [.sample 41 1] ⟨1, 1⟩ 2 [] []).arena := rfl
  have hactivate : Step (sample [.sample 41 1] .root 2 [] [.release 1])
      (sample [.sample 41 1] ⟨1, 1⟩ 2 [] [.restore .root, .release 1]) := .activate hlive
  have hwrite : Step (sample [.sample 41 1] ⟨1, 1⟩ 2 [] [.restore .root, .release 1])
      (sample [.sample 41 1] ⟨1, 1⟩ 2 [.sample] [.restore .root, .release 1]) := by
    refine .handles .fresh 0 [.sample] fun x hx => ?_
    rw [List.mem_singleton.mp hx]
    exact .inr (.inr rfl)
  have hrestore : Step (sample [.sample 41 1] ⟨1, 1⟩ 2 [.sample] [.restore .root, .release 1])
      (sample [.sample 41 1] .root 2 [.sample] [.release 1]) := .restore rfl rfl
  exact ⟨_, .step hactivate (.step hwrite (.step hrestore (.stop _)))⟩

/-- The scope was opened and released. It stays, since the operand is held that was written there
while it was active. -/
theorem sample_reachable : (sample [.sample 41 1] .root 2 [.sample] []).Reachable := by
  have hclose : Step (sample [.sample 41 1] .root 2 [.sample] [.release 1])
      (sample [.sample 41 1] .root 2 [.sample] []) := @Step.closeScope _ _ 1 [] rfl
  obtain ⟨ms, hwritten⟩ := sample_written
  obtain ⟨ns, hclosed, -⟩ := hwritten.trans (.step hclose (.stop _))
  exact ⟨_, _, sample_isNew, .step (sample_open [] 41 1 []) hclosed⟩

end Moment

/-- With the procedures of the library, no script makes the scope go in which the operand was
written. -/
theorem reachable_arena_wellFormed_outlived :
    (Moment.sample [.sample 41 1] .root 2 [.sample] []).Reachable ∧
    Host.UsesOnly Set.univ Library.host ∧
    (Moment.sample [.sample 41 1] .root 2 [.sample] []).arena.WellFormed ∧
    (Moment.sample [.sample 41 1] .root 2 [.sample] []).arena.isLive ⟨1, 1⟩ = true ∧
    ∀ p,
      (∀ r w, World.run Library.host
          (Moment.sample [.sample 41 1] .root 2 [.sample] []).world p = .reply r w →
        ∃ log, Moment.Reachable ⟨w, Reply.operands r ++ [.sample], [], log⟩) ∧
      World.run Library.host (Moment.sample [.sample 41 1] .root 2 [.sample] []).world p ≠
        .abort (.notLive ⟨1, 1⟩) := by
  obtain ⟨harena, halive, -, -, -, -, hrun, -⟩ :=
    reachable_arena_wellFormed Moment.sample_reachable Library.host_usesOnly
  refine ⟨Moment.sample_reachable, Library.host_usesOnly, harena, ?_, fun p => ⟨?_, ?_⟩⟩
  · exact halive .sample (.inl List.mem_cons_self) rfl
  · intro r w hreply
    obtain ⟨log, ms, hms, -⟩ := (hrun p).reply r w hreply
    exact ⟨log, Moment.sample_reachable.later hms⟩
  · intro habort
    obtain ⟨-, n, ⟨ms, hms, hheld⟩, hgone⟩ := (hrun p).notLive _ habort
    have hn : n.Reachable := Moment.sample_reachable.later hms
    have hsample : n.Alive .sample :=
      .inl (List.mem_append_left _ (hheld n hms.last_mem List.mem_cons_self))
    exact hgone (hn.wellScoped.alive .sample hsample (hms.id_eq n hms.last_mem).symm)

/-- An operand that stays alive keeps the scope it was written in. In any run of a context, all
moments of which find a handle of the operand alive, the scopes from that of the operand to the
outermost one are the same at every moment, with the same parents. Their environments change only by
what is defined in them while they are active. So an identifier that is not so defined again is
looked up from there with the same result, whatever else was pushed, released or reused. -/
theorem captured_scope_persists (hm : m.Reachable) (hrun : m.Run ms m') {x : Operand}
    (howner : x.owner = m.world.context.id) (halive : ∀ n ∈ ms, n.Alive x) :
    ∃ ss ds, (∀ n ∈ ms, n.arena.Lineage x.scope ss) ∧ m'.log = m.log ++ ds ∧
      (∀ s ∈ ss, ∃ f, m.arena.frame? s = some f ∧
        m'.arena.frame? s = some { f with env := ds.foldl (Definition.bindIn s) f.env }) ∧
      ∀ id, (∀ d ∈ ds, d.scope ∈ ss → d.id ≠ id) →
        ∃ v, m.arena.lookupFrom x.scope id = .ok v ∧ m'.arena.lookupFrom x.scope id = .ok v := by
  have hscoped := hrun.wellScoped hm.wellScoped
  have hlive : ∀ n ∈ ms, n.arena.isLive x.scope = true := fun n hn =>
    (hscoped n hn).alive x (halive n hn) (howner.trans (hrun.id_eq n hn).symm)
  obtain ⟨ss, hss⟩ := hm.wellScoped.arena.exists_lineage (hlive m hrun.first_mem)
  -- The scopes around lie below that of the operand, so that none of them is popped.
  have hlt : ∀ s ∈ ss, ∀ n ∈ ms, s.index < n.arena.size := fun s hs n hn =>
    Nat.lt_of_le_of_lt (hss.index_le hs) (Arena.index_lt_of_isLive (hlive n hn))
  have hlineage : ∀ n ∈ ms, n.arena.Lineage x.scope ss := by
    intro n hn
    obtain ⟨ns, hns, hsub⟩ := hrun.exists_until hn
    obtain ⟨ds, -, hframe⟩ := hns.frame?_eq hm.wellScoped
    refine hss.congr fun s hs f hf => ⟨_, hframe s f hf fun k hk => hlt s hs k (hsub k hk), rfl⟩
  obtain ⟨ds, hlog, hframe⟩ := hrun.frame?_eq hm.wellScoped
  refine ⟨ss, ds, hlineage, hlog, fun s hs => ?_, fun id hid => ⟨_, hss.lookupFrom id, ?_⟩⟩
  · obtain ⟨f, hf⟩ := hss.exists_frame hs
    exact ⟨f, hf, hframe s f hf (hlt s hs)⟩
  · rw [← hss.lookupFrom id]
    refine hss.lookupFrom_congr (hlineage m' hrun.last_mem) fun s hs => ?_
    obtain ⟨f, hf⟩ := hss.exists_frame hs
    have hsame : Bindings.find? (ds.foldl (Definition.bindIn s) f.env) id = f.env.find? id :=
      Definition.find?_foldl_bindIn (fun d hd hds => hid d hd (hds ▸ hs)) f.env
    rw [hframe s f hf (hlt s hs), hf, Option.bind_some, Option.bind_some, hsame]

/-- Two scopes come and go, or stay, at the same place above that of the operand. -/
theorem captured_scope_persists_outlived :
    ∃ ms, (Moment.sample [.sample 41 1] .root 2 [.sample] []).Reachable ∧
      (Moment.sample [.sample 41 1] .root 2 [.sample] []).Run ms
        (Moment.sample [.sample 41 1, .sample 6 3] .root 4 [.sample] [.release 2]) ∧
      (∀ n ∈ ms, n.Alive .sample) ∧
      (Moment.sample [.sample 41 1] .root 2 [.sample] []).arena.lookupFrom ⟨1, 1⟩ "y" =
        .ok (some (.int 41)) ∧
      (Moment.sample [.sample 41 1, .sample 6 3] .root 4 [.sample] [.release 2]).arena.lookupFrom
        ⟨1, 1⟩ "y" = .ok (some (.int 41)) := by
  have hclose : Moment.Step
      (Moment.sample [.sample 41 1, .sample 5 2] .root 3 [.sample] [.release 2])
      (Moment.sample [.sample 41 1] .root 3 [.sample] []) := @Moment.Step.closeScope _ _ 2 [] rfl
  have hrun := Moment.Run.step (Moment.sample_open [.sample 41 1] 5 2 [.sample])
    (.step hclose (.step (Moment.sample_open [.sample 41 1] 6 3 [.sample]) (.stop _)))
  refine ⟨_, Moment.sample_reachable, hrun, ?_⟩
  have halive : ∀ n ∈ [Moment.sample [.sample 41 1] .root 2 [.sample] [],
      Moment.sample [.sample 41 1, .sample 5 2] .root 3 [.sample] [.release 2],
      Moment.sample [.sample 41 1] .root 3 [.sample] [],
      Moment.sample [.sample 41 1, .sample 6 3] .root 4 [.sample] [.release 2]],
      n.Alive .sample := by
    intro n hn
    simp only [List.mem_cons, List.not_mem_nil, or_false] at hn
    rcases hn with rfl | rfl | rfl | rfl <;> exact .inl List.mem_cons_self
  obtain ⟨ss, ds, -, hlog, -, hlookup⟩ :=
    captured_scope_persists Moment.sample_reachable hrun rfl halive
  have hds : ds = [] := (List.nil_append ds).symm.trans hlog.symm
  obtain ⟨v, hbefore, hafter⟩ := hlookup "y" (fun d hd => by rw [hds] at hd; cases hd)
  have hy : (Moment.sample [.sample 41 1] .root 2 [.sample] []).arena.lookupFrom ⟨1, 1⟩ "y" =
      .ok (some (.int 41)) := rfl
  cases hy.symm.trans hbefore
  exact ⟨halive, hy, hafter⟩

/-- A scope id is never taken for that of another frame. From the moment at which it is issued it
names the frame that it was issued for, as long as that frame is not popped, so that the arena is
never without a frame at its place. Looking up from there begins with that frame, and the scope can
be made active. Once the frame was popped, looking up from there fails, and so does the evaluation
of any operand, before it begins, whatever frame has taken the place since. -/
theorem scopeId_names_one_frame (hm : m.Reachable) (hrun : m.Run ms m') {s : ScopeId}
    (hs : m.Issues s) :
    ∃ f ds, m.arena.frame? s = some f ∧ m'.log = m.log ++ ds ∧
      ((∀ n ∈ ms, s.index < n.arena.size) →
        m'.arena.frame? s = some { f with env := ds.foldl (Definition.bindIn s) f.env } ∧
        m'.arena.activate s = .ok { m'.arena with active := s } ∧
        ∃ ss, m'.arena.Lineage s (s :: ss) ∧ ∀ id, m'.arena.lookupFrom s id =
          .ok ((s :: ss).findSome? fun t => (m'.arena.frame? t).bind fun g => g.env.find? id)) ∧
      ((∃ n ∈ ms, n.arena.size ≤ s.index) →
        (∀ id, m'.arena.lookupFrom s id = .error s) ∧
        ∀ (eval : Evaluator κ) (w : World κ) (x : Operand), w.context = m'.world.context →
          x.owner = w.context.id → w.evalIn eval x s = .abort (.notLive s)) := by
  have hlive := hs.isLive hm.wellScoped
  obtain ⟨f, hf⟩ := Option.isSome_iff_exists.mp hlive
  obtain ⟨ds, hlog, hframe⟩ := hrun.frame?_eq hm.wellScoped
  refine ⟨f, ds, hf, hlog, fun hstays => ?_, fun hpopped => ?_⟩
  · have hsame := hframe s f hf hstays
    have hlive' : m'.arena.isLive s = true := Option.isSome_of_mem hsame
    have hm' := hrun.wellScoped hm.wellScoped m' hrun.last_mem
    obtain ⟨ss, hss⟩ := hm'.arena.exists_lineage hlive'
    obtain ⟨ts, rfl⟩ := hss.exists_cons
    exact ⟨hsame, Arena.activate_eq_ok hlive', ts, hss, hss.lookupFrom⟩
  · have hserial := hm.wellScoped.arena.serial_lt_of_isLive hlive
    have hdead := (hrun.gone_of_popped hserial hpopped).not_isLive
    refine ⟨Arena.lookupFrom_eq_error hdead, fun eval w x hw howner => ?_⟩
    rw [World.evalIn, if_neg (not_not_intro howner), hw, Arena.activate_eq_error hdead]

/-- A scope is released and its place is taken, as its id shows no more. -/
theorem scopeId_names_one_frame_reused :
    ∃ ms, (Moment.sample [.sample 41 1] .root 2 [] [.release 1]).Reachable ∧
      (Moment.sample [.sample 41 1] .root 2 [] [.release 1]).Run ms
        (Moment.sample [.sample 5 2] .root 3 [] [.release 1]) ∧
      (Moment.sample [.sample 41 1] .root 2 [] [.release 1]).Issues ⟨1, 1⟩ ∧
      (∃ n ∈ ms, n.arena.size ≤ 1) ∧
      (Moment.sample [.sample 5 2] .root 3 [] [.release 1]).arena.lookupFrom ⟨1, 2⟩ "y" =
        .ok (some (.int 5)) ∧
      (Moment.sample [.sample 5 2] .root 3 [] [.release 1]).arena.lookupFrom ⟨1, 1⟩ "y" =
        .error ⟨1, 1⟩ := by
  have hopen := Moment.sample_open [] 41 1 []
  have hreachable : (Moment.sample [.sample 41 1] .root 2 [] [.release 1]).Reachable :=
    ⟨_, _, Moment.sample_isNew, .step hopen (.stop _)⟩
  have hclose : Moment.Step (Moment.sample [.sample 41 1] .root 2 [] [.release 1])
      (Moment.sample [] .root 2 [] []) := @Moment.Step.closeScope _ _ 1 [] rfl
  have hrun := Moment.Run.step hclose (.step (Moment.sample_open [] 5 2 []) (.stop _))
  have hpush : (Moment.sample [] .root 1 [] []).arena.push .root (Frame.sample 41 1).env =
      .ok (⟨1, 1⟩, (Moment.sample [.sample 41 1] .root 2 [] [.release 1]).arena) := rfl
  obtain ⟨f, ds, -, -, -, hpopped⟩ :=
    scopeId_names_one_frame hreachable hrun (.opened hpush)
  have hsmall : ∃ n ∈ [Moment.sample [.sample 41 1] .root 2 [] [.release 1],
      Moment.sample [] .root 2 [] [], Moment.sample [.sample 5 2] .root 3 [] [.release 1]],
      n.arena.size ≤ 1 := ⟨_, List.mem_cons_of_mem _ List.mem_cons_self, Nat.le_refl _⟩
  exact ⟨_, hreachable, hrun, .opened hpush, hsmall, rfl, (hpopped hsmall).1 "y"⟩

end Fexpr
