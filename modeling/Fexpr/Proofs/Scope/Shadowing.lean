import Fexpr.Proofs.Eval.Lifetime

/-!
# What a definition shadows

A definition binds an identifier in the active scope. From a scope `s` the new value is found if the
active scope is on the way outwards from `s` and no scope before it binds the identifier
(`Arena.Exposed`). Every other look-up finds what it found before, so that scopes beside the active
one, scopes around it and copies of its environment are left as they were
(`definition_touches_shadowed`).
-/

namespace Fexpr

variable {κ : Type}

namespace Arena

variable {a : Arena κ} {s t : ScopeId} {ss ts : List ScopeId} {f : Frame κ} {id k : String}
  {v : Value κ}

/-! ## The way outwards -/

namespace Lineage

/-- There is one way outwards. -/
theorem unique (h : a.Lineage s ss) (h' : a.Lineage s ts) : ss = ts := by
  induction h generalizing ts with
  | outermost hf hp =>
    cases h' with
    | outermost => rfl
    | inside hf' hp' =>
      cases hf.symm.trans hf'
      cases hp.symm.trans hp'
  | inside hf hp hlt h ih =>
    cases h' with
    | outermost hf' hp' =>
      cases hf.symm.trans hf'
      cases hp.symm.trans hp'
    | inside hf' hp' hlt' h' =>
      cases hf.symm.trans hf'
      cases hp.symm.trans hp'
      rw [ih h']

/-- Outwards the place goes down. -/
theorem pairwise_lt (h : a.Lineage s ss) : ss.Pairwise fun x y => y.index < x.index := by
  induction h with
  | outermost hf hp => exact List.pairwise_singleton _ _
  | inside hf hp hlt h ih =>
    exact List.pairwise_cons.mpr ⟨fun t ht => Nat.lt_of_le_of_lt (h.index_le ht) hlt, ih⟩

end Lineage

/-! ## Frames after a definition -/

theorem isLive_define_iff : (a.define id v).isLive s = true ↔ a.isLive s = true := by
  refine ⟨fun h => ?_, isLive_define⟩
  obtain ⟨g, hg, hserial⟩ := isLive_iff.mp h
  obtain ⟨f, hf, hsame, -⟩ := exists_of_getElem?_define hg
  exact isLive_iff.mpr ⟨f, hf, hsame.symm.trans hserial⟩

namespace WellFormed

theorem frame?_define_of_ne (h : a.WellFormed) (hs : s ≠ a.active) :
    (a.define id v).frame? s = a.frame? s := by
  cases hf : a.frame? s with
  | some f => rw [h.frame?_define hf, if_neg hs]
  | none =>
    refine frame?_eq_none fun hlive => ?_
    obtain ⟨f, hf'⟩ := Option.isSome_iff_exists.mp (isLive_define_iff.mp hlive)
    rw [hf] at hf'
    cases hf'

theorem lineage_define_iff (h : a.WellFormed) :
    (a.define id v).Lineage s ss ↔ a.Lineage s ss := by
  have hkeeps : ∀ {s : ScopeId} {ss : List ScopeId}, a.Lineage s ss →
      (a.define id v).Lineage s ss := by
    intro s ss hss
    refine hss.congr fun t _ f hf => ⟨_, h.frame?_define hf, ?_⟩
    split <;> rfl
  refine ⟨fun hss => ?_, hkeeps⟩
  have hlive : a.isLive s = true := by
    obtain ⟨ts, rfl⟩ := hss.exists_cons
    obtain ⟨f, hf⟩ := hss.exists_frame List.mem_cons_self
    exact isLive_define_iff.mp (Option.isSome_of_mem hf)
  obtain ⟨ts, hts⟩ := h.exists_lineage hlive
  exact hss.unique (hkeeps hts) ▸ hts

end WellFormed

/-! ## Looking up after a definition -/

/-- What the frame of a scope says of an identifier. -/
def bound? (a : Arena κ) (k : String) (s : ScopeId) : Option (Value κ) :=
  (a.frame? s).bind fun f => f.env.find? k

/-- The active scope is on the way outwards from `s`, and no scope before it binds `id`. -/
def Exposed (a : Arena κ) (id : String) (s : ScopeId) : Prop :=
  ∃ nearer rest, a.Lineage s (nearer ++ a.active :: rest) ∧ ∀ t ∈ nearer, a.bound? id t = none

namespace WellFormed

/-- The one frame and the one identifier that a definition changes. -/
theorem bound?_define (h : a.WellFormed) (hs : ¬ (k = id ∧ s = a.active)) :
    (a.define id v).bound? k s = a.bound? k s := by
  by_cases hactive : s = a.active
  · subst hactive
    have hne : id ≠ k := fun heq => hs ⟨heq.symm, rfl⟩
    obtain ⟨f, hf⟩ := Option.isSome_iff_exists.mp h.active
    simp only [bound?, hf, h.frame?_define hf, if_true, Option.bind_some, Bindings.find?_insert,
      if_neg hne]
  · simp only [bound?, h.frame?_define_of_ne hactive]

theorem bound?_define_active (h : a.WellFormed) : (a.define id v).bound? id a.active = some v := by
  obtain ⟨f, hf⟩ := Option.isSome_iff_exists.mp h.active
  simp only [bound?, h.frame?_define hf, if_true, Option.bind_some, Bindings.find?_insert]

theorem lookupFrom_define_of_exposed (h : a.WellFormed) (hs : a.Exposed id s) :
    (a.define id v).lookupFrom s id = .ok (some v) := by
  obtain ⟨nearer, rest, hss, hfree⟩ := hs
  have hbefore := (List.pairwise_append.mp hss.pairwise_lt).2.2
  have hfree' : nearer.findSome? ((a.define id v).bound? id) = none := by
    refine List.findSome?_eq_none_iff.mpr fun t ht => ?_
    have hne : t ≠ a.active := by
      rintro rfl
      exact Nat.lt_irrefl _ (hbefore _ ht _ List.mem_cons_self)
    rw [h.bound?_define fun hboth => hne hboth.2, hfree t ht]
  refine ((h.lineage_define_iff.mpr hss).lookupFrom id).trans (congrArg Except.ok ?_)
  show List.findSome? ((a.define id v).bound? id) _ = some v
  rw [List.findSome?_append, hfree', List.findSome?_cons, h.bound?_define_active]
  rfl

/-- The scopes in a row say the same as before, unless the active one comes before all that bind the
identifier. -/
theorem findSome?_bound?_define (h : a.WellFormed)
    (hss : ¬ (k = id ∧ ∃ nearer rest, ss = nearer ++ a.active :: rest ∧
      ∀ t ∈ nearer, a.bound? k t = none)) :
    ss.findSome? ((a.define id v).bound? k) = ss.findSome? (a.bound? k) := by
  induction ss with
  | nil => rfl
  | cons t ss ih =>
    have hfirst : (a.define id v).bound? k t = a.bound? k t := by
      refine h.bound?_define fun hboth => hss ⟨hboth.1, [], ss, ?_, List.forall_mem_nil _⟩
      rw [hboth.2, List.nil_append]
    rw [List.findSome?_cons, List.findSome?_cons, hfirst]
    cases ht : a.bound? k t with
    | some u => rfl
    | none =>
      refine ih ?_
      rintro ⟨hk, nearer, rest, rfl, hfree⟩
      exact hss ⟨hk, t :: nearer, rest, rfl, List.forall_mem_cons.mpr ⟨ht, hfree⟩⟩

theorem lookupFrom_define_of_not_exposed (h : a.WellFormed)
    (hk : ¬ (k = id ∧ a.Exposed id s)) : (a.define id v).lookupFrom s k = a.lookupFrom s k := by
  by_cases hlive : a.isLive s = true
  · obtain ⟨ss, hss⟩ := h.exists_lineage hlive
    refine ((h.lineage_define_iff.mpr hss).lookupFrom k).trans
      ((congrArg Except.ok ?_).trans (hss.lookupFrom k).symm)
    refine h.findSome?_bound?_define ?_
    rintro ⟨rfl, nearer, rest, rfl, hfree⟩
    exact hk ⟨rfl, nearer, rest, hss, hfree⟩
  · rw [lookupFrom_eq_error hlive, lookupFrom_eq_error (isLive_define_iff.not.mpr hlive)]

end WellFormed

/-! ## Scopes that do not see the active one -/

/-- The scope `t` encloses `s`. -/
def Encloses (a : Arena κ) (t s : ScopeId) : Prop := t ≠ s ∧ ∃ ss, a.Lineage s ss ∧ t ∈ ss

/-- Two scopes of one parent. -/
def Beside (a : Arena κ) (s t : ScopeId) : Prop :=
  s ≠ t ∧ ∃ f g, a.frame? s = some f ∧ a.frame? t = some g ∧ f.parent = g.parent

theorem not_exposed_of_encloses (h : a.Encloses s a.active) : ¬ a.Exposed id s := by
  obtain ⟨hne, ss, hss, hs⟩ := h
  rintro ⟨nearer, rest, hway, -⟩
  have hle := hway.index_le (List.mem_append_right _ List.mem_cons_self)
  obtain ⟨ts, rfl⟩ := hss.exists_cons
  have hlt := (List.pairwise_cons.mp hss.pairwise_lt).1 s ((List.mem_cons.mp hs).resolve_left hne)
  omega

theorem not_exposed_of_beside (h : a.Beside s a.active) (hactive : a.Lineage a.active ss) :
    ¬ a.Exposed id s := by
  obtain ⟨hne, f, g, hf, hg, hparent⟩ := h
  rintro ⟨nearer, rest, hway, -⟩
  generalize hus : nearer ++ a.active :: rest = us at hway
  have hmem : a.active ∈ us := hus ▸ List.mem_append_right _ List.mem_cons_self
  cases hway with
  | outermost => exact hne (List.mem_singleton.mp hmem).symm
  | inside hf' hp hlt hway =>
    -- The parent lies below the active scope, and so do all scopes around it.
    cases hf.symm.trans hf'
    have hle := hway.index_le ((List.mem_cons.mp hmem).resolve_left hne.symm)
    cases hactive with
    | outermost hg' hp' =>
      cases hg.symm.trans hg'
      cases (hp.symm.trans hparent).trans hp'
    | inside hg' hp' hlt' =>
      cases hg.symm.trans hg'
      cases (hp.symm.trans hparent).trans hp'
      omega

end Arena

namespace Moment

variable {m m' : Moment κ} {ms : List (Moment κ)} {s : ScopeId} {f : Frame κ}

/-- A step leaves a frame as it is that it does not pop and that is not active. -/
theorem Step.frame?_of_inactive (h : Step m m') (hm : m.WellScoped)
    (hf : m.arena.frame? s = some f) (hs : m.arena.active ≠ s) (hlt : s.index < m'.arena.size) :
    m'.arena.frame? s = some f := by
  rcases h.arena_cases with ⟨-, ⟨t, ha⟩ | ⟨parent, env, ha⟩ | ⟨k, hk, ha⟩⟩ | ⟨id, v, -, ha⟩
  · exact ha ▸ hf
  · exact ha ▸ Arena.frame?_pushed hf
  · rw [ha, Arena.size_shrink hk] at hlt
    exact ha ▸ Arena.frame?_shrink hf hlt
  · rw [ha, hm.arena.frame?_define_of_ne hs.symm, hf]

theorem Run.frame?_of_inactive (h : m.Run ms m') (hm : m.WellScoped)
    (hf : m.arena.frame? s = some f)
    (hs : ∀ n ∈ ms, n.arena.active ≠ s ∧ s.index < n.arena.size) :
    m'.arena.frame? s = some f := by
  induction h with
  | stop m => exact hf
  | step h rest ih =>
    have hlater := fun n hn => hs n (List.mem_cons_of_mem _ hn)
    refine ih (h.wellScoped hm) ?_ hlater
    exact h.frame?_of_inactive hm hf (hs _ List.mem_cons_self).1 (hlater _ rest.first_mem).2

end Moment

/-- A definition in the active scope touches only what it shadows. Whatever scope an identifier is
looked up from, the new value is found if the identifier is the one defined, the active scope is on
the way outwards and no scope before it binds the identifier, and otherwise the same is found as
before. The scopes are the same, with the same scopes around them, and no frame but the active one
has changed, which has the new binding besides the others. So nothing changes for the scopes around
the active one and those beside it. A scope that was opened some time before with a copy of what the
active one held then, and was not active since, has the copy still. -/
theorem definition_touches_shadowed {m : Moment κ} (hm : m.Reachable) (id : String) (v : Value κ) :
    (∀ s, m.arena.isLive s = true → ∀ k, ∃ r, m.arena.lookupFrom s k = .ok r ∧
      (k = id ∧ m.arena.Exposed id s → (m.arena.define id v).lookupFrom s k = .ok (some v)) ∧
      (¬ (k = id ∧ m.arena.Exposed id s) → (m.arena.define id v).lookupFrom s k = .ok r)) ∧
    (∀ s, ((m.arena.define id v).isLive s = true ↔ m.arena.isLive s = true) ∧
      ∀ ss, (m.arena.define id v).Lineage s ss ↔ m.arena.Lineage s ss) ∧
    (∀ s ≠ m.arena.active, (m.arena.define id v).frame? s = m.arena.frame? s) ∧
    (∃ f, m.arena.frame? m.arena.active = some f ∧ (m.arena.define id v).frame? m.arena.active =
      some { f with env := f.env.insert id v }) ∧
    (∀ s, m.arena.Encloses s m.arena.active ∨ m.arena.Beside s m.arena.active → ∀ k,
      (m.arena.define id v).lookupFrom s k = m.arena.lookupFrom s k) ∧
    ∀ (n n' : Moment κ) (ms : List (Moment κ)) (f : Frame κ) (parent s : ScopeId),
      n.arena.frame? m.arena.active = some f → n.arena.push parent f.env = .ok (s, n'.arena) →
      n'.Reachable → n'.Run ms m →
      (∀ l ∈ ms, l.arena.active ≠ s ∧ s.index < l.arena.size) →
      ∃ g, (m.arena.define id v).frame? s = some g ∧ g.env = f.env := by
  have harena := hm.wellScoped.arena
  refine ⟨fun s hs k => ?_, fun s => ⟨Arena.isLive_define_iff, fun ss => harena.lineage_define_iff⟩,
    fun s hs => harena.frame?_define_of_ne hs, ?_, fun s hs k => ?_, ?_⟩
  · obtain ⟨ss, hss⟩ := harena.exists_lineage hs
    refine ⟨_, hss.lookupFrom k, ?_, fun hk => ?_⟩
    · rintro ⟨rfl, hexposed⟩
      exact harena.lookupFrom_define_of_exposed hexposed
    · rw [harena.lookupFrom_define_of_not_exposed hk, hss.lookupFrom k]
  · obtain ⟨f, hf, -⟩ := harena.exists_env
    exact ⟨f, hf, by rw [harena.frame?_define hf, if_pos rfl]⟩
  · refine harena.lookupFrom_define_of_not_exposed fun hk => ?_
    rcases hs with hs | hs
    · exact Arena.not_exposed_of_encloses hs hk.2
    · obtain ⟨ss, hss⟩ := harena.exists_lineage harena.active
      exact Arena.not_exposed_of_beside hs hss hk.2
  · intro n n' ms f parent s _ hpush hn' hrun hs
    obtain ⟨-, rfl, hopened⟩ := Arena.push_cases hpush
    have hcopy : n'.arena.frame? n.arena.next = some ⟨f.env, some parent, n.arena.nextSerial⟩ :=
      hopened ▸ Arena.frame?_next
    have hne : n.arena.next ≠ m.arena.active := (hs m hrun.last_mem).1.symm
    have hlast := hrun.frame?_of_inactive hn'.wellScoped hcopy hs
    exact ⟨_, (harena.frame?_define_of_ne hne).trans hlast, rfl⟩

/-- A scope in the first such scope, in which nothing is bound. -/
def Frame.innerSample : Frame Builtin := ⟨∅, some ⟨1, 1⟩, 3⟩

/-- A scope is opened, another one beside it with a copy of its environment, and a third one inside
the first, which is active. -/
theorem Moment.sample_copied : ∃ ms,
    (sample [.sample 41 1, .sample 41 2] .root 3 [] [.release 1]).Reachable ∧
    (sample [.sample 41 1, .sample 41 2] .root 3 [] [.release 1]).Run ms
      (sample [.sample 41 1, .sample 41 2, .innerSample] ⟨1, 1⟩ 4 [] [.restore .root, .release 1]) ∧
    ∀ n ∈ ms, n.arena.active ≠ ⟨2, 2⟩ ∧ 2 < n.arena.size := by
  have hopen : (sample [.sample 41 1] .root 2 [] [.release 1]).Reachable :=
    ⟨_, _, sample_isNew, .step (sample_open [] 41 1 []) (.stop _)⟩
  have hcopy : Step (sample [.sample 41 1] .root 2 [] [.release 1])
      (sample [.sample 41 1, .sample 41 2] .root 3 [] [.release 1]) := by
    have hpush : (sample [.sample 41 1] .root 2 [] [.release 1]).arena.push .root
        (Frame.sample 41 2).env =
        .ok (⟨2, 2⟩, (sample [.sample 41 1, .sample 41 2] .root 3 [] []).arena) := rfl
    have henv : Environment.KeepsOnly (sample [.sample 41 1] .root 2 [] [.release 1]).Alive
        (Frame.sample 41 2).env := Environment.KeepsOnly.empty.insert (List.forall_mem_nil _)
    exact .derive henv hpush
  have hactivate : Step (sample [.sample 41 1, .sample 41 2] .root 3 [] [.release 1])
      (sample [.sample 41 1, .sample 41 2] ⟨1, 1⟩ 3 [] [.restore .root, .release 1]) := by
    have hlive : (sample [.sample 41 1, .sample 41 2] .root 3 [] [.release 1]).arena.activate
        ⟨1, 1⟩ = .ok (sample [.sample 41 1, .sample 41 2] ⟨1, 1⟩ 3 [] []).arena := rfl
    exact .activate hlive
  have hinner : Step
      (sample [.sample 41 1, .sample 41 2] ⟨1, 1⟩ 3 [] [.restore .root, .release 1])
      (sample [.sample 41 1, .sample 41 2, .innerSample] ⟨1, 1⟩ 4 []
        [.restore .root, .release 1]) := by
    have hpush : (sample [.sample 41 1, .sample 41 2] ⟨1, 1⟩ 3 []
        [.restore .root, .release 1]).arena.push ⟨1, 1⟩ ∅ =
        .ok (⟨3, 3⟩, (sample [.sample 41 1, .sample 41 2, .innerSample] ⟨1, 1⟩ 4 [] []).arena) :=
      rfl
    exact .derive Environment.KeepsOnly.empty hpush
  refine ⟨_, hopen.later (.step hcopy (.stop _)), .step hactivate (.step hinner (.stop _)),
    fun n hn => ?_⟩
  simp only [List.mem_cons, List.not_mem_nil, or_false] at hn
  rcases hn with rfl | rfl | rfl <;> exact ⟨by decide, by decide⟩

/-- The new value is seen from the scope inside, not from the copy beside. -/
theorem definition_touches_shadowed_copied :
    (Moment.sample [.sample 41 1, .sample 41 2, .innerSample] ⟨1, 1⟩ 4 []
      [.restore .root, .release 1]).Reachable ∧
    (Arena.define (Moment.sample [.sample 41 1, .sample 41 2, .innerSample] ⟨1, 1⟩ 4 []
      [.restore .root, .release 1]).arena "y" (.int 7)).lookupFrom ⟨3, 3⟩ "y" =
      .ok (some (.int 7)) ∧
    (Arena.define (Moment.sample [.sample 41 1, .sample 41 2, .innerSample] ⟨1, 1⟩ 4 []
      [.restore .root, .release 1]).arena "y" (.int 7)).lookupFrom ⟨2, 2⟩ "y" =
      .ok (some (.int 41)) ∧
    ∃ g, (Arena.define (Moment.sample [.sample 41 1, .sample 41 2, .innerSample] ⟨1, 1⟩ 4 []
      [.restore .root, .release 1]).arena "y" (.int 7)).frame? ⟨2, 2⟩ = some g ∧
      g.env = (Frame.sample 41 1).env := by
  obtain ⟨ms, hcopied, hrun, hstays⟩ := Moment.sample_copied
  have hreachable := hcopied.later hrun
  obtain ⟨hlookup, -, -, -, hbeside, hcopy⟩ :=
    definition_touches_shadowed hreachable "y" (.int 7)
  have hexposed : (Moment.sample [.sample 41 1, .sample 41 2, .innerSample] ⟨1, 1⟩ 4 []
      [.restore .root, .release 1]).arena.Exposed "y" ⟨3, 3⟩ := by
    refine ⟨[⟨3, 3⟩], [.root], ?_, fun t ht => List.mem_singleton.mp ht ▸ rfl⟩
    exact .inside rfl rfl (by decide) (.inside rfl rfl (by decide) (.outermost rfl rfl))
  refine ⟨hreachable, ?_, ?_, ?_⟩
  · obtain ⟨r, -, hnew, -⟩ := hlookup ⟨3, 3⟩ rfl "y"
    exact hnew ⟨rfl, hexposed⟩
  · exact hbeside ⟨2, 2⟩ (.inr ⟨by decide, _, _, rfl, rfl, rfl⟩) "y"
  · have hpush : (Moment.sample [.sample 41 1] .root 2 [] [.release 1]).arena.push .root
        (Frame.sample 41 1).env =
        .ok (⟨2, 2⟩,
          (Moment.sample [.sample 41 1, .sample 41 2] .root 3 [] [.release 1]).arena) := rfl
    exact hcopy _ _ ms _ _ _ rfl hpush hcopied hrun hstays

end Fexpr
