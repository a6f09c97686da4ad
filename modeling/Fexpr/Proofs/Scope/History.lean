import Fexpr.Proofs.Scope.Moment

/-!
# What becomes of a scope

As long as the frame of a scope is not popped in a run, the scope id names that very frame, in which
nothing changes but what is defined while the scope is active (`Moment.Run.frame?_eq`). Once it is
popped the id names no frame ever again (`Moment.Run.gone_of_popped`): its place may be taken, but
only by frames with greater serial numbers.

A scope id is issued only for a frame that is there (`Moment.Issues.isLive`).
-/

namespace Fexpr

variable {κ : Type}

/-- The environment of the scope `s` after a definition. -/
def Definition.bindIn (s : ScopeId) (env : Environment κ) (d : Definition κ) : Environment κ :=
  if s = d.scope then env.insert d.id d.value else env

/-- What is not defined in the scope is bound as before. -/
theorem Definition.find?_foldl_bindIn {s : ScopeId} {id : String} {ds : List (Definition κ)}
    (h : ∀ d ∈ ds, d.scope = s → d.id ≠ id) (env : Environment κ) :
    Bindings.find? (ds.foldl (bindIn s) env) id = env.find? id := by
  induction ds generalizing env with
  | nil => rfl
  | cons d ds ih =>
    rw [List.foldl_cons, ih fun e he => h e (List.mem_cons_of_mem d he)]
    unfold bindIn
    split
    next hs =>
      have hne : d.id ≠ id := h d List.mem_cons_self hs.symm
      rw [Bindings.find?_insert, if_neg hne]
    · rfl

namespace Moment

variable {m m' : Moment κ} {ms : List (Moment κ)} {s : ScopeId}

/-- All that a step can do to the arena, and that only definitions are logged. -/
theorem Step.arena_cases (h : Step m m') :
    (m'.log = m.log ∧
      ((∃ s, m'.arena = { m.arena with active := s }) ∨
        (∃ parent env, m'.arena = m.arena.pushed parent env) ∨
        ∃ k, k ≤ m.arena.size ∧ m'.arena = m.arena.shrink k)) ∨
      ∃ id v, m'.log = m.log ++ [⟨m.arena.active, id, v⟩] ∧ m'.arena = m.arena.define id v := by
  cases h with
  | handles host identity held h => exact .inl ⟨rfl, .inl ⟨m.arena.active, rfl⟩⟩
  | define id hv => exact .inr ⟨id, _, rfl, rfl⟩
  | derive henv h | openScope henv h =>
    obtain ⟨-, -, rfl⟩ := Arena.push_cases h
    exact .inl ⟨rfl, .inr (.inl ⟨_, _, rfl⟩)⟩
  | closeScope h =>
    obtain ⟨k, hk, -, hrelease, -⟩ := m.arena.exists_pop_eq m.world.context.id m.kept
      (m.arena.size - _)
    exact .inl ⟨rfl, .inr (.inr ⟨k, hk, hrelease⟩)⟩
  | activate h =>
    obtain ⟨-, rfl⟩ := Arena.activate_cases h
    exact .inl ⟨rfl, .inl ⟨_, rfl⟩⟩
  | restore h ha =>
    obtain ⟨-, rfl⟩ := Arena.activate_cases ha
    exact .inl ⟨rfl, .inl ⟨_, rfl⟩⟩
  | enter h => exact .inl ⟨rfl, .inl ⟨m.arena.active, rfl⟩⟩
  | leave h => exact .inl ⟨rfl, .inl ⟨m.arena.active, rfl⟩⟩

/-! ## Frames that are not popped -/

/-- A frame that a step does not pop is the same afterwards, but for what was defined in it. -/
theorem Step.frame?_eq (h : Step m m') (hm : m.WellScoped) :
    ∃ ds, m'.log = m.log ++ ds ∧ ∀ s f, m.arena.frame? s = some f → s.index < m'.arena.size →
      m'.arena.frame? s = some { f with env := ds.foldl (Definition.bindIn s) f.env } := by
  rcases h.arena_cases with ⟨hlog, ⟨s, ha⟩ | ⟨parent, env, ha⟩ | ⟨k, hk, ha⟩⟩ | ⟨id, v, hlog, ha⟩
  · exact ⟨[], by simp [hlog], fun s f hf _ => ha ▸ hf⟩
  · exact ⟨[], by simp [hlog], fun s f hf _ => ha ▸ Arena.frame?_pushed hf⟩
  · refine ⟨[], by simp [hlog], fun s f hf hlt => ?_⟩
    rw [ha, Arena.size_shrink hk] at hlt
    rw [ha]
    exact Arena.frame?_shrink hf hlt
  · refine ⟨_, hlog, fun s f hf _ => ?_⟩
    rw [ha, hm.arena.frame?_define hf]
    simp only [List.foldl_cons, List.foldl_nil, Definition.bindIn]
    split <;> rfl

/-- A frame that is not popped in a run is the same at its end, but for what was defined in it. -/
theorem Run.frame?_eq (h : m.Run ms m') (hm : m.WellScoped) :
    ∃ ds, m'.log = m.log ++ ds ∧ ∀ s f, m.arena.frame? s = some f →
      (∀ n ∈ ms, s.index < n.arena.size) →
      m'.arena.frame? s = some { f with env := ds.foldl (Definition.bindIn s) f.env } := by
  induction h with
  | stop m => exact ⟨[], by simp, fun s f hf _ => hf⟩
  | step h rest ih =>
    obtain ⟨ds, hlog, hframe⟩ := h.frame?_eq hm
    obtain ⟨es, hlog', hframe'⟩ := ih (h.wellScoped hm)
    refine ⟨ds ++ es, by rw [hlog', hlog, List.append_assoc], fun s f hf hlt => ?_⟩
    have hlater := fun n hn => hlt n (List.mem_cons_of_mem _ hn)
    have hnext := hframe s f hf (hlater _ rest.first_mem)
    rw [hframe' s _ hnext hlater, List.foldl_append]

end Moment

/-! ## Frames that are popped -/

/-- The number of the scope was given out, and a frame at its place would be a newer one. -/
def Arena.Gone (a : Arena κ) (s : ScopeId) : Prop :=
  s.serial < a.nextSerial ∧ ∀ f, a.frames[s.index]? = some f → s.serial < f.serial

theorem Arena.Gone.not_isLive {a : Arena κ} {s : ScopeId} (h : a.Gone s) :
    ¬ a.isLive s = true := by
  intro hlive
  obtain ⟨f, hf, hserial⟩ := Arena.isLive_iff.mp hlive
  have := h.2 f hf
  omega

namespace Moment

variable {m m' : Moment κ} {ms : List (Moment κ)} {s : ScopeId}

theorem Step.nextSerial_le (h : Step m m') : m.arena.nextSerial ≤ m'.arena.nextSerial := by
  rcases h.arena_cases with ⟨-, ⟨s, ha⟩ | ⟨parent, env, ha⟩ | ⟨k, hk, ha⟩⟩ | ⟨id, v, -, ha⟩
  · exact ha ▸ Nat.le_refl _
  · exact ha ▸ Nat.le_succ _
  · exact ha ▸ Nat.le_refl _
  · exact ha ▸ Nat.le_refl _

/-- A frame that was popped does not come back. -/
theorem Step.gone (h : Step m m') (hs : m.arena.Gone s) : m'.arena.Gone s := by
  refine ⟨Nat.lt_of_lt_of_le hs.1 h.nextSerial_le, fun g hg => ?_⟩
  rcases h.arena_cases with ⟨-, ⟨t, ha⟩ | ⟨parent, env, ha⟩ | ⟨k, hk, ha⟩⟩ | ⟨id, v, -, ha⟩ <;>
    rw [ha] at hg
  · exact hs.2 g hg
  · rw [Arena.getElem?_pushed] at hg
    split at hg
    · cases hg
      exact hs.1
    · exact hs.2 g hg
  · exact hs.2 g (Arena.getElem?_of_shrink hg).2
  · obtain ⟨f, hf, hserial, -⟩ := Arena.exists_of_getElem?_define hg
    exact hserial ▸ hs.2 f hf

theorem Run.gone (h : m.Run ms m') (hs : m.arena.Gone s) : m'.arena.Gone s := by
  induction h with
  | stop m => exact hs
  | step h rest ih => exact ih (h.gone hs)

/-- Once there was no frame at the place of a scope, the scope is gone for good. -/
theorem Run.gone_of_popped (h : m.Run ms m') (hs : s.serial < m.arena.nextSerial)
    (hpopped : ∃ n ∈ ms, n.arena.size ≤ s.index) : m'.arena.Gone s := by
  have hgone : ∀ n : Moment κ, n.arena.size ≤ s.index → s.serial < n.arena.nextSerial →
      n.arena.Gone s := by
    intro n hn hserial
    refine ⟨hserial, fun f hf => ?_⟩
    have : s.index < n.arena.size := (Array.getElem?_eq_some_iff.mp hf).1
    omega
  obtain ⟨n, hn, hsize⟩ := hpopped
  induction h with
  | stop m =>
    rw [List.mem_singleton] at hn
    exact hgone m (hn ▸ hsize) hs
  | step h rest ih =>
    rcases List.mem_cons.mp hn with rfl | hn
    · exact rest.gone (h.gone (hgone _ hsize hs))
    · exact ih (Nat.lt_of_lt_of_le hs h.nextSerial_le) hn

/-- The ways to get hold of a scope id: it is the id of the active scope, of the scope that an
operand of the context was written in, or of a scope that was just opened. -/
inductive Issues (m : Moment κ) : ScopeId → Prop
  | active : Issues m m.arena.active
  | operand {x : Operand} (hx : m.Alive x) (howner : x.owner = m.world.context.id) :
    Issues m x.scope
  | opened {a : Arena κ} {parent s : ScopeId} {env : Environment κ}
    (h : a.push parent env = .ok (s, m.arena)) : Issues m s

theorem Issues.isLive (h : m.Issues s) (hm : m.WellScoped) : m.arena.isLive s = true := by
  cases h with
  | active => exact hm.arena.active
  | operand hx howner => exact hm.alive _ hx howner
  | opened h =>
    obtain ⟨-, rfl, harena⟩ := Arena.push_cases h
    rw [harena]
    exact Arena.isLive_next

end Moment

end Fexpr
