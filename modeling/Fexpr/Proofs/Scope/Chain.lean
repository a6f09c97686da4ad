import Fexpr.Scope.Arena

/-!
# Chains of scopes

From a scope outwards an arena holds a chain of environments (`Arena.Chain`), and looking an
identifier up is finding the first environment of the chain that binds it. Frames stay as they are
when scopes are pushed.
-/

namespace Fexpr.Arena

variable {κ : Type} {a : Arena κ} {s parent : ScopeId} {f : Frame κ}
  {env : Environment κ} {envs : List (Environment κ)}

theorem frame?_eq_some_iff :
    a.frame? s = some f ↔ a.frames[s.index]? = some f ∧ f.serial = s.serial := by
  unfold frame?
  cases h : a.frames[s.index]? with
  | none => simp
  | some g =>
    by_cases hg : g.serial = s.serial
    · simp only [hg, if_true, Option.some.injEq]
      constructor
      · rintro rfl
        exact ⟨rfl, hg⟩
      · rintro ⟨rfl, -⟩
        rfl
    · simp only [hg, if_false, Option.some.injEq]
      constructor
      · intro h
        cases h
      · rintro ⟨rfl, hf⟩
        exact absurd hf hg

theorem index_lt_size (h : a.frame? s = some f) : s.index < a.size :=
  (Array.getElem?_eq_some_iff.mp (frame?_eq_some_iff.mp h).1).1

/-- The arena with one more scope. -/
def pushed (a : Arena κ) (parent : ScopeId) (env : Environment κ) : Arena κ :=
  { a with
    frames := a.frames.push ⟨env, some parent, a.nextSerial⟩
    nextSerial := a.nextSerial + 1 }

/-- The scope that is pushed next. -/
def next (a : Arena κ) : ScopeId := ⟨a.size, a.nextSerial⟩

theorem push_eq_ok (h : a.isLive parent = true) :
    a.push parent env = .ok (a.next, a.pushed parent env) := by
  unfold push
  rw [if_pos h]
  rfl

theorem activate_eq_ok (h : a.isLive s = true) : a.activate s = .ok { a with active := s } := by
  unfold activate
  rw [if_pos h]

theorem frame?_pushed (h : a.frame? s = some f) : (a.pushed parent env).frame? s = some f := by
  have hlt : s.index < a.frames.size := index_lt_size h
  obtain ⟨hf, hserial⟩ := frame?_eq_some_iff.mp h
  refine frame?_eq_some_iff.mpr ⟨?_, hserial⟩
  rw [pushed, Array.getElem?_push_lt hlt]
  rw [Array.getElem?_eq_getElem hlt] at hf
  exact hf

theorem frame?_next :
    (a.pushed parent env).frame? a.next = some ⟨env, some parent, a.nextSerial⟩ :=
  frame?_eq_some_iff.mpr ⟨Array.getElem?_push_size, rfl⟩

/-- The environments from a scope outwards. Every scope lies above the one it is inside of. -/
inductive Chain (a : Arena κ) : ScopeId → List (Environment κ) → Prop
  | outermost {s : ScopeId} {f : Frame κ} (hf : a.frame? s = some f) (hp : f.parent = none) :
    Chain a s [f.env]
  | inside {s parent : ScopeId} {f : Frame κ} {envs : List (Environment κ)}
    (hf : a.frame? s = some f) (hp : f.parent = some parent) (hlt : parent.index < s.index)
    (h : Chain a parent envs) : Chain a s (f.env :: envs)

namespace Chain

/-- The innermost binding is found, in at most as many steps as there are scopes below. -/
theorem lookupWithin (h : a.Chain s envs) (id : String) (steps : Nat) (hsteps : s.index < steps) :
    a.lookupWithin id steps s = .ok (envs.findSome? (·.find? id)) := by
  -- Along the chain the index goes down at least as fast as the steps do.
  induction h generalizing steps with
  | @outermost s f hf hp =>
    obtain ⟨k, rfl⟩ : ∃ k, steps = k + 1 := ⟨steps - 1, by omega⟩
    cases hv : f.env.find? id with
    | none => simp [Arena.lookupWithin, hf, hv, hp]
    | some v => simp [Arena.lookupWithin, hf, hv]
  | @inside s parent f envs hf hp hlt h ih =>
    obtain ⟨k, rfl⟩ : ∃ k, steps = k + 1 := ⟨steps - 1, by omega⟩
    cases hv : f.env.find? id with
    | none => simp [Arena.lookupWithin, hf, hv, hp, ih k (by omega)]
    | some v => simp [Arena.lookupWithin, hf, hv]

theorem lookup (h : a.Chain a.active envs) (id : String) :
    a.lookup id = .ok (envs.findSome? (·.find? id)) :=
  h.lookupWithin id (a.active.index + 1) (Nat.lt_succ_self _)

/-- The operands that the environments of a chain keep are kept by the arena. -/
theorem mem_operands (h : a.Chain s envs) (henv : env ∈ envs) {x : Operand}
    (hx : x ∈ env.operands) : x ∈ a.operands := by
  have hframe : ∀ {s : ScopeId} {f : Frame κ}, a.frame? s = some f → x ∈ f.env.operands →
      x ∈ a.operands := by
    intro s f hf hx
    have hmem : f ∈ a.frames := Array.mem_of_getElem? (frame?_eq_some_iff.mp hf).1
    exact List.mem_flatMap.mpr ⟨f, Array.mem_toList_iff.mpr hmem, hx⟩
  induction h with
  | outermost hf hp =>
    rw [List.mem_singleton] at henv
    subst henv
    exact hframe hf hx
  | inside hf hp hlt h ih =>
    rcases List.mem_cons.mp henv with rfl | henv
    · exact hframe hf hx
    · exact ih henv

end Chain

@[simp] theorem operands_pushed :
    (a.pushed parent env).operands = a.operands ++ env.operands := by
  simp [operands, pushed, Environment.operands]

end Fexpr.Arena
