import Fexpr.Proofs.Eval.Closures
import Fexpr.Proofs.Scope.WellFormed
import Fexpr.Proofs.Value.Alike

/-!
# Lexical scopes in an arena

A scope of an arena stands for a lexical one if its frame and those around it bind the values of the
environments, with every operand bound to a scope that stands for the one it was written in
(`Arena.IsScope`). Which scopes the operands of a value are bound to is told by a function from the
numbers of the lexical scopes (`Arena.Binds`). Nothing is said of the scopes that no operand in the
value was written in; they may be gone from the arena.

A scope stands for the same as long as its frame and those that it refers to stay. So more frames
make no difference, and neither does a release, which spares the scopes of all operands that are
still kept.
-/

namespace Fexpr.Arena

open Lexical (Scope Closed ClosedEnv ClosedValue)

variable {κ : Type} {id : Nat} {a b : Arena κ} {s parent : ScopeId} {envs : List (ClosedEnv κ)}
  {ρ σ : Nat → ScopeId} {scopes : List (Scope κ)} {xs ys : List Operand}

/-- The scope of the arena stands for the lexical scope of the given environments. -/
inductive IsScope (id : Nat) (a : Arena κ) : ScopeId → List (ClosedEnv κ) → Prop
  | mk {s : ScopeId} {f : Frame κ} {env : ClosedEnv κ} {outer : List (ClosedEnv κ)}
    {ρ : Nat → ScopeId} (hf : a.frame? s = some f)
    (henv : f.env = env.it.mapOperands (Operand.rebind id ρ))
    (hlt : ∀ x ∈ env.it.operands, x.owner = id → x.scope.index < env.scopes.length)
    (hscopes : ∀ x ∈ env.it.operands, x.owner = id → ∀ scope,
      env.scopes[x.scope.index]? = some scope → IsScope id a (ρ x.scope.index) scope.envs)
    (houtermost : f.parent = none → outer = [])
    (habove : ∀ parent, f.parent = some parent → parent.index < s.index)
    (houter : ∀ parent, f.parent = some parent → IsScope id a parent outer) :
    IsScope id a s (env :: outer)

/-- Of the operands, those of the context `id` are written in `scopes`, and for the scope of the
number `n` stands `ρ n`. -/
def Binds (id : Nat) (a : Arena κ) (ρ : Nat → ScopeId) (scopes : List (Scope κ))
    (xs : List Operand) : Prop :=
  ∀ x ∈ xs, x.owner = id →
    ∃ scope, scopes[x.scope.index]? = some scope ∧ a.IsScope id (ρ x.scope.index) scope.envs

/-- The environment is the closed one, with its operands bound to scopes of the arena. -/
def ClosesEnv (id : Nat) (a : Arena κ) (env : Environment κ) (c : ClosedEnv κ) : Prop :=
  ∃ ρ, env = c.it.mapOperands (Operand.rebind id ρ) ∧ a.Binds id ρ c.scopes c.it.operands

/-- The value is the closed one, with its operands bound to scopes of the arena. -/
def Closes (id : Nat) (a : Arena κ) (v : Value κ) (c : ClosedValue κ) : Prop :=
  ∃ ρ, v = c.it.mapOperands (Operand.rebind id ρ) ∧ a.Binds id ρ c.scopes c.it.operands

/-- The operand is the closed one, bound to a scope of the arena. -/
def ClosesOperand (id : Nat) (a : Arena κ) (x : Operand) (c : Closed Operand (Scope κ)) : Prop :=
  ∃ ρ, x = c.it.rebind id ρ ∧ a.Binds id ρ c.scopes [c.it]

namespace IsScope

theorem isLive (h : a.IsScope id s envs) : a.isLive s = true := by
  cases h with
  | mk hf => exact Option.isSome_of_mem hf

theorem of_closesEnv {f : Frame κ} {env : ClosedEnv κ} {outer : List (ClosedEnv κ)}
    (hf : a.frame? s = some f) (henv : a.ClosesEnv id f.env env)
    (houtermost : f.parent = none → outer = [])
    (houter : ∀ parent, f.parent = some parent → parent.index < s.index ∧
      a.IsScope id parent outer) : a.IsScope id s (env :: outer) := by
  obtain ⟨ρ, henv, hbinds⟩ := henv
  refine .mk hf henv ?_ ?_ houtermost (fun parent hp => (houter parent hp).1)
    fun parent hp => (houter parent hp).2
  · intro x hx howner
    obtain ⟨scope, hscope, -⟩ := hbinds x hx howner
    exact (List.getElem?_eq_some_iff.mp hscope).1
  · intro x hx howner scope hscope
    obtain ⟨scope', hscope', hstands⟩ := hbinds x hx howner
    cases hscope.symm.trans hscope'
    exact hstands

/-- What stands for a scope is a chain of environments. -/
theorem exists_chain (h : a.IsScope id s envs) :
    ∃ reals, a.Chain s reals ∧ List.Forall₂ (a.ClosesEnv id) reals envs := by
  induction h with
  | @mk s f env outer ρ hf henv hlt hscopes houtermost habove houter _ ih =>
    have hcloses : a.ClosesEnv id f.env env := by
      refine ⟨ρ, henv, fun x hx howner => ?_⟩
      have hx' := hlt x hx howner
      exact ⟨_, List.getElem?_eq_getElem hx', hscopes x hx howner _ (List.getElem?_eq_getElem hx')⟩
    cases hparent : f.parent with
    | none =>
      rw [houtermost hparent]
      exact ⟨[f.env], .outermost hf hparent, .cons hcloses .nil⟩
    | some parent =>
      obtain ⟨reals, hchain, hreals⟩ := ih parent hparent
      exact ⟨f.env :: reals, .inside hf hparent (habove parent hparent) hchain,
        .cons hcloses hreals⟩

/-- A scope stands for the same where there are more frames. -/
theorem mono (h : a.IsScope id s envs) (hab : ∀ s f, a.frame? s = some f → b.frame? s = some f) :
    b.IsScope id s envs := by
  induction h with
  | mk hf henv hlt _ houtermost habove _ ihscopes ihouter =>
    exact .mk (hab _ _ hf) henv hlt ihscopes houtermost habove ihouter

/-- A scope that is still live stands for the same where there are fewer frames, as long as the
scopes of all operands that are still bound are live. -/
theorem of_fewer (h : a.IsScope id s envs) (hb : b.WellFormed)
    (hba : ∀ s f, b.frame? s = some f → a.frame? s = some f)
    (hlive : ∀ x ∈ b.operands, x.owner = id → b.isLive x.scope = true)
    (hs : b.isLive s = true) : b.IsScope id s envs := by
  induction h with
  | @mk s f env outer ρ hf henv hlt _ houtermost habove _ ihscopes ihouter =>
    obtain ⟨g, hg⟩ := Option.isSome_iff_exists.mp hs
    cases (hba s g hg).symm.trans hf
    refine .mk hg henv hlt (fun x hx howner scope hscope => ?_) houtermost habove
      fun parent hp => ihouter parent hp ?_
    · refine ihscopes x hx howner scope hscope ?_
      have hbound : x.rebind id ρ ∈ b.operands := by
        refine mem_operands_iff.mpr ⟨s.index, f, (frame?_eq_some_iff.mp hg).1, ?_⟩
        rw [henv, Environment.operands_mapOperands]
        exact List.mem_map_of_mem hx
      have hscope := hlive _ hbound ((Operand.owner_rebind id ρ x).trans howner)
      rwa [Operand.rebind_of_own howner] at hscope
    · obtain ⟨hframe, -⟩ := frame?_eq_some_iff.mp hg
      have hpos : 0 < s.index := Nat.zero_lt_of_lt (habove parent hp)
      obtain ⟨p, hp', -, hlive⟩ := hb.inside hpos hframe
      cases hp.symm.trans hp'
      exact hlive

end IsScope

namespace Binds

theorem mono (h : a.Binds id ρ scopes xs)
    (hab : ∀ s f, a.frame? s = some f → b.frame? s = some f) : b.Binds id ρ scopes xs := by
  intro x hx howner
  obtain ⟨scope, hscope, hstands⟩ := h x hx howner
  exact ⟨scope, hscope, hstands.mono hab⟩

theorem subset (h : a.Binds id ρ scopes xs) (hys : ∀ y ∈ ys, y ∈ xs) : a.Binds id ρ scopes ys :=
  fun y hy => h y (hys y hy)

theorem isLive (h : a.Binds id ρ scopes xs) {x : Operand} (hx : x ∈ xs.map (Operand.rebind id ρ))
    (howner : x.owner = id) : a.isLive x.scope = true := by
  obtain ⟨y, hy, rfl⟩ := List.mem_map.mp hx
  rw [Operand.owner_rebind] at howner
  obtain ⟨scope, -, hstands⟩ := h y hy howner
  rw [Operand.rebind_of_own howner]
  exact hstands.isLive

/-- Operands of other contexts need no scope. -/
theorem of_foreign (h : ∀ x ∈ xs, x.owner ≠ id) : a.Binds id ρ scopes xs :=
  fun x hx howner => absurd howner (h x hx)

/-- Where all operands are still live, they are bound to scopes that stand for the same. -/
theorem of_fewer (h : a.Binds id ρ scopes xs) (hb : b.WellFormed)
    (hba : ∀ s f, b.frame? s = some f → a.frame? s = some f)
    (hlive : ∀ x ∈ b.operands, x.owner = id → b.isLive x.scope = true)
    (hxs : ∀ x ∈ xs.map (Operand.rebind id ρ), x.owner = id → b.isLive x.scope = true) :
    b.Binds id ρ scopes xs := by
  intro x hx howner
  obtain ⟨scope, hscope, hstands⟩ := h x hx howner
  have hs := hxs _ (List.mem_map_of_mem hx) ((Operand.owner_rebind id ρ x).trans howner)
  rw [Operand.rebind_of_own howner] at hs
  exact ⟨scope, hscope, hstands.of_fewer hb hba hlive hs⟩

/-- Two lists of scopes can be put behind each other, with the operands numbered accordingly. -/
theorem append {scopes' : List (Scope κ)} {ρ' : Nat → ScopeId} (h : a.Binds id ρ scopes xs)
    (h' : a.Binds id ρ' scopes' ys) :
    ∃ τ, a.Binds id τ (scopes ++ scopes') (xs ++ ys.map (Lexical.shift id scopes.length)) ∧
      (∀ x ∈ xs, x.rebind id τ = x.rebind id ρ) ∧
      ∀ y ∈ ys, (Lexical.shift id scopes.length y).rebind id τ = y.rebind id ρ' := by
  have hbehind : ∀ n, (if scopes.length + n < scopes.length then ρ (scopes.length + n)
      else ρ' (scopes.length + n - scopes.length)) = ρ' n := by
    intro n
    rw [if_neg (by omega), Nat.add_sub_cancel_left]
  refine ⟨fun n => if n < scopes.length then ρ n else ρ' (n - scopes.length), ?_, ?_, ?_⟩
  · intro x hx howner
    rcases List.mem_append.mp hx with hx | hx
    · obtain ⟨scope, hscope, hstands⟩ := h x hx howner
      have hlt := (List.getElem?_eq_some_iff.mp hscope).1
      refine ⟨scope, ?_, ?_⟩
      · rw [List.getElem?_append_left hlt, hscope]
      · simpa only [if_pos hlt] using hstands
    · obtain ⟨y, hy, rfl⟩ := List.mem_map.mp hx
      have howner : y.owner = id := (Operand.owner_rebind id _ y).symm.trans howner
      obtain ⟨scope, hscope, hstands⟩ := h' y hy howner
      have hindex : (Lexical.shift id scopes.length y).scope.index =
          scopes.length + y.scope.index := by
        rw [Lexical.shift, Operand.rebind_of_own howner]
      rw [hindex]
      refine ⟨scope, ?_, ?_⟩
      · rw [List.getElem?_append_right (Nat.le_add_right _ _), Nat.add_sub_cancel_left, hscope]
      · simpa only [hbehind] using hstands
  · intro x hx
    refine Operand.rebind_congr fun howner => ?_
    obtain ⟨scope, hscope, -⟩ := h x hx howner
    exact if_pos (List.getElem?_eq_some_iff.mp hscope).1
  · intro y _
    rw [Lexical.shift, Operand.rebind_rebind]
    exact Operand.rebind_congr fun _ => hbehind y.scope.index

/-- Operands that nobody can have got hold of do not occur: if whatever keeps the operands `xs`
where they are keeps also `ys`, then the operands `ys` are written in scopes of those of `xs`. -/
theorem of_forall (h : a.Binds id ρ scopes xs)
    (hys : ∀ σ, (∀ x ∈ xs, x.rebind id σ = x.rebind id ρ) →
      ∀ y ∈ ys, y.rebind id σ = y.rebind id ρ) : a.Binds id ρ scopes ys := by
  intro y hy howner
  by_cases hknown : ∃ x ∈ xs, x.owner = id ∧ x.scope.index = y.scope.index
  · obtain ⟨x, hx, howner', hindex⟩ := hknown
    rw [← hindex]
    exact h x hx howner'
  · -- Otherwise the scope of `y` alone can be replaced by another one.
    let other : ScopeId := ⟨(ρ y.scope.index).index + 1, 0⟩
    have hmoved := hys (Function.update ρ y.scope.index other) (fun x hx => ?_) y hy
    · rw [Operand.rebind_of_own howner, Operand.rebind_of_own howner] at hmoved
      have hindex := congrArg (fun z : Operand => z.scope.index) hmoved
      simp [other] at hindex
    · refine Operand.rebind_congr fun howner' => Function.update_of_ne ?_ _ _
      exact fun hindex => hknown ⟨x, hx, howner', hindex⟩

end Binds

end Fexpr.Arena
