import Fexpr.Eval
import Fexpr.Proofs.Scope.Chain
import Fexpr.Proofs.Value.Operands

/-!
# Atoms in a list of environments

What names, paths and options stand for depends on nothing of an arena but the environments from the
active scope outwards: a name stands for what the first environment that binds it says. So atoms
have the values in an arena that they have in the environments of its chain.
-/

namespace Fexpr

variable {κ : Type}

/-- The operand, without where it was written and which context made it. -/
def Operand.unscoped (x : Operand) : Operand := { x with scope := .root, owner := 0 }

/-- The call, with nothing in it to tell where it was written. -/
def Call.unscoped (call : Call κ) : Call κ :=
  { call with operands := call.operands.map Operand.unscoped }

namespace Lexical

/-- The innermost binding of a name. -/
def nameValue (source : Source) (envs : List (Environment κ)) (n : Form.Name) : Reply κ :=
  match envs.findSome? (·.find? n.text) with
  | none => .error (.unbound n.text ⟨source, n.span, none⟩)
  | some v => .ok v

/-- The value of an atom. -/
def atomValue (source : Source) (envs : List (Environment κ)) : Form.Atom → Reply κ
  | .literal l => l.value source
  | .name n => nameValue source envs n
  | .path base attributes _ => (nameValue source envs base).bind (Form.follow source attributes)

/-- What a call hands over: its operands and the values of its options. -/
def collect (source : Source) (envs : List (Environment κ)) :
    List Form.Item → Call κ → Except Error (Call κ)
  | [], given => .ok given
  | .operand f :: items, given =>
    collect source envs items
      { given with operands := given.operands ++ [⟨source, f, .root, 0⟩] }
  | .option key chosen :: items, given =>
    (atomValue source envs chosen).bind fun v =>
      collect source envs items { given with options := given.options.insert key.text v }

end Lexical

/-! ## The operands that values keep -/

section Keeps

variable {P : Operand → Prop} {source : Source} {envs : List (Environment κ)}

theorem Form.Literal.value_keepsOnly (l : Form.Literal) :
    Reply.KeepsOnly P (l.value source : Reply κ) := by
  intro v hv
  have hnone : v.operands = [] := by
    unfold Form.Literal.value at hv
    dsimp only at hv
    split at hv <;> (try split at hv) <;> cases hv <;> simp [Value.operands]
  rw [Value.KeepsOnly, hnone]
  exact List.forall_mem_nil _

theorem Form.follow_keepsOnly {attributes : List Form.Attribute} {v : Value κ}
    (h : v.KeepsOnly P) : Reply.KeepsOnly P (Form.follow source attributes v) := by
  induction attributes generalizing v with
  | nil => exact .ok h
  | cons a attributes ih =>
    rw [Form.follow]
    split
    next w hw => exact ih (h.select hw)
    · exact .error _
    · exact .error _

namespace Lexical

theorem nameValue_keepsOnly (h : ∀ env ∈ envs, env.KeepsOnly P) (n : Form.Name) :
    Reply.KeepsOnly P (nameValue source envs n) := by
  unfold nameValue
  split
  · exact .error _
  next v hv =>
    obtain ⟨env, henv, hfind⟩ := List.exists_of_findSome?_eq_some hv
    exact .ok ((h env henv).of_find? hfind)

theorem atomValue_keepsOnly (h : ∀ env ∈ envs, env.KeepsOnly P) (a : Form.Atom) :
    Reply.KeepsOnly P (atomValue source envs a) := by
  cases a with
  | literal l => exact l.value_keepsOnly
  | name n => exact nameValue_keepsOnly h n
  | path base attributes span =>
    have hbase : Reply.KeepsOnly P (nameValue source envs base) := nameValue_keepsOnly h base
    rw [atomValue]
    cases hv : nameValue source envs base with
    | error e => exact .error e
    | ok v => exact Form.follow_keepsOnly (hbase v hv)

theorem collect_keepsOnly (h : ∀ env ∈ envs, env.KeepsOnly P) {items : List Form.Item}
    {given given' : Call κ} (hgiven : Environment.KeepsOnly P given.options)
    (hcollect : collect source envs items given = .ok given') :
    Environment.KeepsOnly P given'.options := by
  induction items generalizing given with
  | nil =>
    cases hcollect
    exact hgiven
  | cons item items ih =>
    cases item with
    | operand f =>
      rw [collect] at hcollect
      refine ih ?_ hcollect
      exact hgiven
    | option key chosen =>
      have hchosen : Reply.KeepsOnly P (atomValue source envs chosen) :=
        atomValue_keepsOnly h chosen
      rw [collect] at hcollect
      cases hv : atomValue source envs chosen with
      | error e =>
        rw [hv] at hcollect
        cases hcollect
      | ok v =>
        rw [hv] at hcollect
        exact ih (hgiven.insert (hchosen v hv)) hcollect

end Lexical

end Keeps

/-! ## Atoms in an arena -/

section Atoms

variable {arena : Arena κ} {source : Source} {envs : List (Environment κ)}

theorem Form.Name.value_eq_lexical (h : arena.Chain arena.active envs) (name : Form.Name) :
    name.value source arena = (Lexical.nameValue source envs name).mapError Stop.error := by
  unfold Form.Name.value Lexical.nameValue
  rw [h.lookup]
  cases envs.findSome? (·.find? name.text) with
  | none => rfl
  | some v => rfl

theorem Form.Atom.value_eq_lexical (h : arena.Chain arena.active envs) (a : Form.Atom) :
    a.value source arena = (Lexical.atomValue source envs a).mapError Stop.error := by
  cases a with
  | literal l => rfl
  | name name => exact name.value_eq_lexical h
  | path base attributes span =>
    rw [Form.Atom.value, Lexical.atomValue, base.value_eq_lexical h]
    cases Lexical.nameValue source envs base with
    | error e => rfl
    | ok v => rfl

/-- A call hands over the same operands, up to where they were written, and the same options. -/
theorem Form.collect_eq_lexical {c : Context κ} (h : c.arena.Chain c.arena.active envs)
    (items : List Form.Item) (given : Call κ) :
    (Form.collect source c items given).map Call.unscoped =
      (Lexical.collect source envs items given.unscoped).mapError Stop.error := by
  induction items generalizing given with
  | nil => rfl
  | cons item items ih =>
    cases item with
    | operand f =>
      rw [Form.collect, Lexical.collect, ih]
      simp [Call.unscoped, Operand.unscoped]
    | option key chosen =>
      rw [Form.collect, Lexical.collect, chosen.value_eq_lexical h]
      cases Lexical.atomValue source envs chosen with
      | error e => rfl
      | ok v => exact ih _

theorem Form.collect_cases (source : Source) {c : Context κ}
    (h : c.arena.Chain c.arena.active envs) (items : List Form.Item) :
    (∃ e, Form.collect source c items ⟨[], ∅⟩ = .error (.error e) ∧
      Lexical.collect source envs items ⟨[], ∅⟩ = .error e) ∨
    ∃ given, Form.collect source c items ⟨[], ∅⟩ = .ok given ∧
      Lexical.collect source envs items ⟨[], ∅⟩ = .ok given.unscoped := by
  have hcollect : (Form.collect source c items ⟨[], ∅⟩).map Call.unscoped =
      (Lexical.collect source envs items ⟨[], ∅⟩).mapError Stop.error :=
    Form.collect_eq_lexical h items ⟨[], ∅⟩
  cases hreal : Form.collect source c items ⟨[], ∅⟩ with
  | error stop =>
    cases hlexical : Lexical.collect source envs items ⟨[], ∅⟩ with
    | error e =>
      rw [hreal, hlexical] at hcollect
      cases hcollect
      exact .inl ⟨e, rfl, rfl⟩
    | ok given =>
      rw [hreal, hlexical] at hcollect
      cases hcollect
  | ok given =>
    cases hlexical : Lexical.collect source envs items ⟨[], ∅⟩ with
    | error e =>
      rw [hreal, hlexical] at hcollect
      cases hcollect
    | ok given' =>
      rw [hreal, hlexical] at hcollect
      cases hcollect
      exact .inr ⟨given, rfl, rfl⟩

end Atoms

end Fexpr
