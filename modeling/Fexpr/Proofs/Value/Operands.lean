import Fexpr.Context

/-!
# The operands that values keep

A value keeps operands if it is one, has captured some, or holds values that keep some. Taking a
value out of an environment or of a record, or putting one in, brings no other operands with it.
-/

namespace Fexpr

variable {κ : Type} {P : Operand → Prop}

/-- All operands that the value keeps satisfy `P`. -/
def Value.KeepsOnly (P : Operand → Prop) (v : Value κ) : Prop := ∀ x ∈ v.operands, P x

/-- All operands that the values of the environment keep satisfy `P`. -/
def Environment.KeepsOnly (P : Operand → Prop) (env : Environment κ) : Prop :=
  ∀ x ∈ env.operands, P x

/-- All operands that the reply keeps satisfy `P`; an error keeps none. -/
def Reply.KeepsOnly (P : Operand → Prop) (r : Reply κ) : Prop := ∀ v, r = .ok v → v.KeepsOnly P

theorem Value.mem_operandsOfList {x : Operand} {vs : List (Value κ)} :
    x ∈ operandsOfList vs ↔ ∃ v ∈ vs, x ∈ v.operands := by
  induction vs with
  | nil => simp [operandsOfList]
  | cons v vs ih => simp [operandsOfList, ih]

theorem Value.mem_operandsOfFields {x : Operand} {fields : List (String × Value κ)} :
    x ∈ operandsOfFields fields ↔ ∃ e ∈ fields, x ∈ e.2.operands := by
  induction fields with
  | nil => simp [operandsOfFields]
  | cons e fields ih =>
    obtain ⟨key, v⟩ := e
    simp [operandsOfFields, ih]

theorem Environment.keepsOnly_iff {env : Environment κ} :
    env.KeepsOnly P ↔ ∀ e ∈ env.entries, e.2.KeepsOnly P := by
  constructor
  · intro h e he x hx
    exact h x (Value.mem_operandsOfFields.mpr ⟨e, he, hx⟩)
  · intro h x hx
    obtain ⟨e, he, hx⟩ := Value.mem_operandsOfFields.mp hx
    exact h e he x hx

namespace Bindings

variable {α : Type} {id : String} {a : α} {entries : List (String × α)}

theorem mem_of_get?_eq_some (h : get? id entries = some a) : (id, a) ∈ entries := by
  induction entries with
  | nil => cases h
  | cons e entries ih =>
    obtain ⟨key, b⟩ := e
    rw [get?] at h
    split at h
    next hkey =>
      cases h
      cases hkey
      exact List.mem_cons_self
    · exact List.mem_cons_of_mem _ (ih h)

theorem eq_or_mem_of_mem_put {e : String × α} (h : e ∈ put id a entries) :
    e = (id, a) ∨ e ∈ entries := by
  induction entries with
  | nil => exact .inl (List.mem_singleton.mp h)
  | cons d entries ih =>
    obtain ⟨key, b⟩ := d
    rw [put] at h
    split at h
    · rcases List.mem_cons.mp h with h | h
      · exact .inl h
      · exact .inr (List.mem_cons_of_mem _ h)
    · rcases List.mem_cons.mp h with h | h
      · exact .inr (h ▸ List.mem_cons_self)
      · exact (ih h).imp_right (List.mem_cons_of_mem _)

theorem eq_or_mem_of_mem_values_insert {b : Bindings α} {c : α} (h : c ∈ (b.insert id a).values) :
    c = a ∨ c ∈ b.values := by
  obtain ⟨e, he, rfl⟩ := List.mem_map.mp h
  rcases eq_or_mem_of_mem_put he with rfl | he
  · exact .inl rfl
  · exact .inr (List.mem_map_of_mem he)

end Bindings

namespace Environment.KeepsOnly

variable {env : Environment κ} {id : String} {v : Value κ}

theorem empty : Environment.KeepsOnly P (∅ : Environment κ) := fun _ hx => nomatch hx

theorem of_find? (h : env.KeepsOnly P) (hv : env.find? id = some v) : v.KeepsOnly P :=
  Environment.keepsOnly_iff.mp h _ (Bindings.mem_of_get?_eq_some hv)

theorem insert (h : env.KeepsOnly P) (hv : v.KeepsOnly P) :
    Environment.KeepsOnly P (env.insert id v) := by
  refine Environment.keepsOnly_iff.mpr fun e he => ?_
  rcases Bindings.eq_or_mem_of_mem_put he with rfl | he
  · exact hv
  · exact Environment.keepsOnly_iff.mp h e he

theorem ofList {pairs : List (String × Value κ)} (h : ∀ e ∈ pairs, e.2.KeepsOnly P) :
    Environment.KeepsOnly P (Bindings.ofList pairs) := by
  have hfold : ∀ env : Environment κ, env.KeepsOnly P →
      Environment.KeepsOnly P (pairs.foldl (fun b (id, a) => b.insert id a) env) := by
    induction pairs with
    | nil => exact fun _ henv => henv
    | cons e pairs ih =>
      obtain ⟨he, hpairs⟩ := List.forall_mem_cons.mp h
      exact fun env henv => ih hpairs _ (henv.insert he)
  exact hfold ∅ empty

end Environment.KeepsOnly

/-- An object answers a value that it holds, or one that keeps no operands. -/
theorem Selection.mem_or_operands_eq_nil {parts : List (Value κ)} {selection : Selection}
    {v : Value κ} (h : selection.value? parts = some v) : v ∈ parts ∨ v.operands = [] := by
  cases selection with
  | part place => exact .inl (List.mem_of_getElem? h)
  | scalar s =>
    obtain rfl := Option.some.inj h
    cases s <;> exact .inr (by simp [Scalar.value, Value.operands])

/-- What is selected from a value was held by it. -/
theorem Value.KeepsOnly.select {v w : Value κ} {key : String} (h : v.KeepsOnly P)
    (hw : v.select key = .ok w) : w.KeepsOnly P := by
  unfold Value.select at hw
  split at hw
  next identity kind fields =>
    split at hw
    next found hfound =>
      cases hw
      intro x hx
      exact h x (Value.mem_operandsOfFields.mpr ⟨_, Bindings.mem_of_get?_eq_some hfound, hx⟩)
    · cases hw
  next identity name parts selector =>
    split at hw
    next found hfound =>
      cases hw
      obtain ⟨selection, -, hfound⟩ := Option.bind_eq_some_iff.mp hfound
      intro x hx
      rcases Selection.mem_or_operands_eq_nil hfound with hmem | hnil
      · exact h x (Value.mem_operandsOfList.mpr ⟨_, hmem, hx⟩)
      · rw [hnil] at hx
        cases hx
    · cases hw
  · cases hw

namespace Reply.KeepsOnly

theorem ok {v : Value κ} (h : v.KeepsOnly P) : Reply.KeepsOnly P (.ok v : Reply κ) := by
  intro v' hv'
  cases hv'
  exact h

theorem error (e : Error) : Reply.KeepsOnly P (.error e : Reply κ) := fun _ h => nomatch h

end Reply.KeepsOnly

end Fexpr
