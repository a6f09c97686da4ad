import Fexpr.Eval
import Fexpr.Proofs.Value.Operands

/-!
# Operands replaced in values

`v.mapOperands f` is the value `v` with every operand that it keeps replaced by its image under `f`.
Everything else about the value stays: its type, its identity, and which keys it has.

The images of interest are those that differ from the operand in nothing but the scope
(`Operand.IsRebinding`), as `x.rebind id ρ` does: what the context `id` wrote is bound to the scope
that `ρ` gives for the number of its own.
-/

namespace Fexpr

variable {κ : Type} {f g h : Operand → Operand}

/-! ## Bindings -/

namespace Bindings

variable {α β : Type}

/-- The same identifiers, bound to the images. -/
def map (φ : α → β) (b : Bindings α) : Bindings β := ⟨b.entries.map fun e => (e.1, φ e.2)⟩

theorem get?_map (φ : α → β) (id : String) (entries : List (String × α)) :
    get? id (entries.map fun e => (e.1, φ e.2)) = (get? id entries).map φ := by
  induction entries with
  | nil => rfl
  | cons e entries ih =>
    obtain ⟨key, a⟩ := e
    rw [List.map_cons, get?, get?]
    by_cases hkey : key = id
    · rw [if_pos hkey, if_pos hkey]
      rfl
    · rw [if_neg hkey, if_neg hkey]
      exact ih

theorem put_map (φ : α → β) (id : String) (a : α) (entries : List (String × α)) :
    put id (φ a) (entries.map fun e => (e.1, φ e.2)) =
      (put id a entries).map fun e => (e.1, φ e.2) := by
  induction entries with
  | nil => rfl
  | cons e entries ih =>
    obtain ⟨key, b⟩ := e
    rw [List.map_cons, put, put]
    by_cases hkey : key = id
    · rw [if_pos hkey, if_pos hkey]
      rfl
    · rw [if_neg hkey, if_neg hkey, ih]
      rfl

theorem find?_map (φ : α → β) (b : Bindings α) (id : String) :
    (b.map φ).find? id = (b.find? id).map φ :=
  get?_map φ id b.entries

theorem insert_map (φ : α → β) (b : Bindings α) (id : String) (a : α) :
    (b.map φ).insert id (φ a) = (b.insert id a).map φ :=
  congrArg mk (put_map φ id a b.entries)

theorem ofList_map (φ : α → β) (pairs : List (String × α)) :
    ofList (pairs.map fun e => (e.1, φ e.2)) = (ofList pairs).map φ := by
  have hfold : ∀ b : Bindings α,
      (pairs.map fun e => (e.1, φ e.2)).foldl (fun b e => b.insert e.1 e.2) (b.map φ) =
        (pairs.foldl (fun b e => b.insert e.1 e.2) b).map φ := by
    induction pairs with
    | nil => exact fun _ => rfl
    | cons e pairs ih =>
      intro b
      rw [List.map_cons, List.foldl_cons, List.foldl_cons, ← ih]
      exact congrArg (List.foldl _ · _) (insert_map φ b e.1 e.2)
  exact hfold empty

end Bindings

/-! ## Values -/

namespace Value

/-- What holds of a value whenever it holds of the values in it holds of every value. -/
@[elab_as_elim]
theorem nested_induction {motive : Value κ → Prop} (nil : motive .nil) (int : ∀ n, motive (.int n))
    (uint : ∀ n, motive (.uint n)) (float : ∀ x, motive (.float x)) (bool : ∀ b, motive (.bool b))
    (string : ∀ s, motive (.string s)) (procedure : ∀ p, motive (.procedure p))
    (list : ∀ i vs, (∀ v ∈ vs, motive v) → motive (.userData i (.list vs)))
    (record : ∀ i kind fields, (∀ e ∈ fields, motive e.2) →
      motive (.userData i (.record kind fields)))
    (operand : ∀ i x, motive (.userData i (.operand x)))
    (byte : ∀ i b, motive (.userData i (.byte b)))
    (object : ∀ i name parts selector, (∀ v ∈ parts, motive v) →
      motive (.userData i (.object name parts selector)))
    (v : Value κ) : motive v :=
  @Value.rec κ motive (fun c => ∀ i, motive (.userData i c)) (fun vs => ∀ v ∈ vs, motive v)
    (fun fields => ∀ e ∈ fields, motive e.2) (fun e => motive e.2) nil int uint float bool string
    procedure (fun i _ h => h i) (fun vs h i => list i vs h)
    (fun kind fields h i => record i kind fields h) (fun x i => operand i x) (fun b i => byte i b)
    (fun name parts selector h i => object i name parts selector h) (List.forall_mem_nil _)
    (fun _ _ hv hvs => List.forall_mem_cons.mpr ⟨hv, hvs⟩) (List.forall_mem_nil _)
    (fun _ _ he hs => List.forall_mem_cons.mpr ⟨he, hs⟩) (fun _ _ hv => hv) v

mutual

/-- The value, with every operand that it keeps replaced. -/
def mapOperands (f : Operand → Operand) : Value κ → Value κ
  | procedure p => procedure { p with captured := p.captured.map f }
  | userData i content => userData i (mapOperandsOfUserData f content)
  | v => v

def mapOperandsOfUserData (f : Operand → Operand) : UserData κ → UserData κ
  | .list items => .list (mapOperandsOfList f items)
  | .record kind fields => .record kind (mapOperandsOfFields f fields)
  | .operand x => .operand (f x)
  | .byte b => .byte b
  | .object name parts selector => .object name (mapOperandsOfList f parts) selector

def mapOperandsOfList (f : Operand → Operand) : List (Value κ) → List (Value κ)
  | [] => []
  | v :: vs => mapOperands f v :: mapOperandsOfList f vs

def mapOperandsOfFields (f : Operand → Operand) :
    List (String × Value κ) → List (String × Value κ)
  | [] => []
  | (key, v) :: fields => (key, mapOperands f v) :: mapOperandsOfFields f fields

end

theorem mapOperandsOfList_eq (vs : List (Value κ)) :
    mapOperandsOfList f vs = vs.map (mapOperands f) := by
  induction vs with
  | nil => rw [mapOperandsOfList, List.map_nil]
  | cons v vs ih => rw [mapOperandsOfList, List.map_cons, ih]

theorem mapOperandsOfFields_eq (fields : List (String × Value κ)) :
    mapOperandsOfFields f fields = fields.map fun e => (e.1, e.2.mapOperands f) := by
  induction fields with
  | nil => rw [mapOperandsOfFields, List.map_nil]
  | cons e fields ih => rw [mapOperandsOfFields, List.map_cons, ih]

attribute [simp] mapOperands mapOperandsOfUserData mapOperandsOfList_eq mapOperandsOfFields_eq

section Operands

variable {v : Value κ}

theorem operandsOfList_map {φ : Value κ → Value κ} {vs : List (Value κ)}
    (h : ∀ v ∈ vs, (φ v).operands = v.operands.map f) :
    operandsOfList (vs.map φ) = (operandsOfList vs).map f := by
  induction vs with
  | nil => simp [operandsOfList]
  | cons v vs ih =>
    obtain ⟨hv, hvs⟩ := List.forall_mem_cons.mp h
    simp [operandsOfList, hv, ih hvs]

theorem operandsOfFields_map {φ : Value κ → Value κ} {fields : List (String × Value κ)}
    (h : ∀ e ∈ fields, (φ e.2).operands = e.2.operands.map f) :
    operandsOfFields (fields.map fun e => (e.1, φ e.2)) = (operandsOfFields fields).map f := by
  induction fields with
  | nil => simp [operandsOfFields]
  | cons e fields ih =>
    obtain ⟨he, hfields⟩ := List.forall_mem_cons.mp h
    simp [operandsOfFields, he, ih hfields]

theorem operands_mapOperands (v : Value κ) : (v.mapOperands f).operands = v.operands.map f := by
  induction v using nested_induction with
  | nil | int | uint | float | bool | string | procedure | operand | byte =>
    simp [operands, UserData.operands]
  | list i vs ih => simp [operands, UserData.operands, operandsOfList_map ih]
  | record i kind fields ih => simp [operands, UserData.operands, operandsOfFields_map ih]
  | object i name parts selector ih => simp [operands, UserData.operands, operandsOfList_map ih]

/-- Replacing twice is replacing once. -/
theorem mapOperands_mapOperands (hv : ∀ x ∈ v.operands, h x = g (f x)) :
    (v.mapOperands f).mapOperands g = v.mapOperands h := by
  induction v using nested_induction with
  | nil | int | uint | float | bool | string | byte => simp
  | procedure p =>
    simp only [operands] at hv
    simpa using fun x hx => (hv x hx).symm
  | operand i x =>
    simp only [operands, UserData.operands, List.mem_singleton, forall_eq] at hv
    simp [hv]
  | list i vs ih =>
    simp only [operands, UserData.operands, mem_operandsOfList] at hv
    simpa using fun v hmem => ih v hmem fun x hx => hv x ⟨v, hmem, hx⟩
  | record i kind fields ih =>
    simp only [operands, UserData.operands, mem_operandsOfFields] at hv
    simpa using fun key v hmem => ih (key, v) hmem fun x hx => hv x ⟨(key, v), hmem, hx⟩
  | object i name parts selector ih =>
    simp only [operands, UserData.operands, mem_operandsOfList] at hv
    simpa using fun v hmem => ih v hmem fun x hx => hv x ⟨v, hmem, hx⟩

/-- If every operand stays, then so does the value. -/
theorem mapOperands_eq_self (hv : ∀ x ∈ v.operands, f x = x) : v.mapOperands f = v := by
  induction v using nested_induction with
  | nil | int | uint | float | bool | string | byte => simp
  | procedure p =>
    simp only [operands] at hv
    simp [List.map_congr_left hv]
  | operand i x =>
    simp only [operands, UserData.operands, List.mem_singleton, forall_eq] at hv
    simp [hv]
  | list i vs ih =>
    simp only [operands, UserData.operands, mem_operandsOfList] at hv
    have hvs : ∀ v ∈ vs, v.mapOperands f = v := fun v hmem =>
      ih v hmem fun x hx => hv x ⟨v, hmem, hx⟩
    simp [List.map_congr_left hvs]
  | record i kind fields ih =>
    simp only [operands, UserData.operands, mem_operandsOfFields] at hv
    have hfields : ∀ e ∈ fields, (e.1, e.2.mapOperands f) = e := fun e hmem =>
      congrArg (e.1, ·) (ih e hmem fun x hx => hv x ⟨e, hmem, hx⟩)
    simp [List.map_congr_left hfields]
  | object i name parts selector ih =>
    simp only [operands, UserData.operands, mem_operandsOfList] at hv
    have hvs : ∀ v ∈ parts, v.mapOperands f = v := fun v hmem =>
      ih v hmem fun x hx => hv x ⟨v, hmem, hx⟩
    simp [List.map_congr_left hvs]

theorem mapOperands_congr (hv : ∀ x ∈ v.operands, f x = g x) :
    v.mapOperands f = v.mapOperands g := by
  have hself : v.mapOperands (fun x => x) = v := mapOperands_eq_self fun _ _ => rfl
  calc v.mapOperands f = (v.mapOperands fun x => x).mapOperands f := by rw [hself]
    _ = v.mapOperands g := mapOperands_mapOperands fun x hx => (hv x hx).symm

end Operands

@[simp] theorem type_mapOperands (v : Value κ) : (v.mapOperands f).type = v.type := by
  cases v <;> simp [type]

theorem select_mapOperands (v : Value κ) (key : String) :
    (v.mapOperands f).select key = (v.select key).map (mapOperands f) := by
  cases v with
  | userData i content =>
    cases content with
    | record kind fields =>
      simp only [mapOperands, mapOperandsOfUserData, mapOperandsOfFields_eq, select,
        Bindings.get?_map]
      cases Bindings.get? key fields <;> rfl
    | object name parts selector =>
      cases selector with
      | none => simp [select, Except.map]
      | some selector =>
        simp only [mapOperands, mapOperandsOfUserData, mapOperandsOfList_eq, select]
        cases selector key with
        | none => rfl
        | some selection =>
          cases selection with
          | part place =>
            simp only [Option.bind_some, Selection.value?, List.getElem?_map]
            cases parts[place]? <;> rfl
          | scalar s => cases s <;> simp [Selection.value?, Scalar.value, Except.map]
    | list | operand | byte => simp [select, Except.map]
  | _ => simp [select, Except.map]

end Value

/-! ## What is made of values -/

/-- The environment, with every operand that its values keep replaced. -/
def Environment.mapOperands (f : Operand → Operand) (env : Environment κ) : Environment κ :=
  Bindings.map (Value.mapOperands f) env

namespace Environment

variable {env : Environment κ}

theorem mapOperands_ofList (pairs : List (String × Value κ)) :
    Environment.mapOperands f (Bindings.ofList pairs) =
      Bindings.ofList (pairs.map fun e => (e.1, e.2.mapOperands f)) :=
  (Bindings.ofList_map _ pairs).symm

theorem operands_mapOperands (env : Environment κ) :
    (env.mapOperands f).operands = env.operands.map f :=
  Value.operandsOfFields_map fun e _ => e.2.operands_mapOperands

theorem mapOperands_congr (henv : ∀ x ∈ env.operands, f x = g x) :
    env.mapOperands f = env.mapOperands g := by
  refine congrArg Bindings.mk (List.map_congr_left fun e he => congrArg (e.1, ·) ?_)
  exact Value.mapOperands_congr fun x hx => henv x (Value.mem_operandsOfFields.mpr ⟨e, he, hx⟩)

theorem mapOperands_eq_self (henv : ∀ x ∈ env.operands, f x = x) : env.mapOperands f = env := by
  have hentries : ∀ e ∈ env.entries, (e.1, e.2.mapOperands f) = e := fun e he =>
    congrArg (e.1, ·) (Value.mapOperands_eq_self fun x hx =>
      henv x (Value.mem_operandsOfFields.mpr ⟨e, he, hx⟩))
  exact congrArg Bindings.mk ((List.map_congr_left hentries).trans (List.map_id' _))

end Environment

/-- The procedure, with every operand that it has captured replaced. -/
def Procedure.mapOperands (f : Operand → Operand) (p : Procedure κ) : Procedure κ :=
  { p with captured := p.captured.map f }

/-- The call, with its operands and those that its options keep replaced. -/
def Call.mapOperands (f : Operand → Operand) (call : Call κ) : Call κ :=
  ⟨call.operands.map f, Environment.mapOperands f call.options⟩

/-- The reply, with every operand that it keeps replaced. -/
def Reply.mapOperands (f : Operand → Operand) (r : Reply κ) : Reply κ :=
  r.map (Value.mapOperands f)

theorem Form.follow_mapOperands (source : Source) (attributes : List Form.Attribute)
    (v : Value κ) : Form.follow source attributes (v.mapOperands f) =
      Reply.mapOperands f (Form.follow source attributes v) := by
  induction attributes generalizing v with
  | nil => rfl
  | cons a attributes ih =>
    rw [Form.follow, Form.follow, v.select_mapOperands]
    cases v.select a.key with
    | ok w => exact ih w
    | error e => cases e <;> simp [Reply.mapOperands, Except.map]

/-! ## Other scopes for operands -/

namespace Operand

/-- Nothing of an operand changes but the scope that it is bound to. -/
def IsRebinding (f : Operand → Operand) : Prop := ∀ x, f x = { x with scope := (f x).scope }

/-- The operand, bound to the scope that `ρ` gives for the place of its own one, if the context `id`
has made it. -/
def rebind (id : Nat) (ρ : Nat → ScopeId) (x : Operand) : Operand :=
  if x.owner = id then { x with scope := ρ x.scope.index } else x

variable {id : Nat} {ρ σ : Nat → ScopeId} {x : Operand}

theorem isRebinding_rebind (id : Nat) (ρ : Nat → ScopeId) : IsRebinding (rebind id ρ) := by
  intro x
  unfold rebind
  split <;> rfl

theorem rebind_of_own (hx : x.owner = id) : x.rebind id ρ = { x with scope := ρ x.scope.index } :=
  if_pos hx

theorem rebind_of_foreign (hx : x.owner ≠ id) : x.rebind id ρ = x := if_neg hx

@[simp] theorem owner_rebind (id : Nat) (ρ : Nat → ScopeId) (x : Operand) :
    (x.rebind id ρ).owner = x.owner := by
  rw [isRebinding_rebind id ρ x]

theorem rebind_congr (h : x.owner = id → ρ x.scope.index = σ x.scope.index) :
    x.rebind id ρ = x.rebind id σ := by
  by_cases hx : x.owner = id
  · rw [rebind_of_own hx, rebind_of_own hx, h hx]
  · rw [rebind_of_foreign hx, rebind_of_foreign hx]

theorem rebind_rebind (id : Nat) (ρ σ : Nat → ScopeId) (x : Operand) :
    (x.rebind id ρ).rebind id σ = x.rebind id fun n => σ (ρ n).index := by
  by_cases hx : x.owner = id
  · rw [rebind_of_own hx, rebind_of_own hx]
    exact if_pos hx
  · rw [rebind_of_foreign hx, rebind_of_foreign hx, rebind_of_foreign hx]

end Operand

end Fexpr
