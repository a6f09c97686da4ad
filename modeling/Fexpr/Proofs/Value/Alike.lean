import Fexpr.Context
import Fexpr.Proofs.Form.Relocation
import Mathlib.Data.List.Forall2

/-!
# Values that are the same up to places

An operand is read from a source, and errors have places in sources. Two values are alike if they
differ only in this: what stands at a place of the one source stands at the corresponding place of
the other. Everything that can be asked of values, of environments and of scopes, but for places and
texts, has alike answers on both sides.
-/

namespace Fexpr

open Text (Span)

/-- Which places are taken for each other, and which procedures may occur in values. -/
structure Likeness (κ : Type) where
  /-- The offsets of the first source, moved, are taken for those of the second. -/
  Moves : Source → Source → (Nat → Nat) → Prop
  /-- The procedures that may occur. -/
  Allows : κ → Prop

variable {κ : Type} {L : Likeness κ}

/-! ## Values -/

/-- Entries with the same key. -/
inductive Bindings.EntryRel {α β : Type} (R : α → β → Prop) : String × α → String × β → Prop
  | mk (key : String) {a : α} {b : β} (h : R a b) : EntryRel R (key, a) (key, b)

inductive Operand.Alike (L : Likeness κ) : Operand → Operand → Prop
  | mk {source source' : Source} {φ : Nat → Nat} (h : L.Moves source source' φ) (form : Form)
    (scope : ScopeId) (owner : Nat) :
    Alike L ⟨source, form, scope, owner⟩ ⟨source', form.relocate φ, scope, owner⟩

inductive Procedure.Alike (L : Likeness κ) : Procedure κ → Procedure κ → Prop
  | mk (identity : Nat) {code : κ} {xs xs' : List Operand} (hcode : L.Allows code)
    (h : List.Forall₂ (Operand.Alike L) xs xs') : Alike L ⟨identity, code, xs⟩ ⟨identity, code, xs'⟩

mutual

inductive Value.Alike (L : Likeness κ) : Value κ → Value κ → Prop
  | nil : Value.Alike L .nil .nil
  | int (n : Int64) : Value.Alike L (.int n) (.int n)
  | uint (n : UInt64) : Value.Alike L (.uint n) (.uint n)
  | float (x : Float) : Value.Alike L (.float x) (.float x)
  | bool (b : Bool) : Value.Alike L (.bool b) (.bool b)
  | string (s : String) : Value.Alike L (.string s) (.string s)
  | procedure {p p' : Procedure κ} (h : p.Alike L p') : Value.Alike L (.procedure p) (.procedure p')
  | userData (i : Nat) {c c' : UserData κ} (h : UserData.Alike L c c') :
    Value.Alike L (.userData i c) (.userData i c')

inductive UserData.Alike (L : Likeness κ) : UserData κ → UserData κ → Prop
  | list {vs vs' : List (Value κ)} (h : List.Forall₂ (Value.Alike L) vs vs') :
    UserData.Alike L (.list vs) (.list vs')
  | record (kind : RecordKind) {fields fields' : List (String × Value κ)}
    (h : List.Forall₂ (Bindings.EntryRel (Value.Alike L)) fields fields') :
    UserData.Alike L (.record kind fields) (.record kind fields')
  | operand {x x' : Operand} (h : x.Alike L x') : UserData.Alike L (.operand x) (.operand x')
  | byte (b : UInt8) : UserData.Alike L (.byte b) (.byte b)
  | object (name : String) {vs vs' : List (Value κ)} (selector : Option (String → Option Selection))
    (h : List.Forall₂ (Value.Alike L) vs vs') :
    UserData.Alike L (.object name vs selector) (.object name vs' selector)

end

/-- The bindings bind the same identifiers, to what is related. -/
def Bindings.Rel {α β : Type} (R : α → β → Prop) (b : Bindings α) (b' : Bindings β) : Prop :=
  List.Forall₂ (EntryRel R) b.entries b'.entries

namespace Bindings

variable {α β : Type} {R : α → β → Prop} {entries : List (String × α)}
  {entries' : List (String × β)} {b : Bindings α} {b' : Bindings β}

theorem get?_rel (h : List.Forall₂ (EntryRel R) entries entries') (id : String) :
    Option.Rel R (get? id entries) (get? id entries') := by
  induction h with
  | nil => exact .none
  | cons he _ ih =>
    obtain ⟨key, hab⟩ := he
    rw [get?, get?]
    by_cases hkey : key = id
    · rw [if_pos hkey, if_pos hkey]
      exact .some hab
    · rw [if_neg hkey, if_neg hkey]
      exact ih

theorem put_rel (h : List.Forall₂ (EntryRel R) entries entries') (id : String) {a : α}
    {a' : β} (ha : R a a') : List.Forall₂ (EntryRel R) (put id a entries) (put id a' entries') := by
  induction h with
  | nil => exact .cons (.mk id ha) .nil
  | cons he hs ih =>
    obtain ⟨key, hab⟩ := he
    rw [put, put]
    by_cases hkey : key = id
    · rw [if_pos hkey, if_pos hkey]
      exact .cons (.mk id ha) hs
    · rw [if_neg hkey, if_neg hkey]
      exact .cons (.mk key hab) ih

theorem Rel.find? (h : Rel R b b') (id : String) : Option.Rel R (b.find? id) (b'.find? id) :=
  get?_rel h id

theorem Rel.insert (h : Rel R b b') (id : String) {a : α} {a' : β} (ha : R a a') :
    Rel R (b.insert id a) (b'.insert id a') :=
  put_rel h id ha

theorem Rel.empty : Rel R (∅ : Bindings α) (∅ : Bindings β) := .nil

theorem Rel.values (h : Rel R b b') : List.Forall₂ R b.values b'.values := by
  refine List.rel_map ?_ h
  rintro e e' ⟨key, hab⟩
  exact hab

theorem Rel.imp {R' : α → β → Prop} (h : Rel R b b') (hR : ∀ a ∈ b.values, ∀ c, R a c → R' a c) :
    Rel R' b b' := by
  have hmem : List.Forall₂ (fun e e' => e ∈ b.entries ∧ EntryRel R e e') b.entries b'.entries :=
    (List.forall₂_and_left _ _).mpr ⟨fun _ he => he, h⟩
  refine hmem.imp ?_
  rintro _ _ ⟨he, ⟨key, hac⟩⟩
  exact .mk key (hR _ (List.mem_map_of_mem he) _ hac)

theorem Rel.exists_of_mem (h : Rel R b b') {a : α} (ha : a ∈ b.values) : ∃ c, R a c := by
  have hvalues := h.values
  generalize b.values = as at hvalues ha
  generalize b'.values = cs at hvalues
  induction hvalues with
  | nil => cases ha
  | cons hac _ ih =>
    rcases List.mem_cons.mp ha with rfl | ha
    · exact ⟨_, hac⟩
    · exact ih ha

theorem Rel.ofList (h : List.Forall₂ (EntryRel R) entries entries') :
    Rel R (ofList entries) (ofList entries') := by
  refine List.rel_foldl ?_ Rel.empty h
  rintro b b' hb e e' ⟨key, hab⟩
  exact hb.insert key hab

end Bindings

/-- The environments bind the same identifiers to values that are alike. -/
abbrev Environment.Alike (L : Likeness κ) (env env' : Environment κ) : Prop :=
  Bindings.Rel (Value.Alike L) env env'

/-- Both are errors that are related by `E`, or both are results that are related by `R`. -/
inductive ExceptRel {ε α β : Type} (E : ε → ε → Prop) (R : α → β → Prop) :
    Except ε α → Except ε β → Prop
  | error {e e' : ε} (h : E e e') : ExceptRel E R (.error e) (.error e')
  | ok {a : α} {b : β} (h : R a b) : ExceptRel E R (.ok a) (.ok b)

theorem ExceptRel.mapError {ε δ α β : Type} {E : ε → ε → Prop} {D : δ → δ → Prop} {R : α → β → Prop}
    {r : Except ε α} {r' : Except ε β} {f f' : ε → δ} (h : ExceptRel E R r r')
    (hf : ∀ e e', E e e' → D (f e) (f' e')) : ExceptRel D R (r.mapError f) (r'.mapError f') := by
  cases h with
  | error he => exact .error (hf _ _ he)
  | ok ha => exact .ok ha

theorem Operand.Alike.refl (hmoves : ∀ source, L.Moves source source id) (x : Operand) :
    x.Alike L x := by
  obtain ⟨source, form, scope, owner⟩ := x
  have h := Operand.Alike.mk (hmoves source) form scope owner
  rwa [Form.relocate_id] at h

theorem forall₂_getElem? {α : Type} {R : α → α → Prop} {xs ys : List α}
    (h : List.Forall₂ R xs ys) (i : Nat) : Option.Rel R xs[i]? ys[i]? := by
  induction h generalizing i with
  | nil => exact .none
  | cons hx _ ih =>
    cases i with
    | zero => exact .some hx
    | succ i => exact ih i

theorem Scalar.value_alike (s : Scalar) : Value.Alike L s.value s.value := by
  cases s <;> constructor

theorem Selection.value?_alike {vs vs' : List (Value κ)} (h : List.Forall₂ (Value.Alike L) vs vs')
    (selection : Selection) :
    Option.Rel (Value.Alike L) (selection.value? vs) (selection.value? vs') := by
  cases selection with
  | part place => exact forall₂_getElem? h place
  | scalar s => exact .some s.value_alike

namespace Value

variable {v v' : Value κ}

theorem Alike.type_eq (h : v.Alike L v') : v'.type = v.type := by
  cases h <;> rfl

theorem Alike.select (h : v.Alike L v') (key : String) :
    ExceptRel Eq (Value.Alike L) (v.select key) (v'.select key) := by
  cases h with
  | userData i h =>
    cases h with
    | record kind h =>
      have hget := Bindings.get?_rel h key
      simp only [Value.select]
      generalize Bindings.get? key _ = found at hget ⊢
      generalize Bindings.get? key _ = found' at hget ⊢
      cases hget with
      | none => exact .error rfl
      | some hu => exact .ok hu
    | @object name vs vs' selector h =>
      cases selector with
      | none => exact .error rfl
      | some selector =>
        have hanswer : Option.Rel (Value.Alike L) ((selector key).bind (Selection.value? vs))
            ((selector key).bind (Selection.value? vs')) := by
          cases selector key with
          | none => exact .none
          | some selection => exact selection.value?_alike h
        simp only [Value.select]
        generalize (selector key).bind (Selection.value? vs) = found at hanswer ⊢
        generalize (selector key).bind (Selection.value? vs') = found' at hanswer ⊢
        cases hanswer with
        | none => exact .error rfl
        | some hu => exact .ok hu
    | list _ | operand _ | byte _ => exact .error rfl
  | _ => exact .error rfl

mutual

theorem Alike.operands {v v' : Value κ} (h : v.Alike L v') :
    List.Forall₂ (Operand.Alike L) v.operands v'.operands := by
  cases v with
  | userData i c =>
    cases h with
    | userData _ h =>
      rw [Value.operands, Value.operands]
      exact alike_operandsOfUserData h
  | procedure p =>
    cases h with
    | procedure h =>
      cases h with
      | mk _ _ h =>
        rw [Value.operands, Value.operands]
        exact h
  | _ =>
    cases h
    rw [Value.operands]
    exact .nil
termination_by structural v

theorem alike_operandsOfUserData {c c' : UserData κ} (h : c.Alike L c') :
    List.Forall₂ (Operand.Alike L) (UserData.operands c) (UserData.operands c') := by
  cases c with
  | list vs =>
    cases h with
    | list h =>
      rw [UserData.operands, UserData.operands]
      exact alike_operandsOfList h
  | record kind fields =>
    cases h with
    | record _ h =>
      rw [UserData.operands, UserData.operands]
      exact alike_operandsOfFields h
  | operand x =>
    cases h with
    | operand h =>
      rw [UserData.operands, UserData.operands]
      exact .cons h .nil
  | byte b =>
    cases h
    rw [UserData.operands]
    exact .nil
  | object name vs selector =>
    cases h with
    | object _ _ h =>
      rw [UserData.operands, UserData.operands]
      exact alike_operandsOfList h
termination_by structural c

theorem alike_operandsOfList {vs vs' : List (Value κ)}
    (h : List.Forall₂ (Value.Alike L) vs vs') :
    List.Forall₂ (Operand.Alike L) (operandsOfList vs) (operandsOfList vs') := by
  cases vs with
  | nil =>
    cases h
    rw [operandsOfList]
    exact .nil
  | cons v vs =>
    cases h with
    | cons hv hvs =>
      rw [operandsOfList, operandsOfList]
      exact List.rel_append hv.operands (alike_operandsOfList hvs)
termination_by structural vs

theorem alike_operandsOfFields {fields fields' : List (String × Value κ)}
    (h : List.Forall₂ (Bindings.EntryRel (Value.Alike L)) fields fields') :
    List.Forall₂ (Operand.Alike L) (operandsOfFields fields) (operandsOfFields fields') := by
  cases fields with
  | nil =>
    cases h
    rw [operandsOfFields]
    exact .nil
  | cons e fields =>
    cases h with
    | cons he hs =>
      obtain ⟨key, v⟩ := e
      obtain ⟨key, hv⟩ := he
      rw [operandsOfFields, operandsOfFields]
      exact List.rel_append hv.operands (alike_operandsOfFields hs)
termination_by structural fields

end

mutual

/-- Values that keep no operands are alike only if they are equal. -/
theorem Alike.eq_of_operands {v v' : Value κ} (h : v.Alike L v') (hv : v.operands = []) :
    v' = v := by
  cases v with
  | userData i c =>
    rw [Value.operands] at hv
    cases h with
    | userData _ h => rw [eq_of_alike_userData h hv]
  | procedure p =>
    rw [Value.operands] at hv
    cases h with
    | procedure h =>
      cases h with
      | mk identity _ h =>
        obtain rfl := hv
        cases h
        rfl
  | _ =>
    cases h
    rfl
termination_by structural v

theorem eq_of_alike_userData {c c' : UserData κ} (h : c.Alike L c')
    (hc : UserData.operands c = []) : c' = c := by
  cases c with
  | list vs =>
    rw [UserData.operands] at hc
    cases h with
    | list h => rw [eq_of_alike_list h hc]
  | record kind fields =>
    rw [UserData.operands] at hc
    cases h with
    | record _ h => rw [eq_of_alike_fields h hc]
  | operand x =>
    rw [UserData.operands] at hc
    cases hc
  | byte b =>
    cases h
    rfl
  | object name vs selector =>
    rw [UserData.operands] at hc
    cases h with
    | object _ _ h => rw [eq_of_alike_list h hc]
termination_by structural c

theorem eq_of_alike_list {vs vs' : List (Value κ)} (h : List.Forall₂ (Value.Alike L) vs vs')
    (hvs : operandsOfList vs = []) : vs' = vs := by
  cases vs with
  | nil =>
    cases h
    rfl
  | cons v vs =>
    rw [operandsOfList] at hvs
    obtain ⟨hv, hvs⟩ := List.append_eq_nil_iff.mp hvs
    cases h with
    | cons h hs => rw [h.eq_of_operands hv, eq_of_alike_list hs hvs]
termination_by structural vs

theorem eq_of_alike_fields {fields fields' : List (String × Value κ)}
    (h : List.Forall₂ (Bindings.EntryRel (Value.Alike L)) fields fields')
    (hfields : operandsOfFields fields = []) : fields' = fields := by
  cases fields with
  | nil =>
    cases h
    rfl
  | cons e fields =>
    obtain ⟨key, v⟩ := e
    rw [operandsOfFields] at hfields
    obtain ⟨hv, hfields⟩ := List.append_eq_nil_iff.mp hfields
    cases h with
    | cons he hs =>
      obtain ⟨_, h⟩ := he
      rw [h.eq_of_operands hv, eq_of_alike_fields hs hfields]
termination_by structural fields

end

/-! ## Values with only allowed procedures -/

mutual

/-- The procedures that occur in a value. -/
def codes : Value κ → List κ
  | procedure p => [p.code]
  | userData _ content => codesOfUserData content
  | _ => []

def codesOfUserData : UserData κ → List κ
  | .list items => codesOfList items
  | .record _ fields => codesOfFields fields
  | .object _ parts _ => codesOfList parts
  | _ => []

def codesOfList : List (Value κ) → List κ
  | [] => []
  | v :: vs => codes v ++ codesOfList vs

def codesOfFields : List (String × Value κ) → List κ
  | [] => []
  | (_, v) :: fields => codes v ++ codesOfFields fields

end

mutual

/-- If nothing need be moved, values with only allowed procedures are alike to themselves. -/
theorem Alike.refl (hmoves : ∀ source, L.Moves source source id) {v : Value κ}
    (h : ∀ code ∈ v.codes, L.Allows code) : v.Alike L v := by
  cases v with
  | procedure p =>
    obtain ⟨identity, code, captured⟩ := p
    have hcode := h code (by rw [codes]; exact List.mem_singleton.mpr rfl)
    exact .procedure (.mk identity hcode (List.forall₂_same.mpr fun x _ => .refl hmoves x))
  | userData i c =>
    rw [codes] at h
    exact .userData i (alike_refl_of_userData hmoves h)
  | nil => exact .nil
  | int n => exact .int n
  | uint n => exact .uint n
  | float x => exact .float x
  | bool b => exact .bool b
  | string s => exact .string s
termination_by structural v

theorem alike_refl_of_userData (hmoves : ∀ source, L.Moves source source id) {c : UserData κ}
    (h : ∀ code ∈ codesOfUserData c, L.Allows code) : c.Alike L c := by
  cases c with
  | list vs =>
    rw [codesOfUserData] at h
    exact .list (alike_refl_of_list hmoves h)
  | record kind fields =>
    rw [codesOfUserData] at h
    exact .record kind (alike_refl_of_fields hmoves h)
  | operand x => exact .operand (.refl hmoves x)
  | byte b => exact .byte b
  | object name parts selector =>
    rw [codesOfUserData] at h
    exact .object name selector (alike_refl_of_list hmoves h)
termination_by structural c

theorem alike_refl_of_list (hmoves : ∀ source, L.Moves source source id) {vs : List (Value κ)}
    (h : ∀ code ∈ codesOfList vs, L.Allows code) :
    List.Forall₂ (Value.Alike L) vs vs := by
  cases vs with
  | nil => exact .nil
  | cons v vs =>
    rw [codesOfList] at h
    obtain ⟨hv, hvs⟩ := List.forall_mem_append.mp h
    exact .cons (Alike.refl hmoves hv) (alike_refl_of_list hmoves hvs)
termination_by structural vs

theorem alike_refl_of_fields (hmoves : ∀ source, L.Moves source source id)
    {fields : List (String × Value κ)} (h : ∀ code ∈ codesOfFields fields, L.Allows code) :
    List.Forall₂ (Bindings.EntryRel (Value.Alike L)) fields fields := by
  cases fields with
  | nil => exact .nil
  | cons e fields =>
    obtain ⟨key, v⟩ := e
    rw [codesOfFields] at h
    obtain ⟨hv, hvs⟩ := List.forall_mem_append.mp h
    exact .cons (.mk key (Alike.refl hmoves hv)) (alike_refl_of_fields hmoves hvs)
termination_by structural fields

end

end Value

end Fexpr
