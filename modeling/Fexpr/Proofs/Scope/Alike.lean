import Fexpr.Proofs.Value.Alike

/-!
# Scopes that are the same up to places

Two arenas are alike if they have the same scopes, which bind the same identifiers to values that are
alike. They answer alike, and they stay alike whatever is done to both. In particular the same
scopes are released, since what pins a scope is the scope that an operand was written in and not its
place in a source.
-/

namespace Fexpr

variable {κ : Type} {L : Likeness κ}

structure Frame.Alike (L : Likeness κ) (f f' : Frame κ) : Prop where
  env : Environment.Alike L f.env f'.env
  parent : f'.parent = f.parent
  serial : f'.serial = f.serial

structure Arena.Alike (L : Likeness κ) (a a' : Arena κ) : Prop where
  frames : List.Forall₂ (Frame.Alike L) a.frames.toList a'.frames.toList
  active : a'.active = a.active
  nextSerial : a'.nextSerial = a.nextSerial

theorem forall₂_modify {α : Type} {R : α → α → Prop} {xs ys : List α} {f g : α → α}
    (h : List.Forall₂ R xs ys) (hf : ∀ x y, R x y → R (f x) (g y)) (i : Nat) :
    List.Forall₂ R (xs.modify i f) (ys.modify i g) := by
  induction h generalizing i with
  | nil =>
    rw [List.modify_nil, List.modify_nil]
    exact .nil
  | cons hx hs ih =>
    cases i with
    | zero => exact .cons (hf _ _ hx) hs
    | succ i =>
      rw [List.modify_succ_cons, List.modify_succ_cons]
      exact .cons hx (ih i)

/-- The procedures that occur in the bindings of all scopes. -/
def Arena.codes (a : Arena κ) : List κ :=
  a.frames.toList.flatMap fun f => Value.codesOfFields f.env.entries

theorem Arena.Alike.refl (hmoves : ∀ source, L.Moves source source id) {a : Arena κ}
    (h : ∀ code ∈ a.codes, L.Allows code) : a.Alike L a := by
  refine ⟨List.forall₂_same.mpr fun f hf => ⟨?_, rfl, rfl⟩, rfl, rfl⟩
  refine Value.alike_refl_of_fields hmoves fun code hcode => h code ?_
  exact List.mem_flatMap.mpr ⟨f, hf, hcode⟩

namespace Arena.Alike

variable {a a' : Arena κ} (h : a.Alike L a')

include h

theorem size_eq : a'.size = a.size := h.frames.length_eq.symm

theorem getElem? (i : Nat) : Option.Rel (Frame.Alike L) a.frames[i]? a'.frames[i]? := by
  have hi := forall₂_getElem? h.frames i
  rwa [Array.getElem?_toList, Array.getElem?_toList] at hi

theorem frame? (s : ScopeId) : Option.Rel (Frame.Alike L) (a.frame? s) (a'.frame? s) := by
  have hs := h.getElem? s.index
  simp only [Arena.frame?]
  generalize a.frames[s.index]? = f at hs
  generalize a'.frames[s.index]? = f' at hs
  cases hs with
  | none => exact .none
  | @some f f' hf =>
    simp only [hf.serial]
    by_cases hserial : f.serial = s.serial
    · rw [if_pos hserial, if_pos hserial]
      exact .some hf
    · rw [if_neg hserial, if_neg hserial]
      exact .none

theorem isLive_eq (s : ScopeId) : a'.isLive s = a.isLive s := by
  have hs := h.frame? s
  simp only [Arena.isLive]
  generalize a.frame? s = f at hs
  generalize a'.frame? s = f' at hs
  cases hs <;> rfl

theorem lookupWithin (id : String) (steps : Nat) (s : ScopeId) :
    ExceptRel Eq (Option.Rel (Value.Alike L)) (a.lookupWithin id steps s)
      (a'.lookupWithin id steps s) := by
  induction steps generalizing s with
  | zero => exact .error rfl
  | succ steps ih =>
    have hs := h.frame? s
    simp only [Arena.lookupWithin]
    generalize a.frame? s = f at hs
    generalize a'.frame? s = f' at hs
    cases hs with
    | none => exact .error rfl
    | @some f f' hf =>
      have hid := hf.env.find? id
      simp only [hf.parent]
      generalize f.env.find? id = v at hid
      generalize f'.env.find? id = v' at hid
      cases hid with
      | some hv => exact .ok (.some hv)
      | none =>
        cases f.parent with
        | none => exact .ok .none
        | some parent => exact ih parent

theorem lookup (id : String) :
    ExceptRel Eq (Option.Rel (Value.Alike L)) (a.lookup id) (a'.lookup id) := by
  rw [Arena.lookup, Arena.lookup, h.active]
  exact h.lookupWithin id _ _

theorem env : ExceptRel Eq (Environment.Alike L) a.env a'.env := by
  have hs := h.frame? a.active
  simp only [Arena.env, h.active]
  generalize a.frame? a.active = f at hs
  generalize a'.frame? a.active = f' at hs
  cases hs with
  | none => exact .error rfl
  | some hf => exact .ok hf.env

theorem outerEnv : ExceptRel Eq (Option.Rel (Environment.Alike L)) a.outerEnv a'.outerEnv := by
  have hs := h.frame? a.active
  simp only [Arena.outerEnv, h.active]
  generalize a.frame? a.active = f at hs
  generalize a'.frame? a.active = f' at hs
  cases hs with
  | none => exact .error rfl
  | @some f f' hf =>
    simp only [hf.parent]
    cases f.parent with
    | none => exact .ok .none
    | some parent =>
      have hparent := h.frame? parent
      simp only
      generalize a.frame? parent = g at hparent
      generalize a'.frame? parent = g' at hparent
      cases hparent with
      | none => exact .error rfl
      | some hg => exact .ok (.some hg.env)

theorem define (id : String) {v v' : Value κ} (hv : v.Alike L v') :
    (a.define id v).Alike L (a'.define id v') where
  frames := by
    simp only [Arena.define, h.active, Array.toList_modify]
    refine forall₂_modify h.frames ?_ _
    exact fun f f' hf => ⟨hf.env.insert id hv, hf.parent, hf.serial⟩
  active := h.active
  nextSerial := h.nextSerial

theorem push (parent : ScopeId) {env env' : Environment κ} (henv : env.Alike L env') :
    ExceptRel Eq (fun p p' => p'.1 = p.1 ∧ p.2.Alike L p'.2) (a.push parent env)
      (a'.push parent env') := by
  simp only [Arena.push, h.isLive_eq, h.nextSerial]
  by_cases hlive : a.isLive parent = true
  · rw [if_pos hlive, if_pos hlive]
    refine .ok ⟨?_, ?_, h.active, rfl⟩
    · rw [show a'.frames.size = a.frames.size from h.size_eq]
    · simp only [Array.toList_push]
      exact List.rel_append h.frames (.cons ⟨henv, rfl, rfl⟩ .nil)
  · rw [if_neg hlive, if_neg hlive]
    exact .error rfl

theorem activate (s : ScopeId) : ExceptRel Eq (Arena.Alike L) (a.activate s) (a'.activate s) := by
  simp only [Arena.activate, h.isLive_eq]
  by_cases hlive : a.isLive s = true
  · rw [if_pos hlive, if_pos hlive]
    exact .ok ⟨h.frames, rfl, h.nextSerial⟩
  · rw [if_neg hlive, if_neg hlive]
    exact .error rfl

theorem operands : List.Forall₂ (Operand.Alike L) a.operands a'.operands :=
  List.rel_flatMap h.frames fun _ _ hf => Value.alike_operandsOfFields hf.env

/-- The same scopes are pinned. -/
theorem isPinned_eq (owner : Nat) {held held' : List Operand}
    (hheld : List.Forall₂ (Operand.Alike L) held held') (serial : Nat) :
    a'.isPinned owner held' serial = a.isPinned owner held serial := by
  have hany : ∀ {xs xs' : List Operand}, List.Forall₂ (Operand.Alike L) xs xs' →
      (xs'.any fun x => x.owner == owner && x.scope.serial == serial) =
        xs.any fun x => x.owner == owner && x.scope.serial == serial := by
    intro xs xs' hxs
    induction hxs with
    | nil => rfl
    | cons hx _ ih =>
      cases hx
      rw [List.any_cons, List.any_cons, ih]
  simp only [Arena.isPinned]
  rw [hany hheld, hany h.operands]

theorem popped : Arena.Alike L { a with frames := a.frames.pop } { a' with frames := a'.frames.pop }
    where
  frames := by
    have hsize := h.size_eq
    simp only [Arena.size] at hsize
    simp only [Array.toList_pop, List.dropLast_eq_take, Array.length_toList, hsize]
    exact List.forall₂_take _ h.frames
  active := h.active
  nextSerial := h.nextSerial

end Arena.Alike

namespace Arena.Alike

variable {a a' : Arena κ}

theorem pop (h : a.Alike L a') (owner : Nat) {held held' : List Operand}
    (hheld : List.Forall₂ (Operand.Alike L) held held') (n : Nat) :
    (a.pop owner held n).Alike L (a'.pop owner held' n) := by
  induction n generalizing a a' with
  | zero => exact h
  | succ n ih =>
    have htop : Option.Rel (Frame.Alike L) a.frames.back? a'.frames.back? := by
      have hsize := h.size_eq
      simp only [Arena.size] at hsize
      rw [Array.back?, Array.back?, hsize]
      exact h.getElem? _
    have hpopped := h.popped
    simp only [h.active] at hpopped
    simp only [Arena.pop, h.active, h.isPinned_eq owner hheld]
    generalize a.frames.back? = top at htop
    generalize a'.frames.back? = top' at htop
    cases htop with
    | none => exact h
    | @some f f' hf =>
      simp only [hf.serial]
      split
      · exact h
      · exact ih hpopped

theorem release (h : a.Alike L a') (owner : Nat) {held held' : List Operand}
    (hheld : List.Forall₂ (Operand.Alike L) held held') (mark : Nat) :
    (a.release owner held mark).Alike L (a'.release owner held' mark) := by
  rw [Arena.release, Arena.release, h.size_eq]
  exact h.pop owner hheld _

end Arena.Alike

end Fexpr
