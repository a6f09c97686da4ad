import Fexpr.Proofs.Scope.Chain
import Fexpr.Proofs.Value.Operands

/-!
# Well-formed arenas

In a well-formed arena serial numbers go up with the place, every scope but the outermost one is
inside a live scope further down, and the active scope is live (`Arena.WellFormed`). So the way
outwards from a live scope ends, and nothing that is looked up from it fails.

Pushing, defining and activating keep an arena well-formed. So does a release, which cuts the frames
off above some place (`exists_release_eq`) and spares the active scope and the scopes of the
operands that are kept.
-/

namespace Fexpr.Arena

variable {κ : Type} {a b : Arena κ} {s parent : ScopeId} {f g : Frame κ} {i j n : Nat}
  {env : Environment κ} {id : String} {v : Value κ} {owner mark : Nat} {held held' : List Operand}

structure WellFormed (a : Arena κ) : Prop where
  /-- The first frame is the outermost scope. -/
  root : ∃ f, a.frames[0]? = some f ∧ f.serial = 0 ∧ f.parent = none
  increasing : ∀ {i j : Nat} {f g : Frame κ}, i < j → a.frames[i]? = some f →
    a.frames[j]? = some g → f.serial < g.serial
  serial_lt : ∀ {i : Nat} {f : Frame κ}, a.frames[i]? = some f → f.serial < a.nextSerial
  /-- Every other frame is inside a live scope at a smaller place. -/
  inside : ∀ {i : Nat} {f : Frame κ}, 0 < i → a.frames[i]? = some f →
    ∃ p, f.parent = some p ∧ p.index < i ∧ a.isLive p = true
  active : a.isLive a.active = true

theorem isLive_iff :
    a.isLive s = true ↔ ∃ f, a.frames[s.index]? = some f ∧ f.serial = s.serial := by
  rw [isLive, Option.isSome_iff_exists]
  simp only [frame?_eq_some_iff]

theorem index_lt_of_isLive (h : a.isLive s = true) : s.index < a.size := by
  obtain ⟨f, hf, -⟩ := isLive_iff.mp h
  exact (Array.getElem?_eq_some_iff.mp hf).1

theorem frame?_eq_none (h : a.isLive s ≠ true) : a.frame? s = none :=
  Option.not_isSome_iff_eq_none.mp h

theorem lookupFrom_eq_error (h : ¬ a.isLive s = true) (id : String) :
    a.lookupFrom s id = .error s := by
  rw [lookupFrom, lookupWithin, frame?_eq_none h]

theorem activate_eq_error (h : ¬ a.isLive s = true) : a.activate s = .error s := if_neg h

namespace WellFormed

theorem ofRoot (env : Environment κ) : (ofRoot env).WellFormed where
  root := ⟨⟨env, none, 0⟩, rfl, rfl, rfl⟩
  increasing := by
    intro i j f g hij hf hg
    have hj : j < 1 := (Array.getElem?_eq_some_iff.mp hg).1
    omega
  serial_lt := by
    intro i f hf
    have hi : i < 1 := (Array.getElem?_eq_some_iff.mp hf).1
    obtain rfl : i = 0 := by omega
    cases hf
    exact Nat.zero_lt_one
  inside := by
    intro i f hi hf
    have hi' : i < 1 := (Array.getElem?_eq_some_iff.mp hf).1
    omega
  active := rfl

/-- Serial numbers tell frames apart. -/
theorem index_eq (h : a.WellFormed) (hf : a.frames[i]? = some f) (hg : a.frames[j]? = some g)
    (hserial : f.serial = g.serial) : i = j := by
  rcases Nat.lt_trichotomy i j with hij | hij | hij
  · have := h.increasing hij hf hg
    omega
  · exact hij
  · have := h.increasing hij hg hf
    omega

theorem serial_lt_of_isLive (h : a.WellFormed) (hs : a.isLive s = true) :
    s.serial < a.nextSerial := by
  obtain ⟨f, hf, hserial⟩ := isLive_iff.mp hs
  have := h.serial_lt hf
  omega

end WellFormed

/-! ## Walking outwards -/

/-- The scopes from `s` outwards, `s` first. -/
inductive Lineage (a : Arena κ) : ScopeId → List ScopeId → Prop
  | outermost {s : ScopeId} {f : Frame κ} (hf : a.frame? s = some f) (hp : f.parent = none) :
    Lineage a s [s]
  | inside {s parent : ScopeId} {f : Frame κ} {ss : List ScopeId} (hf : a.frame? s = some f)
    (hp : f.parent = some parent) (hlt : parent.index < s.index) (h : Lineage a parent ss) :
    Lineage a s (s :: ss)

namespace Lineage

variable {ss : List ScopeId}

theorem exists_cons (h : a.Lineage s ss) : ∃ ts, ss = s :: ts := by
  cases h <;> exact ⟨_, rfl⟩

theorem exists_frame (h : a.Lineage s ss) {t : ScopeId} (ht : t ∈ ss) :
    ∃ f, a.frame? t = some f := by
  induction h with
  | outermost hf hp =>
    rw [List.mem_singleton] at ht
    subst ht
    exact ⟨_, hf⟩
  | inside hf hp hlt h ih =>
    rcases List.mem_cons.mp ht with rfl | ht
    · exact ⟨_, hf⟩
    · exact ih ht

theorem index_le (h : a.Lineage s ss) {t : ScopeId} (ht : t ∈ ss) : t.index ≤ s.index := by
  induction h with
  | outermost hf hp => exact Nat.le_of_eq (congrArg _ (List.mem_singleton.mp ht))
  | inside hf hp hlt h ih =>
    rcases List.mem_cons.mp ht with rfl | ht
    · exact Nat.le_refl _
    · exact Nat.le_trans (ih ht) (Nat.le_of_lt hlt)

/-- A lineage is the same in an arena that has the same frames, up to what is bound in them. -/
theorem congr (h : a.Lineage s ss)
    (hab : ∀ t ∈ ss, ∀ f, a.frame? t = some f → ∃ g, b.frame? t = some g ∧ g.parent = f.parent) :
    b.Lineage s ss := by
  induction h with
  | outermost hf hp =>
    obtain ⟨g, hg, hparent⟩ := hab _ List.mem_cons_self _ hf
    exact .outermost hg (hparent.trans hp)
  | inside hf hp hlt h ih =>
    obtain ⟨g, hg, hparent⟩ := hab _ List.mem_cons_self _ hf
    refine .inside hg (hparent.trans hp) hlt (ih fun t ht => ?_)
    exact hab t (List.mem_cons_of_mem _ ht)

theorem exists_chain (h : a.Lineage s ss) :
    ∃ envs, a.Chain s envs ∧ ∀ id, envs.findSome? (·.find? id) =
      ss.findSome? fun t => (a.frame? t).bind fun f => f.env.find? id := by
  induction h with
  | @outermost s f hf hp => exact ⟨[f.env], .outermost hf hp, fun id => by simp [hf]⟩
  | @inside s parent f ss hf hp hlt h ih =>
    obtain ⟨envs, hchain, henvs⟩ := ih
    refine ⟨f.env :: envs, .inside hf hp hlt hchain, fun id => ?_⟩
    simp only [List.findSome?_cons, hf, Option.bind_some, henvs]

/-- What is looked up is what the first scope of the lineage that binds it says. -/
theorem lookupFrom (h : a.Lineage s ss) (id : String) :
    a.lookupFrom s id =
      .ok (ss.findSome? fun t => (a.frame? t).bind fun f => f.env.find? id) := by
  obtain ⟨envs, hchain, henvs⟩ := h.exists_chain
  rw [← henvs]
  exact hchain.lookupWithin id (s.index + 1) (Nat.lt_succ_self _)

theorem lookupFrom_congr (ha : a.Lineage s ss) (hb : b.Lineage s ss)
    (h : ∀ t ∈ ss, ((b.frame? t).bind fun f => f.env.find? id) =
      (a.frame? t).bind fun f => f.env.find? id) :
    b.lookupFrom s id = a.lookupFrom s id := by
  rw [ha.lookupFrom, hb.lookupFrom]
  refine congrArg Except.ok ?_
  clear ha hb
  induction ss with
  | nil => rfl
  | cons t ss ih =>
    rw [List.findSome?_cons, List.findSome?_cons, h t List.mem_cons_self,
      ih fun u hu => h u (List.mem_cons_of_mem t hu)]

end Lineage

namespace WellFormed

/-- From every live scope there is a way to the outermost one. -/
theorem exists_lineage (h : a.WellFormed) (hs : a.isLive s = true) : ∃ ss, a.Lineage s ss := by
  -- The place goes down with every step outwards.
  induction hi : s.index using Nat.strongRecOn generalizing s with
  | ind i ih =>
    obtain ⟨f, hf, hserial⟩ := isLive_iff.mp hs
    have hframe : a.frame? s = some f := frame?_eq_some_iff.mpr ⟨hf, hserial⟩
    rcases Nat.eq_zero_or_pos s.index with hzero | hpos
    · obtain ⟨g, hg, -, hparent⟩ := h.root
      rw [hzero] at hf
      cases hf.symm.trans hg
      exact ⟨[s], .outermost hframe hparent⟩
    · obtain ⟨p, hparent, hlt, hlive⟩ := h.inside hpos hf
      obtain ⟨ss, hss⟩ := ih p.index (hi ▸ hlt) hlive rfl
      exact ⟨s :: ss, .inside hframe hparent hlt hss⟩

theorem exists_chain (h : a.WellFormed) (hs : a.isLive s = true) : ∃ envs, a.Chain s envs := by
  obtain ⟨ss, hss⟩ := h.exists_lineage hs
  obtain ⟨envs, hchain, -⟩ := hss.exists_chain
  exact ⟨envs, hchain⟩

theorem exists_active_chain (h : a.WellFormed) : ∃ envs, a.Chain a.active envs :=
  h.exists_chain h.active

theorem exists_env (h : a.WellFormed) :
    ∃ f, a.frame? a.active = some f ∧ a.env = .ok f.env := by
  obtain ⟨f, hf⟩ := Option.isSome_iff_exists.mp h.active
  exact ⟨f, hf, by simp only [Arena.env, hf]⟩

/-- Around every scope but the outermost one there is a live scope. -/
theorem exists_outerEnv (h : a.WellFormed) :
    (a.active.index = 0 ∧ a.outerEnv = .ok none) ∨
      ∃ f p g, a.frame? a.active = some f ∧ f.parent = some p ∧ a.frame? p = some g ∧
        a.outerEnv = .ok (some g.env) := by
  obtain ⟨f, hf, hserial⟩ := isLive_iff.mp h.active
  have hframe : a.frame? a.active = some f := frame?_eq_some_iff.mpr ⟨hf, hserial⟩
  rcases Nat.eq_zero_or_pos a.active.index with hzero | hpos
  · obtain ⟨g, hg, -, hparent⟩ := h.root
    rw [hzero] at hf
    cases hf.symm.trans hg
    exact .inl ⟨hzero, by simp only [outerEnv, hframe, hparent]⟩
  · obtain ⟨p, hparent, -, hlive⟩ := h.inside hpos hf
    obtain ⟨g, hg⟩ := Option.isSome_iff_exists.mp hlive
    exact .inr ⟨f, p, g, hframe, hparent, hg, by simp only [outerEnv, hframe, hparent, hg]⟩

end WellFormed

/-! ## Pushing and activating -/

@[simp] theorem size_pushed : (a.pushed parent env).size = a.size + 1 := Array.size_push ..

theorem getElem?_pushed :
    (a.pushed parent env).frames[i]? =
      if i = a.size then some ⟨env, some parent, a.nextSerial⟩ else a.frames[i]? :=
  Array.getElem?_push

theorem isLive_pushed (h : a.isLive s = true) : (a.pushed parent env).isLive s = true := by
  obtain ⟨f, hf⟩ := Option.isSome_iff_exists.mp h
  exact Option.isSome_of_mem (frame?_pushed hf)

theorem isLive_next : (a.pushed parent env).isLive a.next = true :=
  Option.isSome_of_mem frame?_next

theorem push_cases {c : ScopeId} (h : a.push parent env = .ok (c, b)) :
    a.isLive parent = true ∧ c = a.next ∧ b = a.pushed parent env := by
  unfold push at h
  split at h
  next hlive =>
    cases h
    exact ⟨hlive, rfl, rfl⟩
  · cases h

theorem activate_cases (h : a.activate s = .ok b) :
    a.isLive s = true ∧ b = { a with active := s } := by
  unfold activate at h
  split at h
  next hlive =>
    cases h
    exact ⟨hlive, rfl⟩
  · cases h

namespace WellFormed

theorem pushed (h : a.WellFormed) (hparent : a.isLive parent = true) :
    (a.pushed parent env).WellFormed where
  root := by
    obtain ⟨f, hf, hroot⟩ := h.root
    have hne : 0 ≠ a.size := Nat.ne_of_lt (Array.getElem?_eq_some_iff.mp hf).1
    exact ⟨f, by rw [getElem?_pushed, if_neg hne, hf], hroot⟩
  increasing := by
    intro i j f g hij hf hg
    have hj : j < a.size + 1 := size_pushed ▸ (Array.getElem?_eq_some_iff.mp hg).1
    have hi : i ≠ a.size := by omega
    rw [getElem?_pushed, if_neg hi] at hf
    rw [getElem?_pushed] at hg
    split at hg
    · cases hg
      exact h.serial_lt hf
    · exact h.increasing hij hf hg
  serial_lt := by
    intro i f hf
    rw [getElem?_pushed] at hf
    split at hf
    · cases hf
      exact Nat.lt_succ_self _
    · exact Nat.lt_succ_of_lt (h.serial_lt hf)
  inside := by
    intro i f hi hf
    rw [getElem?_pushed] at hf
    split at hf
    next heq =>
      cases hf
      have hlt : parent.index < i := heq ▸ index_lt_of_isLive hparent
      exact ⟨parent, rfl, hlt, isLive_pushed hparent⟩
    · obtain ⟨p, hp, hlt, hlive⟩ := h.inside hi hf
      exact ⟨p, hp, hlt, isLive_pushed hlive⟩
  active := isLive_pushed h.active

theorem activate (h : a.WellFormed) (hs : a.isLive s = true) :
    ({ a with active := s } : Arena κ).WellFormed :=
  ⟨h.root, h.increasing, h.serial_lt, h.inside, hs⟩

end WellFormed

/-! ## Defining -/

@[simp] theorem size_define : (a.define id v).size = a.size := Array.size_modify

theorem getElem?_define :
    (a.define id v).frames[i]? =
      if a.active.index = i then
        a.frames[i]?.map fun f => { f with env := f.env.insert id v }
      else a.frames[i]? :=
  Array.getElem?_modify

/-- A definition changes what is bound in one frame, and nothing else of it. -/
theorem exists_of_getElem?_define (h : (a.define id v).frames[i]? = some g) :
    ∃ f, a.frames[i]? = some f ∧ g.serial = f.serial ∧ g.parent = f.parent ∧
      g.env = if a.active.index = i then f.env.insert id v else f.env := by
  rw [getElem?_define] at h
  split at h
  next hactive =>
    obtain ⟨f, hf, rfl⟩ := Option.map_eq_some_iff.mp h
    exact ⟨f, hf, rfl, rfl, (if_pos hactive).symm⟩
  next hactive => exact ⟨g, h, rfl, rfl, (if_neg hactive).symm⟩

theorem exists_getElem?_define (h : a.frames[i]? = some f) :
    ∃ g, (a.define id v).frames[i]? = some g ∧ g.serial = f.serial ∧ g.parent = f.parent := by
  rw [getElem?_define, h]
  split
  · exact ⟨_, rfl, rfl, rfl⟩
  · exact ⟨f, rfl, rfl, rfl⟩

theorem isLive_define (h : a.isLive s = true) : (a.define id v).isLive s = true := by
  obtain ⟨f, hf, hserial⟩ := isLive_iff.mp h
  obtain ⟨g, hg, hsame, -⟩ := exists_getElem?_define hf
  exact isLive_iff.mpr ⟨g, hg, hsame.trans hserial⟩

theorem mem_operands_iff {x : Operand} :
    x ∈ a.operands ↔ ∃ (i : Nat) (f : Frame κ), a.frames[i]? = some f ∧ x ∈ f.env.operands := by
  rw [operands, List.mem_flatMap]
  constructor
  · rintro ⟨f, hf, hx⟩
    obtain ⟨i, hi⟩ := Array.mem_iff_getElem?.mp (Array.mem_toList_iff.mp hf)
    exact ⟨i, f, hi, hx⟩
  · rintro ⟨i, f, hf, hx⟩
    exact ⟨f, Array.mem_toList_iff.mpr (Array.mem_of_getElem? hf), hx⟩

theorem mem_operands_define {x : Operand} (h : x ∈ (a.define id v).operands) :
    x ∈ v.operands ∨ x ∈ a.operands := by
  obtain ⟨i, g, hg, hx⟩ := mem_operands_iff.mp h
  obtain ⟨f, hf, -, -, henv⟩ := exists_of_getElem?_define hg
  have hkeeps : Environment.KeepsOnly (fun y => y ∈ v.operands ∨ y ∈ a.operands) f.env :=
    fun y hy => .inr (mem_operands_iff.mpr ⟨i, f, hf, hy⟩)
  rw [henv] at hx
  split at hx
  · exact hkeeps.insert (fun y hy => .inl hy) x hx
  · exact hkeeps x hx

namespace WellFormed

theorem define (h : a.WellFormed) (id : String) (v : Value κ) : (a.define id v).WellFormed where
  root := by
    obtain ⟨f, hf, hserial, hparent⟩ := h.root
    obtain ⟨g, hg, hs, hp⟩ := exists_getElem?_define hf
    exact ⟨g, hg, hs.trans hserial, hp.trans hparent⟩
  increasing := by
    intro i j f g hij hf hg
    obtain ⟨f', hf', hfs, -⟩ := exists_of_getElem?_define hf
    obtain ⟨g', hg', hgs, -⟩ := exists_of_getElem?_define hg
    have := h.increasing hij hf' hg'
    omega
  serial_lt := by
    intro i f hf
    obtain ⟨f', hf', hfs, -⟩ := exists_of_getElem?_define hf
    have : f'.serial < a.nextSerial := h.serial_lt hf'
    exact hfs ▸ this
  inside := by
    intro i f hi hf
    obtain ⟨f', hf', -, hfp, -⟩ := exists_of_getElem?_define hf
    obtain ⟨p, hp, hlt, hlive⟩ := h.inside hi hf'
    exact ⟨p, hfp.trans hp, hlt, isLive_define hlive⟩
  active := isLive_define h.active

/-- A definition goes into the very frame that the environment of the active scope is read from. -/
theorem frame?_define (h : a.WellFormed) (hf : a.frame? s = some f) :
    (a.define id v).frame? s =
      some (if s = a.active then { f with env := f.env.insert id v } else f) := by
  obtain ⟨g, hg, hactive⟩ := isLive_iff.mp h.active
  obtain ⟨hf, hserial⟩ := frame?_eq_some_iff.mp hf
  have hplace : a.active.index = s.index ↔ s = a.active := by
    constructor
    · intro hindex
      rw [hindex] at hg
      cases hg.symm.trans hf
      obtain ⟨index, serial⟩ := s
      cases hindex
      cases hserial.symm.trans hactive
      rfl
    · rintro rfl
      rfl
  refine frame?_eq_some_iff.mpr ⟨?_, ?_⟩
  · rw [getElem?_define, hf]
    simp only [hplace]
    split <;> rfl
  · split <;> exact hserial

end WellFormed

/-! ## Releasing -/

/-- The arena with its first `n` frames alone. -/
def shrink (a : Arena κ) (n : Nat) : Arena κ := { a with frames := a.frames.take n }

theorem getElem?_shrink : (a.shrink n).frames[i]? = if i < n then a.frames[i]? else none := by
  rw [shrink, Array.take_eq_extract, Array.getElem?_extract]
  simp only [Nat.sub_zero, Nat.zero_add]
  by_cases hn : i < n
  · by_cases hi : i < a.frames.size
    · rw [if_pos (by omega), if_pos hn]
    · rw [if_neg (by omega), if_pos hn, Array.getElem?_eq_none (by omega)]
  · rw [if_neg (by omega), if_neg hn]

theorem getElem?_of_shrink (h : (a.shrink n).frames[i]? = some f) :
    i < n ∧ a.frames[i]? = some f := by
  rw [getElem?_shrink] at h
  split at h
  next hlt => exact ⟨hlt, h⟩
  · cases h

theorem size_shrink (h : n ≤ a.size) : (a.shrink n).size = n := by
  simp only [shrink, size, Array.take_eq_extract, Array.size_extract] at h ⊢
  omega

theorem shrink_size : a.shrink a.size = a := by
  simp [shrink, size]

theorem shrink_shrink (h : n ≤ i) : (a.shrink i).shrink n = a.shrink n := by
  simp [shrink, h]

theorem pop_eq_shrink : { a with frames := a.frames.pop } = a.shrink (a.size - 1) := by
  simp [shrink, size]

theorem frame?_shrink (hf : a.frame? s = some f) (hlt : s.index < n) :
    (a.shrink n).frame? s = some f := by
  obtain ⟨hf, hserial⟩ := frame?_eq_some_iff.mp hf
  exact frame?_eq_some_iff.mpr ⟨by rw [getElem?_shrink, if_pos hlt, hf], hserial⟩

theorem frame?_of_shrink (hf : (a.shrink n).frame? s = some f) : a.frame? s = some f := by
  obtain ⟨hf, hserial⟩ := frame?_eq_some_iff.mp hf
  exact frame?_eq_some_iff.mpr ⟨(getElem?_of_shrink hf).2, hserial⟩

theorem isLive_shrink (hs : a.isLive s = true) (hlt : s.index < n) :
    (a.shrink n).isLive s = true := by
  obtain ⟨f, hf⟩ := Option.isSome_iff_exists.mp hs
  exact Option.isSome_of_mem (frame?_shrink hf hlt)

theorem mem_operands_of_shrink {x : Operand} (h : x ∈ (a.shrink n).operands) :
    x ∈ a.operands := by
  obtain ⟨i, f, hf, hx⟩ := mem_operands_iff.mp h
  exact mem_operands_iff.mpr ⟨i, f, (getElem?_of_shrink hf).2, hx⟩

theorem WellFormed.shrink (h : a.WellFormed) (hactive : a.active.index < n) :
    (a.shrink n).WellFormed where
  root := by
    obtain ⟨f, hf, hroot⟩ := h.root
    exact ⟨f, by rw [getElem?_shrink, if_pos (Nat.zero_lt_of_lt hactive), hf], hroot⟩
  increasing := by
    intro i j f g hij hf hg
    exact h.increasing hij (getElem?_of_shrink hf).2 (getElem?_of_shrink hg).2
  serial_lt := fun hf => h.serial_lt (getElem?_of_shrink hf).2
  inside := by
    intro i f hi hf
    obtain ⟨hlt, hf⟩ := getElem?_of_shrink hf
    obtain ⟨p, hp, hpi, hlive⟩ := h.inside hi hf
    exact ⟨p, hp, hpi, isLive_shrink hlive (Nat.lt_trans hpi hlt)⟩
  active := isLive_shrink h.active hactive

theorem isPinned_iff {serial : Nat} :
    a.isPinned owner held serial = true ↔
      ∃ x ∈ held ++ a.operands, x.owner = owner ∧ x.scope.serial = serial := by
  rw [isPinned, ← List.any_append, List.any_eq_true]
  simp only [Bool.and_eq_true, beq_iff_eq]

/-- Popping cuts off the frames above some place, none of which is active or pinned by what is
left. -/
theorem exists_pop_eq (owner : Nat) (held : List Operand) (n : Nat) (a : Arena κ) :
    ∃ k, k ≤ a.size ∧ a.size ≤ k + n ∧ a.pop owner held n = a.shrink k ∧
      ∀ j f, k ≤ j → a.frames[j]? = some f →
        f.serial ≠ a.active.serial ∧ (a.shrink k).isPinned owner held f.serial = false := by
  have hstay : ∀ (a : Arena κ) n, ∃ k, k ≤ a.size ∧ a.size ≤ k + n ∧ a = a.shrink k ∧
      ∀ j f, k ≤ j → a.frames[j]? = some f →
        f.serial ≠ a.active.serial ∧ (a.shrink k).isPinned owner held f.serial = false := by
    intro a n
    refine ⟨a.size, Nat.le_refl _, Nat.le_add_right _ _, shrink_size.symm, fun j f hj hf => ?_⟩
    have : j < a.size := (Array.getElem?_eq_some_iff.mp hf).1
    omega
  induction n generalizing a with
  | zero => exact hstay a 0
  | succ n ih =>
    rw [pop]
    split
    · exact hstay a (n + 1)
    next top htop =>
      rw [Array.back?_eq_getElem?] at htop
      have hpos : a.frames.size - 1 < a.frames.size := (Array.getElem?_eq_some_iff.mp htop).1
      split
      · exact hstay a (n + 1)
      next hfree =>
        obtain ⟨hactive, hpinned⟩ : top.serial ≠ a.active.serial ∧
            a.isPinned owner held top.serial = false := by simpa using hfree
        obtain ⟨k, hk, hkn, hpop, hgone⟩ := ih (a.shrink (a.size - 1))
        rw [size_shrink (Nat.sub_le _ _)] at hk hkn
        rw [shrink_shrink hk] at hpop hgone
        refine ⟨k, by omega, by simp only [size] at hkn ⊢; omega, ?_, ?_⟩
        · rw [pop_eq_shrink, hpop]
        · intro j f hj hf
          rcases Nat.lt_or_ge j (a.size - 1) with hlt | hge
          · exact hgone j f hj (by rw [getElem?_shrink, if_pos hlt, hf])
          · have hlast : j = a.frames.size - 1 := by
              have := (Array.getElem?_eq_some_iff.mp hf).1
              simp only [size] at hge
              omega
            subst hlast
            cases hf.symm.trans htop
            -- What is left of the arena pins nothing that the whole of it does not pin.
            refine ⟨hactive, Bool.eq_false_iff.mpr fun hpin => ?_⟩
            obtain ⟨x, hx, hxtop⟩ := isPinned_iff.mp hpin
            rw [Bool.eq_false_iff, ne_eq, isPinned_iff] at hpinned
            refine hpinned ⟨x, ?_, hxtop⟩
            rcases List.mem_append.mp hx with hx | hx
            · exact List.mem_append_left _ hx
            · exact List.mem_append_right _ (mem_operands_of_shrink hx)

/-- A release cuts off the frames above some place that is not below the mark. Every frame that goes
is neither active nor named by an operand that is still kept. -/
theorem exists_release_eq (owner : Nat) (held : List Operand) (hmark : mark ≤ a.size) :
    ∃ k, mark ≤ k ∧ k ≤ a.size ∧ a.release owner held mark = a.shrink k ∧
      ∀ j f, k ≤ j → a.frames[j]? = some f → f.serial ≠ a.active.serial ∧
        ∀ x ∈ held ++ (a.shrink k).operands, x.owner = owner → x.scope.serial ≠ f.serial := by
  obtain ⟨k, hk, hkn, hpop, hgone⟩ := exists_pop_eq owner held (a.size - mark) a
  refine ⟨k, by omega, hk, hpop, fun j f hj hf => ?_⟩
  obtain ⟨hactive, hpinned⟩ := hgone j f hj hf
  refine ⟨hactive, fun x hx howner hserial => ?_⟩
  rw [Bool.eq_false_iff, ne_eq, isPinned_iff] at hpinned
  exact hpinned ⟨x, hx, howner, hserial⟩

/-- A release spares the active scope and the scopes of all operands that are still kept. -/
theorem WellFormed.exists_released (h : a.WellFormed) (owner : Nat) (held : List Operand)
    (hmark : mark ≤ a.size)
    (hlive : ∀ x ∈ held ++ a.operands, x.owner = owner → a.isLive x.scope = true) :
    ∃ k, mark ≤ k ∧ k ≤ a.size ∧ a.release owner held mark = a.shrink k ∧
      (a.shrink k).WellFormed ∧
      ∀ x ∈ held ++ (a.shrink k).operands, x.owner = owner →
        (a.shrink k).isLive x.scope = true := by
  obtain ⟨k, hmk, hk, hrelease, hgone⟩ := exists_release_eq owner held hmark
  -- What stays is below `k`. A frame from `k` on is neither active nor named by what is kept.
  refine ⟨k, hmk, hk, hrelease, h.shrink ?_, fun x hx howner => ?_⟩
  · obtain ⟨f, hf, hserial⟩ := isLive_iff.mp h.active
    exact Nat.lt_of_not_le fun hle => (hgone _ f hle hf).1 hserial
  · have hx' : x ∈ held ++ a.operands :=
      List.mem_append.mpr ((List.mem_append.mp hx).imp_right mem_operands_of_shrink)
    obtain ⟨f, hf, hserial⟩ := isLive_iff.mp (hlive x hx' howner)
    refine isLive_shrink (hlive x hx' howner) (Nat.lt_of_not_le fun hle => ?_)
    exact (hgone _ f hle hf).2 x hx howner hserial.symm

theorem pop_congr
    (h : ∀ j f, a.size ≤ j + n → a.frames[j]? = some f →
      ∀ b : Arena κ, b.isPinned owner held f.serial = b.isPinned owner held' f.serial) :
    a.pop owner held n = a.pop owner held' n := by
  induction n generalizing a with
  | zero => rfl
  | succ n ih =>
    rw [pop, pop]
    cases htop : a.frames.back? with
    | none => rfl
    | some top =>
      rw [Array.back?_eq_getElem?] at htop
      have hsame := h _ top (by simp only [size]; omega) htop a
      simp only [hsame]
      split
      · rfl
      · refine ih fun j f hj hf => ?_
        rw [pop_eq_shrink] at hj hf
        rw [size_shrink (Nat.sub_le _ _)] at hj
        exact h j f (by omega) (getElem?_of_shrink hf).2

/-- What is kept in scopes below the mark makes no difference to a release. -/
theorem WellFormed.release_congr (h : a.WellFormed) (hmark : mark ≤ a.size)
    (hsub : ∀ x ∈ held', x ∈ held)
    (hbelow : ∀ x ∈ held, x ∉ held' → x.owner = owner →
      a.isLive x.scope = true ∧ x.scope.index < mark) :
    a.release owner held mark = a.release owner held' mark := by
  refine pop_congr fun j f hj hf b => ?_
  rw [Bool.eq_iff_iff, isPinned_iff, isPinned_iff]
  constructor
  · rintro ⟨x, hx, howner, hserial⟩
    refine ⟨x, ?_, howner, hserial⟩
    rcases List.mem_append.mp hx with hx | hx
    · by_cases hx' : x ∈ held'
      · exact List.mem_append_left _ hx'
      · obtain ⟨hlive, hlt⟩ := hbelow x hx hx' howner
        obtain ⟨g, hg, hgs⟩ := isLive_iff.mp hlive
        have := h.index_eq hg hf (hgs.trans hserial)
        omega
    · exact List.mem_append_right _ hx
  · rintro ⟨x, hx, hwritten⟩
    refine ⟨x, ?_, hwritten⟩
    rcases List.mem_append.mp hx with hx | hx
    · exact List.mem_append_left _ (hsub x hx)
    · exact List.mem_append_right _ hx

end Fexpr.Arena
