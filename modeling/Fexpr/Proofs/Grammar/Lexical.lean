import Fexpr.Proofs.Tree.Relocation
import Mathlib.Data.List.TakeWhile

/-!
# Derivations of lexemes

Derivations move with the text (`Derives.translate`), and those of clauses without calls do not
depend on the calls that are open (`Derives.anywhere`).

For the failures that ordered choice needs, `Fails` says that a clause fails on a text wherever it
stands, and `Skips` that it matches the empty text there.
-/

namespace Fexpr.Grammar

open Text (Span byteSize)

/-! ## Clauses without calls -/

/-- All classes of characters that the clause reads satisfy `F` and all its rules satisfy `G`, also
inside these rules. There are no calls among them. -/
inductive Clause.Within (F : (Char → Bool) → Prop) (G : Rule → Prop) : Clause → Prop
  | empty : Within F G .empty
  | char {f : Char → Bool} (hf : F f) : Within F G (.char f)
  | seq {p q : Clause} (hp : Within F G p) (hq : Within F G q) : Within F G (.seq p q)
  | alt {p q : Clause} (hp : Within F G p) (hq : Within F G q) : Within F G (.alt p q)
  | star {p : Clause} (hp : Within F G p) : Within F G (.star p)
  | plus {p : Clause} (hp : Within F G p) : Within F G (.plus p)
  | opt {p : Clause} (hp : Within F G p) : Within F G (.opt p)
  | not {p : Clause} (hp : Within F G p) : Within F G (.not p)
  | rule {r : Rule} (hr : G r) (hcall : r ≠ .expression) (h : Within F G (.of r)) :
    Within F G (.rule r)

namespace Clause.Within

variable {F : (Char → Bool) → Prop} {G : Rule → Prop} {p : Clause}

theorem exactly {cs : List Char} (h : ∀ c ∈ cs, F (· == c)) :
    Within F G (Clause.exactly cs) := by
  induction cs with
  | nil => exact .empty
  | cons c cs ih =>
    obtain ⟨hc, hcs⟩ := List.forall_mem_cons.mp h
    exact .seq (.char hc) (ih hcs)

theorem times (k : Nat) (hp : Within F G p) : Within F G (Clause.times k p) := by
  induction k with
  | zero => exact .empty
  | succ k ih => exact .seq hp ih

end Clause.Within

namespace Derives

variable {mayOpen mayOpen' : Nat → Prop} {n : Nat} {c : Clause} {i j : Cursor} {e : Ending}
  {ts : List Tree} {F : (Char → Bool) → Prop} {G : Rule → Prop}

/-- The calls that are open make no difference to a clause without calls. -/
theorem anywhere (h : Derives mayOpen n c i e) (hc : c.Within F G) :
    ∀ n', Derives mayOpen' n' c i e := by
  induction h with
  | empty => exact fun _ => .empty
  | char h => exact fun _ => .char h
  | charOther h => exact fun _ => .charOther h
  | charEnd => exact fun _ => .charEnd
  | seq _ _ ihp ihq =>
    cases hc with
    | seq hp hq => exact fun n' => .seq (ihp hp n') (ihq hq n')
  | seqLeft _ ihp =>
    cases hc with
    | seq hp hq => exact fun n' => .seqLeft (ihp hp n')
  | seqRight _ _ ihp ihq =>
    cases hc with
    | seq hp hq => exact fun n' => .seqRight (ihp hp n') (ihq hq n')
  | altLeft _ ihp =>
    cases hc with
    | alt hp hq => exact fun n' => .altLeft (ihp hp n')
  | altRight _ _ ihp ihq =>
    cases hc with
    | alt hp hq => exact fun n' => .altRight (ihp hp n') (ihq hq n')
  | starEnd _ ihp =>
    cases hc with
    | star hp => exact fun n' => .starEnd (ihp hp n')
  | starMore _ _ ihp ihs =>
    cases hc with
    | star hp => exact fun n' => .starMore (ihp hp n') (ihs (.star hp) n')
  | plus _ _ ihp ihs =>
    cases hc with
    | plus hp => exact fun n' => .plus (ihp hp n') (ihs (.star hp) n')
  | plusNone _ ihp =>
    cases hc with
    | plus hp => exact fun n' => .plusNone (ihp hp n')
  | opt _ ihp =>
    cases hc with
    | opt hp => exact fun n' => .opt (ihp hp n')
  | optNone _ ihp =>
    cases hc with
    | opt hp => exact fun n' => .optNone (ihp hp n')
  | not _ ihp =>
    cases hc with
    | not hp => exact fun n' => .not (ihp hp n')
  | notAhead _ ihp =>
    cases hc with
    | not hp => exact fun n' => .notAhead (ihp hp n')
  -- Only a call counts as open, and there is none in the clause.
  | rule _ _ ihr =>
    cases hc with
    | rule _ hcall hof => exact fun n' => .rule (fun h => absurd h hcall) (ihr hof _)
  | ruleNone _ _ ihr =>
    cases hc with
    | rule _ hcall hof => exact fun n' => .ruleNone (fun h => absurd h hcall) (ihr hof _)
  | ruleShut _ =>
    cases hc with
    | rule _ hcall _ => exact absurd rfl hcall

/-- The rules that a derivation applies are those of its clause. -/
theorem forall_rule (h : Derives mayOpen n c i e) (hc : c.Within F G) :
    e.Holds fun _ ts => ∀ t ∈ ts, ∀ u ∈ t.nodes, G u.rule := by
  have hnil : ∀ t ∈ ([] : List Tree), ∀ u ∈ t.nodes, G u.rule := fun t ht => nomatch ht
  have happend : ∀ {ts us : List Tree}, (∀ t ∈ ts, ∀ u ∈ t.nodes, G u.rule) →
      (∀ t ∈ us, ∀ u ∈ t.nodes, G u.rule) → ∀ t ∈ ts ++ us, ∀ u ∈ t.nodes, G u.rule :=
    fun hts hus => List.forall_mem_append.mpr ⟨hts, hus⟩
  induction h with
  | empty | char _ | starEnd _ _ | optNone _ _ | not _ _ => exact hnil
  | seq _ _ ihp ihq =>
    cases hc with
    | seq hp hq => exact happend (ihp hp) (ihq hq)
  | altLeft _ ihp =>
    cases hc with
    | alt hp hq => exact ihp hp
  | altRight _ _ _ ihq =>
    cases hc with
    | alt hp hq => exact ihq hq
  | starMore _ _ ihp ihs =>
    cases hc with
    | star hp => exact happend (ihp hp) (ihs (.star hp))
  | plus _ _ ihp ihs =>
    cases hc with
    | plus hp => exact happend (ihp hp) (ihs (.star hp))
  | opt _ ihp =>
    cases hc with
    | opt hp => exact ihp hp
  | rule _ _ ihr =>
    cases hc with
    | rule hr _ hof =>
      intro t ht u hu
      obtain rfl := List.mem_singleton.mp ht
      rw [Tree.nodes_node] at hu
      rcases List.mem_cons.mp hu with rfl | hu
      · exact hr
      · obtain ⟨t', ht', hu⟩ := List.mem_flatMap.mp hu
        exact ihr hof t' ht' u hu
  | _ => trivial

/-- The characters that a derivation goes over are of the classes that its clause reads. -/
theorem forall_char {P : Char → Prop} (h : Derives mayOpen n c i e)
    (hc : c.Within (fun f => ∀ x, f x = true → P x) G) :
    e.Holds fun j _ => ∃ cs, i.Across cs j ∧ ∀ x ∈ cs, P x := by
  have hnil : ∀ i : Cursor, ∃ cs, i.Across cs i ∧ ∀ x ∈ cs, P x :=
    fun i => ⟨[], .refl i, fun x hx => nomatch hx⟩
  have happend : ∀ {i j k : Cursor}, (∃ cs, i.Across cs j ∧ ∀ x ∈ cs, P x) →
      (∃ cs, j.Across cs k ∧ ∀ x ∈ cs, P x) → ∃ cs, i.Across cs k ∧ ∀ x ∈ cs, P x := by
    rintro i j k ⟨cs, hcs, hP⟩ ⟨ds, hds, hP'⟩
    exact ⟨cs ++ ds, hcs.trans hds, List.forall_mem_append.mpr ⟨hP, hP'⟩⟩
  induction h with
  | empty | starEnd _ _ | optNone _ _ | not _ _ => exact hnil _
  | @char _ _ x _ _ hx =>
    cases hc with
    | char hf => exact ⟨[x], ⟨rfl, rfl⟩, fun y hy => List.mem_singleton.mp hy ▸ hf x hx⟩
  | seq _ _ ihp ihq =>
    cases hc with
    | seq hp hq => exact happend (ihp hp) (ihq hq)
  | altLeft _ ihp =>
    cases hc with
    | alt hp hq => exact ihp hp
  | altRight _ _ _ ihq =>
    cases hc with
    | alt hp hq => exact ihq hq
  | starMore _ _ ihp ihs =>
    cases hc with
    | star hp => exact happend (ihp hp) (ihs (.star hp))
  | plus _ _ ihp ihs =>
    cases hc with
    | plus hp => exact happend (ihp hp) (ihs (.star hp))
  | opt _ ihp =>
    cases hc with
    | opt hp => exact ihp hp
  | rule _ _ ihr =>
    cases hc with
    | rule _ _ hof => exact ihr hof
  | _ => trivial

end Derives

/-! ## Moving a derivation -/

/-- The ending at other offsets. -/
def Ending.relocate (φ : Nat → Nat) : Ending → Ending
  | failure => failure
  | success stop trees => success ⟨stop.rest, φ stop.offset⟩ (Tree.relocates φ trees)

/-- From `k` on, all offsets move by the same distance. -/
def Translates (φ : Nat → Nat) (k : Nat) : Prop := ∀ m s, k ≤ m → φ (m + s) = φ m + s

theorem Translates.mono {φ : Nat → Nat} {k l : Nat} (h : Translates φ k) (hkl : k ≤ l) :
    Translates φ l := fun m s hm => h m s (Nat.le_trans hkl hm)

/-- A derivation moves with the text. -/
theorem Derives.translate {mayOpen : Nat → Prop} {n : Nat} {c : Clause} {i : Cursor} {e : Ending}
    {φ : Nat → Nat} (h : Derives mayOpen n c i e) (hφ : Translates φ i.offset) :
    Derives mayOpen n c ⟨i.rest, φ i.offset⟩ (e.relocate φ) := by
  have hstep : ∀ {c : Clause} {i j : Cursor} {ts : List Tree} {n : Nat},
      Derives mayOpen n c i (.success j ts) → Translates φ i.offset → Translates φ j.offset := by
    intro c i j ts n h hφ
    obtain ⟨cs, hcs⟩ := h.across
    exact hφ.mono hcs.offset_le
  -- Distances are kept from the start on, hence from every later cursor on (`hstep`).
  induction h with
  | empty => exact .empty
  | @char _ _ c cs k h =>
    simp only [Ending.relocate, Tree.relocates_nil]
    rw [hφ k _ (Nat.le_refl k)]
    exact .char h
  | charOther h => exact .charOther h
  | charEnd => exact .charEnd
  | seq hp _ ihp ihq =>
    simp only [Ending.relocate, Tree.relocates_append]
    exact .seq (ihp hφ) (ihq (hstep hp hφ))
  | seqLeft _ ihp => exact .seqLeft (ihp hφ)
  | seqRight hp _ ihp ihq => exact .seqRight (ihp hφ) (ihq (hstep hp hφ))
  | altLeft _ ihp => exact .altLeft (ihp hφ)
  | altRight _ _ ihp ihq => exact .altRight (ihp hφ) (ihq hφ)
  | starEnd _ ihp =>
    simp only [Ending.relocate, Tree.relocates_nil]
    exact .starEnd (ihp hφ)
  | starMore hp _ ihp ihs =>
    simp only [Ending.relocate, Tree.relocates_append]
    exact .starMore (ihp hφ) (ihs (hstep hp hφ))
  | plus hp _ ihp ihs =>
    simp only [Ending.relocate, Tree.relocates_append]
    exact .plus (ihp hφ) (ihs (hstep hp hφ))
  | plusNone _ ihp => exact .plusNone (ihp hφ)
  | opt _ ihp => exact .opt (ihp hφ)
  | optNone _ ihp =>
    simp only [Ending.relocate, Tree.relocates_nil]
    exact .optNone (ihp hφ)
  | not _ ihp =>
    simp only [Ending.relocate, Tree.relocates_nil]
    exact .not (ihp hφ)
  | notAhead _ ihp => exact .notAhead (ihp hφ)
  | rule ho _ ihr =>
    simp only [Ending.relocate, Tree.relocates_cons, Tree.relocates_nil, Tree.relocate_node]
    exact .rule ho (ihr hφ)
  | ruleNone ho _ ihr => exact .ruleNone ho (ihr hφ)
  | ruleShut ho => exact .ruleShut ho

/-! ## Failing and skipping -/

/-- The clause fails on the text, wherever it stands. -/
def Fails (c : Clause) (cs : List Char) : Prop :=
  ∀ mayOpen n k, Derives mayOpen n c ⟨cs, k⟩ .failure

/-- The clause matches the empty text before `cs`, wherever it stands. -/
def Skips (c : Clause) (cs : List Char) : Prop :=
  ∀ mayOpen n k, ∃ ts, Derives mayOpen n c ⟨cs, k⟩ (.success ⟨cs, k⟩ ts)

/-- The clause matches between the places, whatever calls are open. -/
def Lexes (c : Clause) (i j : Cursor) (ts : List Tree) : Prop :=
  ∀ mayOpen n, Derives mayOpen n c i (.success j ts)

namespace Cursor.Across

variable {i j : Cursor}

theorem eq_of_nil (h : i.Across [] j) : i = j := by
  obtain ⟨rest, offset⟩ := i
  obtain ⟨rest', offset'⟩ := j
  obtain ⟨h1, h2⟩ := h
  simp only [List.nil_append, Text.byteSize_nil, Nat.add_zero] at h1 h2
  rw [h1, h2]

theorem split {ds : List Char} (cs : List Char) (h : i.Across (cs ++ ds) j) :
    ∃ l, i.Across cs l ∧ l.Across ds j := by
  refine ⟨⟨ds ++ j.rest, i.offset + byteSize cs⟩, ⟨by rw [h.1, List.append_assoc], rfl⟩, rfl, ?_⟩
  rw [h.2, Text.byteSize_append, Nat.add_assoc]

end Cursor.Across

theorem Derives.charAcross {mayOpen : Nat → Prop} {n : Nat} {f : Char → Bool} {x : Char}
    {i j : Cursor} (h : i.Across [x] j) (hx : f x = true) :
    Derives mayOpen n (.char f) i (.success j []) := by
  obtain ⟨rest, offset⟩ := i
  obtain ⟨rest', offset'⟩ := j
  obtain ⟨h1, h2⟩ := h
  simp only [List.singleton_append, Text.byteSize_cons, Text.byteSize_nil, Nat.add_zero] at h1 h2
  subst h1 h2
  exact .char hx

theorem Derives.of_char {mayOpen : Nat → Prop} {n : Nat} {f : Char → Bool} {i j : Cursor}
    {ts : List Tree} (h : Derives mayOpen n (.char f) i (.success j ts)) :
    ∃ x, i.Across [x] j ∧ f x = true ∧ ts = [] := by
  cases h with
  | char hx => exact ⟨_, ⟨rfl, rfl⟩, hx, rfl⟩

/-- A match of a rule is one node. -/
theorem Derives.exists_node {mayOpen : Nat → Prop} {n : Nat} {r : Rule} {i j : Cursor}
    {ts : List Tree} (h : Derives mayOpen n (.rule r) i (.success j ts)) :
    ∃ us, ts = [.node r ⟨i.offset, j.offset⟩ us] := by
  cases h with
  | rule _ _ => exact ⟨_, rfl⟩

/-- Given characters are read one by one. -/
theorem Derives.of_exactly {mayOpen : Nat → Prop} {n : Nat} {cs : List Char} {i j : Cursor}
    {ts : List Tree} (h : Derives mayOpen n (.exactly cs) i (.success j ts)) :
    i.Across cs j ∧ ts = [] := by
  induction cs generalizing i ts with
  | nil =>
    cases h
    exact ⟨.refl _, rfl⟩
  | cons c cs ih =>
    cases h with
    | seq hc hcs =>
      obtain ⟨d, hd, hdc, rfl⟩ := hc.of_char
      obtain rfl : d = c := beq_iff_eq.mp hdc
      obtain ⟨hrest, rfl⟩ := ih hcs
      exact ⟨hd.trans hrest, rfl⟩

theorem Lexes.exactly {cs : List Char} {i j : Cursor} (h : i.Across cs j) :
    Lexes (.exactly cs) i j [] := by
  intro m n
  induction cs generalizing i with
  | nil =>
    obtain rfl := h.eq_of_nil
    exact .empty
  | cons c cs ih =>
    obtain ⟨l, hil, hlj⟩ := h.split [c]
    exact .seq (.charAcross (f := (· == c)) hil (beq_self_eq_true c)) (ih hlj)

/-- Given characters are not read where the text does not start with them. -/
theorem Fails.exactly {cs ds : List Char} (h : ¬ cs <+: ds) : Fails (.exactly cs) ds := by
  intro m n k
  induction cs generalizing ds k with
  | nil => exact absurd (List.nil_prefix) h
  | cons c cs ih =>
    cases ds with
    | nil => exact .seqLeft .charEnd
    | cons d ds =>
      by_cases hd : d = c
      · subst hd
        exact .seqRight (.char (beq_self_eq_true d))
          (ih (fun hpre => h ((List.prefix_cons_inj d).mpr hpre)) _)
      · exact .seqLeft (.charOther (beq_eq_false_iff_ne.mpr hd))

namespace Fails

variable {p q : Clause} {f : Char → Bool} {x : Char} {cs : List Char}

theorem char (h : f x = false) : Fails (.char f) (x :: cs) := fun _ _ _ => .charOther h

theorem charEnd : Fails (.char f) [] := fun _ _ _ => .charEnd

theorem seq (h : Fails p cs) : Fails (p ++ q) cs := fun m n k => .seqLeft (h m n k)

/-- A sequence fails where its first part matches nothing and the second one fails. -/
theorem seqSkip (h : Skips p cs) (h' : Fails q cs) : Fails (p ++ q) cs := by
  intro m n k
  obtain ⟨ts, hts⟩ := h m n k
  exact .seqRight hts (h' m n k)

theorem alt (h : Fails p cs) (h' : Fails q cs) : Fails (p <|> q) cs :=
  fun m n k => .altRight (h m n k) (h' m n k)

theorem plus (h : Fails p cs) : Fails (.plus p) cs := fun m n k => .plusNone (h m n k)

theorem rule {r : Rule} (h : Fails (.of r) cs) : Fails (.rule r) cs := by
  intro m n k
  by_cases ho : r = .expression → m n
  · exact .ruleNone ho (h m _ k)
  · rw [Classical.not_imp] at ho
    obtain ⟨rfl, ho⟩ := ho
    exact .ruleShut ho

/-- What fails on a text does not match there. -/
theorem elim {mayOpen : Nat → Prop} {n : Nat} {i j : Cursor} {ts : List Tree} {P : Prop}
    (h : Fails p i.rest) (hd : Derives mayOpen n p i (.success j ts)) : P :=
  nomatch (h mayOpen n i.offset).unique hd

end Fails

namespace Skips

variable {p : Clause} {cs : List Char}

theorem opt (h : Fails p cs) : Skips (.opt p) cs := fun m n k => ⟨[], .optNone (h m n k)⟩

end Skips

/-! ## Runs of characters -/

theorem eq_false_of_mem_head?_dropWhile {f : Char → Bool} {cs : List Char} {x : Char}
    (hx : x ∈ (cs.dropWhile f).head?) : f x = false := by
  have hnot := List.head?_dropWhile_not f cs
  rw [Option.mem_def.mp hx] at hnot
  simpa using hnot

/-- The clause reads one character of the class `f`. -/
structure ReadsOne (p : Clause) (f : Char → Bool) : Prop where
  reads : ∀ {x i j}, i.Across [x] j → f x = true → Lexes p i j []
  fails : ∀ {cs}, (∀ x ∈ cs.head?, f x = false) → Fails p cs

namespace ReadsOne

variable {p q : Clause} {f g : Char → Bool} {i j : Cursor}

theorem char (f : Char → Bool) : ReadsOne (.char f) f where
  reads := fun hij hx _ _ => Derives.charAcross hij hx
  fails := by
    intro cs hcs
    cases cs with
    | nil => exact .charEnd
    | cons x cs => exact .char (hcs x rfl)

theorem alt (hp : ReadsOne p f) (hq : ReadsOne q g) : ReadsOne (p <|> q) fun x => f x || g x where
  reads := by
    intro x i j hij hx m n
    cases hf : f x with
    | true => exact .altLeft (hp.reads hij hf m n)
    | false =>
      rw [hf, Bool.false_or] at hx
      have hfail : Fails p i.rest := by
        refine hp.fails fun y hy => ?_
        rw [hij.1] at hy
        cases hy
        exact hf
      exact .altRight (hfail m n i.offset) (hq.reads hij hx m n)
  fails := by
    intro cs hcs
    refine .alt (hp.fails fun x hx => ?_) (hq.fails fun x hx => ?_)
    · exact (Bool.or_eq_false_iff.mp (hcs x hx)).1
    · exact (Bool.or_eq_false_iff.mp (hcs x hx)).2

/-- Any character but those of a class. -/
theorem butNot (g : Char → Bool) : ReadsOne (.not (.char g) ++ .any) fun x => !g x where
  reads := by
    intro x i j hij hx m n
    have hnot : Fails (.char g) i.rest := by
      rw [hij.1]
      exact .char (Bool.not_eq_true' _ ▸ hx)
    exact .seq (.not (hnot m n i.offset)) (.charAcross hij rfl)
  fails := by
    intro cs hcs m n k
    cases cs with
    | nil => exact .seqRight (.not .charEnd) .charEnd
    | cons x cs => exact .seqLeft (.notAhead (.char (Bool.not_eq_false' .. ▸ hcs x rfl)))

theorem of_derives (hp : ReadsOne p f) {mayOpen : Nat → Prop} {n : Nat} {ts : List Tree}
    (h : Derives mayOpen n p i (.success j ts)) :
    ∃ x, i.Across [x] j ∧ f x = true ∧ ts = [] := by
  by_cases hi : ∀ x ∈ i.rest.head?, f x = false
  · exact (hp.fails hi).elim h
  · rw [not_forall] at hi
    obtain ⟨x, hx⟩ := hi
    obtain ⟨hx, hfx⟩ := Classical.not_imp.mp hx
    obtain ⟨cs, hcs⟩ := List.head?_eq_some_iff.mp hx
    have hacross : i.Across [x] ⟨cs, i.offset + byteSize [x]⟩ := ⟨hcs, rfl⟩
    have htrue : f x = true := Bool.not_eq_false _ ▸ hfx
    cases h.unique (hp.reads hacross htrue mayOpen n)
    exact ⟨x, hacross, htrue, rfl⟩

/-- What comes next is not of the class. -/
theorem not (hp : ReadsOne p f) (hi : ∀ x ∈ i.rest.head?, f x = false) : Lexes (.not p) i i [] :=
  fun m n => .not (hp.fails hi m n i.offset)

theorem of_not (hp : ReadsOne p f) {mayOpen : Nat → Prop} {n : Nat} {ts : List Tree}
    (h : Derives mayOpen n (.not p) i (.success j ts)) :
    i = j ∧ (∀ x ∈ i.rest.head?, f x = false) ∧ ts = [] := by
  cases h with
  | not hfail =>
    refine ⟨rfl, fun x hx => Bool.eq_false_iff.mpr fun htrue => ?_, rfl⟩
    obtain ⟨cs, hcs⟩ := List.head?_eq_some_iff.mp hx
    have hacross : i.Across [x] ⟨cs, i.offset + byteSize [x]⟩ := ⟨hcs, rfl⟩
    cases hfail.unique (hp.reads hacross htrue mayOpen n)

/-- A repetition goes on as long as there are characters of the class. -/
theorem star (hp : ReadsOne p f) {cs : List Char} (hij : i.Across cs j)
    (hcs : ∀ x ∈ cs, f x = true) (hj : ∀ x ∈ j.rest.head?, f x = false) :
    Lexes (.star p) i j [] := by
  intro m n
  induction cs generalizing i with
  | nil =>
    obtain rfl := hij.eq_of_nil
    exact .starEnd (hp.fails hj m n i.offset)
  | cons x cs ih =>
    obtain ⟨hx, hcs⟩ := List.forall_mem_cons.mp hcs
    obtain ⟨l, hil, hlj⟩ := hij.split [x]
    exact .starMore (hp.reads hil hx m n) (ih hlj hcs)

/-- What a repetition matches are all the characters of the class that come first. -/
theorem of_star (hp : ReadsOne p f) {mayOpen : Nat → Prop} {n : Nat} {ts : List Tree}
    (h : Derives mayOpen n (.star p) i (.success j ts)) :
    ∃ cs, i.Across cs j ∧ (∀ x ∈ cs, f x = true) ∧ (∀ x ∈ j.rest.head?, f x = false) ∧
      ts = [] := by
  have hall : ∀ x ∈ i.rest.takeWhile f, f x = true := fun x hx => List.mem_takeWhile_imp hx
  have hstop : ∀ x ∈ (i.rest.dropWhile f).head?, f x = false :=
    fun x hx => eq_false_of_mem_head?_dropWhile hx
  have hacross : i.Across (i.rest.takeWhile f)
      ⟨i.rest.dropWhile f, i.offset + byteSize (i.rest.takeWhile f)⟩ :=
    ⟨List.takeWhile_append_dropWhile.symm, rfl⟩
  cases h.unique (hp.star hacross hall hstop mayOpen n)
  exact ⟨_, hacross, hall, hstop, rfl⟩

end ReadsOne

/-- What holds at the end of a repetition, and passes on from each round to the one before, holds
of every repetition. -/
theorem Derives.star_induction {mayOpen : Nat → Prop} {n : Nat} {p : Clause}
    {P : Cursor → Cursor → List Tree → Prop}
    (hend : ∀ i, Derives mayOpen n p i .failure → P i i [])
    (hmore : ∀ i j k ts us, Derives mayOpen n p i (.success j ts) →
      Derives mayOpen n (.star p) j (.success k us) → P j k us → P i k (ts ++ us))
    {i k : Cursor} {us : List Tree} (h : Derives mayOpen n (.star p) i (.success k us)) :
    P i k us := by
  generalize hc : Clause.star p = c at h
  generalize he : Ending.success k us = e at h
  induction h generalizing k us with
  | starEnd hp _ =>
    cases hc
    cases he
    exact hend _ hp
  | starMore hp hs _ ih =>
    cases hc
    cases he
    exact hmore _ _ _ _ _ hp hs (ih hend hmore rfl rfl)
  | _ => cases hc

end Fexpr.Grammar
