import Fexpr.Proofs.Grammar.Counting
import Fexpr.Proofs.Grammar.Written

/-!
# The limit of nesting

Without a limit every text has a derivation, too (`existsUnique_derivesUnlimited`). The limit takes
nothing but matches away: a text is accepted iff it is derived without a limit and no call of the
derivation is inside too many others, and then with the same log (`nesting_limit_filters`).

That a refused call makes room for no other reading is seen from the text. The row of a call ends
where a closing parenthesis stands, and no atom starts with an opening one. So what matches is
`Written`, and what is written says by itself how many calls are open where a call stands.
-/

namespace Fexpr

open Grammar (Rule)

/-- `t` stands in the trees `ts`, inside `n` calls. -/
inductive Tree.Enclosed : Nat → Tree → List Tree → Prop
  | here {t : Tree} {ts : List Tree} (h : t ∈ ts) : Enclosed 0 t ts
  | inside {n : Nat} {t : Tree} {r : Rule} {s : Text.Span} {children ts : List Tree}
    (h : .node r s children ∈ ts) (ht : Enclosed n t children) : Enclosed (r.opened n) t ts

/-- `P` holds of the number of calls around each call in the trees. -/
def Tree.CallsWithin (P : Nat → Prop) (ts : List Tree) : Prop :=
  ∀ n s children, Enclosed n (.node .expression s children) ts → P n

namespace Tree.CallsWithin

variable {P Q : Nat → Prop} {r : Rule} {s : Text.Span} {t : Tree} {ts us children : List Tree}

theorem nil : CallsWithin P [] := by
  intro n s children h
  cases h with
  | here h => cases h
  | inside h _ => cases h

theorem imp (h : CallsWithin P ts) (hPQ : ∀ n, P n → Q n) : CallsWithin Q ts :=
  fun n s children hcall => hPQ n (h n s children hcall)

theorem of_subset (h : CallsWithin P us) (hsub : ts ⊆ us) : CallsWithin P ts := by
  intro n s children hcall
  cases hcall with
  | here hmem => exact h 0 s children (.here (hsub hmem))
  | inside hmem hcall => exact h _ s children (.inside (hsub hmem) hcall)

theorem append (h : CallsWithin P ts) (h' : CallsWithin P us) : CallsWithin P (ts ++ us) := by
  intro n s children hcall
  cases hcall with
  | here hmem =>
    rcases List.mem_append.mp hmem with hmem | hmem
    · exact h 0 s children (.here hmem)
    · exact h' 0 s children (.here hmem)
  | inside hmem hcall =>
    rcases List.mem_append.mp hmem with hmem | hmem
    · exact h _ s children (.inside hmem hcall)
    · exact h' _ s children (.inside hmem hcall)

theorem node (hr : r = .expression → P 0)
    (h : CallsWithin (fun n => P (r.opened n)) children) : CallsWithin P [.node r s children] := by
  intro n s children hcall
  cases hcall with
  | here hmem =>
    cases List.mem_singleton.mp hmem
    exact hr rfl
  | inside hmem hcall =>
    cases List.mem_singleton.mp hmem
    exact h _ s children hcall

theorem of_node (h : CallsWithin P ts) (ht : .node r s children ∈ ts) :
    CallsWithin (fun n => P (r.opened n)) children :=
  fun _ s' children' hcall => h _ s' children' (.inside ht hcall)

end Tree.CallsWithin

namespace Grammar

open Text (byteSize)
open Fexpr.Tree (logged CallsWithin)

/-! ## Every text has a derivation -/

section Total

variable {mayOpen : Nat → Prop} {n : Nat} {c d : Clause} {i : Cursor}

theorem Follows.exists_derives {p : Peg} (h : Follows mayOpen n c p) (i : Cursor) :
    ∃ e, Derives mayOpen n c i e := by
  cases hrun : p.run ⟨i.rest, i.offset, [], none⟩ with
  | error g => exact ⟨_, (h _).2 g hrun⟩
  | ok t =>
    obtain ⟨ts, hts, -⟩ := (h _).1 t hrun
    exact ⟨_, hts⟩

theorem exists_derives_seq (hc : ∃ e, Derives mayOpen n c i e)
    (hd : ∀ j ts, Derives mayOpen n c i (.success j ts) → ∃ e, Derives mayOpen n d j e) :
    ∃ e, Derives mayOpen n (c ++ d) i e := by
  obtain ⟨e, he⟩ := hc
  cases e with
  | failure => exact ⟨_, .seqLeft he⟩
  | success j ts =>
    obtain ⟨e, he'⟩ := hd j ts he
    cases e with
    | failure => exact ⟨_, .seqRight he he'⟩
    | success k us => exact ⟨_, .seq he he'⟩

theorem exists_derives_alt (hc : ∃ e, Derives mayOpen n c i e)
    (hd : ∃ e, Derives mayOpen n d i e) : ∃ e, Derives mayOpen n (c <|> d) i e := by
  obtain ⟨e, he⟩ := hc
  cases e with
  | failure =>
    obtain ⟨e, he'⟩ := hd
    exact ⟨e, .altRight he he'⟩
  | success j ts => exact ⟨_, .altLeft he⟩

/-- Repeating comes to an end, since each round takes some text. -/
theorem exists_derives_star {N : Nat} (hnull : c.nullable = false)
    (hc : ∀ i : Cursor, i.rest.length < N → ∃ e, Derives mayOpen n c i e)
    (hi : i.rest.length < N) : ∃ e, Derives mayOpen n (.star c) i e := by
  induction hl : i.rest.length using Nat.strongRecOn generalizing i with
  | ind l ih =>
    obtain ⟨e, he⟩ := hc i hi
    cases e with
    | failure => exact ⟨_, .starEnd he⟩
    | success j ts =>
      obtain ⟨cs, hcs, hne⟩ := he.across_ne_nil hnull
      have hlt := hcs.length_lt hne
      obtain ⟨e, he'⟩ := ih j.rest.length (by omega) (by omega) rfl
      cases e with
      | failure => cases he'
      | success k us => exact ⟨_, .starMore he he'⟩

theorem exists_derives_rule {r : Rule} (hr : r ≠ .expression)
    (h : ∃ e, Derives mayOpen n (.of r) i e) : ∃ e, Derives mayOpen n (.rule r) i e := by
  have hopened : r.opened n = n := if_neg hr
  obtain ⟨e, he⟩ := h
  rw [← hopened] at he
  cases e with
  | failure => exact ⟨_, .ruleNone (fun h => absurd h hr) he⟩
  | success j ts => exact ⟨_, .rule (fun h => absurd h hr) he⟩

/-- A call has an ending if values have that start behind its parenthesis. -/
theorem exists_derives_expression
    (hvalue : ∀ j : Cursor, j.rest.length < i.rest.length →
      ∃ e, Derives mayOpen (n + 1) (.rule .value) j e) :
    ∃ e, Derives mayOpen n (.rule .expression) i e := by
  by_cases ho : mayOpen n
  · have hbody : ∃ e, Derives mayOpen (n + 1) (.of .expression) i e := by
      refine exists_derives_seq (exists_derives_seq (exists_derives_seq
        (follows_lpar.exists_derives i) fun j ts _ => follows_operator.exists_derives j) ?_)
        fun j ts _ => follows_rpar.exists_derives j
      intro k ts hopen
      obtain ⟨cs, hcs, hne⟩ := hopen.across_ne_nil rfl
      exact exists_derives_star rfl (fun l hl => exists_derives_alt
        (follows_optionList.exists_derives l) (hvalue l hl)) (hcs.length_lt hne)
    obtain ⟨e, he⟩ := hbody
    cases e with
    | failure => exact ⟨_, .ruleNone (fun _ => ho) he⟩
    | success j ts => exact ⟨_, .rule (fun _ => ho) he⟩
  · exact ⟨_, .ruleShut ho⟩

theorem exists_derives_value (mayOpen : Nat → Prop) (n : Nat) (i : Cursor) :
    ∃ e, Derives mayOpen n (.rule .value) i e := by
  -- The operands of a call start behind its parenthesis, so there is less text before them.
  induction hl : i.rest.length using Nat.strongRecOn generalizing n i with
  | ind l ih =>
    refine exists_derives_rule (by decide) (exists_derives_seq (exists_derives_alt ?_
      (follows_atom.exists_derives i)) fun j ts _ => follows_spacing.exists_derives j)
    exact exists_derives_expression fun j hj => ih j.rest.length (by omega) (n + 1) j rfl

theorem exists_derives_script (mayOpen : Nat → Prop) (cs : List Char) :
    ∃ e, Derives mayOpen 0 (.rule .script) ⟨cs, 0⟩ e := by
  have heot : Follows mayOpen 0 (.rule .eot) (.rule .eot Peg.atEnd) :=
    .rule (by decide) (.not (.char _))
  exact exists_derives_rule (by decide) (exists_derives_seq (exists_derives_seq
    (follows_spacing.exists_derives _) fun j ts _ => exists_derives_value mayOpen 0 j)
    fun j ts _ => heot.exists_derives j)

end Total

/-! ## The calls of a match -/

section Calls

variable {mayOpen mayOpen' : Nat → Prop} {n : Nat} {c : Clause} {i j : Cursor} {ts : List Tree}

theorem Rule.opened_add (r : Rule) (n k : Nat) : r.opened n + k = n + r.opened k := by
  unfold Rule.opened
  split <;> omega

/-- Each call of a match was allowed to be opened where it stands. -/
theorem Derives.holds_callsWithin {e : Ending} (h : Derives mayOpen n c i e) :
    e.Holds fun _ ts => CallsWithin (fun k => mayOpen (n + k)) ts := by
  induction h with
  | empty | char _ | starEnd _ _ | optNone _ _ | not _ _ => exact .nil
  | seq _ _ ihp ihq | starMore _ _ ihp ihq | plus _ _ ihp ihq => exact ihp.append ihq
  | altLeft _ ih | altRight _ _ _ ih | opt _ ih => exact ih
  | rule ho _ ih =>
    exact .node ho (CallsWithin.imp ih fun k hk => by rwa [Rule.opened_add] at hk)
  | _ => trivial

theorem Derives.callsWithin (h : Derives mayOpen n c i (.success j ts)) :
    CallsWithin (fun k => mayOpen (n + k)) ts := h.holds_callsWithin

/-- What is written may be written under any limit that allows its calls. -/
theorem Written.limit {part : Part} {items : List Form.Item}
    (h : Written mayOpen n part i j ts items)
    (hcalls : CallsWithin (fun k => mayOpen' (n + k)) ts) :
    Written mayOpen' n part i j ts items := by
  induction h with
  | atom ha hgap => exact .atom ha hgap
  | @call n i j k l m o p q w ts items _ hopen hgap hop _ hclose hgap' ih =>
    have hcall := CallsWithin.of_node hcalls List.mem_cons_self
    -- The row stands inside this call, so there is one more around each call in it.
    have hrow : CallsWithin (fun k => mayOpen' (n + 1 + k)) ts := by
      refine ((hcall.of_node List.mem_cons_self).of_subset fun t ht => ?_).imp fun k hk => ?_
      · exact List.mem_cons_of_mem _ (List.mem_cons_of_mem _ (List.mem_append_left _ ht))
      · exact (Rule.opened_add .expression n k).symm ▸ hk
    exact .call (hcall 0 _ _ (.here List.mem_cons_self)) hopen hgap hop (ih hrow) hclose hgap'
  | nil h => exact .nil h
  | operand _ _ ihv ihr =>
    exact .operand (ihv (hcalls.of_subset (List.subset_append_left _ _)))
      (ihr (hcalls.of_subset (List.subset_append_right _ _)))
  | options h _ ihr => exact .options h (ihr (hcalls.of_subset (List.subset_cons_self _ _)))

/-- A match of a script is one under any limit that allows its calls. -/
theorem Derives.script_limit {cs : List Char}
    (h : Derives mayOpen 0 (.rule .script) ⟨cs, 0⟩ (.success j ts))
    (hcalls : CallsWithin mayOpen' ts) :
    Derives mayOpen' 0 (.rule .script) ⟨cs, 0⟩ (.success j ts) := by
  cases h with
  | rule _ hr =>
  cases hr with
  | seq hr heot =>
  cases hr with
  | seq hspacing hvalue =>
    obtain ⟨hlead, rfl⟩ := spaced_of_derives hspacing
    -- A derivation has failures in it, which another limit may turn into matches. What is written
    -- has none, so it is taken over to the other limit and derived anew.
    obtain ⟨f, hf⟩ := written_of_derives hlead.clear hvalue
    have hinside := (hcalls.of_node List.mem_cons_self).of_subset fun t ht =>
      List.mem_append_left _ (List.mem_append_right _ ht)
    have hvalue' := hf.limit (hinside.imp fun k hk => (Nat.zero_add k).symm ▸ hk)
    have hend : Clause.Within (fun _ => True) (fun _ => True) (.rule .eot) :=
      .rule trivial (by decide) (.not (.char trivial))
    exact .rule (fun h => absurd h (by decide))
      (.seq (.seq (hlead.lexes _ _) hvalue'.derives) (heot.anywhere hend _))

end Calls

/-! ## Scripts with and without the limit -/

/-- The derivations of scripts, if calls may nest as deep as one likes. -/
def DerivesUnlimited (cs : List Char) (e : Ending) : Prop :=
  Derives (fun _ => True) 0 (.rule .script) ⟨cs, 0⟩ e

theorem existsUnique_derivesUnlimited (cs : List Char) : ∃! e, DerivesUnlimited cs e := by
  obtain ⟨e, he⟩ := exists_derives_script (fun _ => True) cs
  exact ⟨e, he, fun _ he' => he'.unique he⟩

/-- The limit leaves the matches in which calls nest within it, and no others. -/
theorem derivesScript_iff {cs : List Char} {j : Cursor} {ts : List Tree} :
    DerivesScript cs (.success j ts) ↔
      DerivesUnlimited cs (.success j ts) ∧ CallsWithin (· < maxNesting) ts := by
  constructor
  · intro h
    refine ⟨h.script_limit fun _ _ _ _ => trivial, h.callsWithin.imp fun k hk => ?_⟩
    exact Nat.zero_add k ▸ hk
  · rintro ⟨h, hcalls⟩
    exact h.script_limit hcalls

theorem matchScript_of_derives {cs : List Char} {j : Cursor} {ts : List Tree}
    (h : DerivesScript cs (.success j ts)) : matchScript cs = .ok (logged ts) := by
  cases hm : matchScript cs with
  | error t => cases h.unique (derivesScript_of_matchScript_error hm)
  | ok log =>
    obtain ⟨us, hus, rfl⟩ := derivesScript_of_matchScript_ok hm
    cases h.unique hus
    rfl

/-- The limit of nesting is a filter on matches. A text is accepted with a log iff it matches
without a limit, by rules that leave this log, and no call of the match is inside `maxNesting`
others; it is rejected iff it does not match without a limit either or some call is nested deeper.
There is one matcher that counts open calls by the rules of values and calls. It does what the
matcher of scripts does, and after every attempt to match a call, from any state, the count is what
it was before. -/
theorem nesting_limit_filters (cs : List Char) :
    (∀ log, matchScript cs = .ok log ↔
      ∃ ts, DerivesUnlimited cs (.success ⟨[], byteSize cs⟩ ts) ∧ log = logged ts ∧
        CallsWithin (· < maxNesting) ts) ∧
    ((∃ t, matchScript cs = .error t) ↔
      DerivesUnlimited cs .failure ∨
        ∃ ts, DerivesUnlimited cs (.success ⟨[], byteSize cs⟩ ts) ∧
          ¬ CallsWithin (· < maxNesting) ts) ∧
    (∃! e, DerivesUnlimited cs e) ∧
    (∃! value, Counter.IsValue value) ∧
    ∀ value, Counter.IsValue value →
      Counter.script value (.start cs) 0 = (script.run (.start cs), 0) ∧
      ∀ s n, (Counter.expression value s n).2 = n := by
  have haccepted : ∀ log, matchScript cs = .ok log ↔
      ∃ ts, DerivesUnlimited cs (.success ⟨[], byteSize cs⟩ ts) ∧ log = logged ts ∧
        CallsWithin (· < maxNesting) ts := by
    intro log
    constructor
    · intro hm
      obtain ⟨ts, hts, hlog⟩ := derivesScript_of_matchScript_ok hm
      obtain ⟨hfree, hcalls⟩ := derivesScript_iff.mp hts
      exact ⟨ts, hfree, hlog, hcalls⟩
    · rintro ⟨ts, hfree, rfl, hcalls⟩
      exact matchScript_of_derives (derivesScript_iff.mpr ⟨hfree, hcalls⟩)
  refine ⟨haccepted, ?_, existsUnique_derivesUnlimited cs, Counter.existsUnique_isValue,
    fun value h => ⟨h.script_agrees _, h.expression_snd⟩⟩
  constructor
  · rintro ⟨t, hm⟩
    obtain ⟨e, he, -⟩ := existsUnique_derivesUnlimited cs
    cases e with
    | failure => exact .inl he
    | success j ts =>
      obtain rfl := Derives.stop_of_script he
      refine .inr ⟨ts, he, fun hcalls => ?_⟩
      rw [(haccepted _).mpr ⟨ts, he, rfl, hcalls⟩] at hm
      cases hm
  · intro h
    cases hm : matchScript cs with
    | error t => exact ⟨t, rfl⟩
    | ok log =>
      -- The derivation that the log comes from is the only one there is.
      obtain ⟨ts, hts, -, hcalls⟩ := (haccepted log).mp hm
      rcases h with hfails | ⟨us, hus, hdeep⟩
      · cases hts.unique hfails
      · cases hts.unique hus
        exact absurd hcalls hdeep

/-- A call with `n` calls inside each other in it. -/
def tower : Nat → List Char
  | 0 => ['(', 'f', ')']
  | n + 1 => ['(', 'f'] ++ (tower n ++ [')'])

/-- The operator of such a call ends where its first parenthesis stands. -/
theorem nameAt_before {c : Char} {i j : Cursor} (hij : i.Across ['f'] j)
    (hj : j.rest.head? = some c) (hc : c = '(' ∨ c = ')') : NameAt ['f'] i j j := by
  refine ⟨rfl, hij, fun d hd => ?_, .refl fun d hd => ?_⟩ <;>
  · cases Option.some.inj (hj.symm.trans hd)
    rcases hc with rfl | rfl <;> rfl

/-- A tower is written under any limit that allows its calls, of which one is inside all others. -/
theorem exists_written_tower {mayOpen : Nat → Prop} (k n : Nat)
    (hopen : ∀ m, m ≤ k → mayOpen (n + m)) {i j : Cursor} (hij : i.Across (tower k) j)
    (hj : j.Clear) :
    ∃ ts f, Written mayOpen n .value i j ts [.operand f] ∧ ∀ P, CallsWithin P ts → P k := by
  -- Around the smaller tower one more call is open.
  induction k generalizing n i j with
  | zero =>
    obtain ⟨a, hia, haj⟩ := hij.split ['(']
    obtain ⟨b, hab, hbj⟩ := haj.split ['f']
    have hb : b.rest.head? = some ')' := by
      rw [hbj.1]
      rfl
    have hname := nameAt_before hab hb (.inr rfl)
    refine ⟨_, _, .call (hopen 0 (Nat.le_refl _)) hia (.refl hname.clear_start) hname (.nil hb)
      hbj (.refl hj), fun P hP => ?_⟩
    exact hP.of_node List.mem_cons_self 0 _ _ (.here List.mem_cons_self)
  | succ k ih =>
    obtain ⟨a, hia, haj⟩ := hij.split ['(']
    obtain ⟨b, hab, hbj⟩ := haj.split ['f']
    obtain ⟨c, hbc, hcj⟩ := hbj.split (tower k)
    have hb : b.rest.head? = some '(' := by
      rw [hbc.1]
      cases k <;> rfl
    have hc : c.rest.head? = some ')' := by
      rw [hcj.1]
      rfl
    have hclear : c.Clear := fun d hd => by
      cases Option.some.inj (hc.symm.trans hd)
      rfl
    have hinside : ∀ m, m ≤ k → mayOpen (n + 1 + m) := fun m hm => by
      rw [Nat.add_assoc, Nat.add_comm 1 m]
      exact hopen (m + 1) (by omega)
    obtain ⟨ts, f, hf, hcalls⟩ := ih (n + 1) hinside hbc hclear
    have hname := nameAt_before hab hb (.inl rfl)
    refine ⟨_, _, .call (hopen 0 (Nat.zero_le _)) hia (.refl hname.clear_start) hname
      (.operand hf (.nil hc)) hcj (.refl hj), fun P hP => ?_⟩
    refine hcalls (fun m => P (m + 1)) (((hP.of_node List.mem_cons_self).of_node
      List.mem_cons_self).of_subset fun t ht => ?_)
    exact List.mem_cons_of_mem _ (List.mem_cons_of_mem _
      (List.mem_append_left _ (List.mem_append_left _ ht)))

theorem exists_derives_tower (mayOpen : Nat → Prop) (k : Nat) (hopen : ∀ m, m ≤ k → mayOpen m) :
    ∃ ts, Derives mayOpen 0 (.rule .script) ⟨tower k, 0⟩ (.success ⟨[], byteSize (tower k)⟩ ts) ∧
      ∀ P, CallsWithin P ts → P k := by
  have hacross : Cursor.Across ⟨tower k, 0⟩ (tower k) ⟨[], byteSize (tower k)⟩ :=
    ⟨(List.append_nil _).symm, (Nat.zero_add _).symm⟩
  obtain ⟨ts, f, hf, hcalls⟩ := exists_written_tower k 0
    (fun m hm => (Nat.zero_add m).symm ▸ hopen m hm) hacross fun c hc => absurd hc (by simp)
  have hlead : Spaced ⟨tower k, 0⟩ ⟨tower k, 0⟩ := .refl hf.clear_start
  refine ⟨_, .rule (fun h => absurd h (by decide)) (.seq (.seq (hlead.lexes _ _) hf.derives)
    (.rule (fun h => absurd h (by decide)) (.not .charEnd))), fun P hP => hcalls P ?_⟩
  exact (hP.of_node List.mem_cons_self).of_subset fun t ht =>
    List.mem_append_left _ (List.mem_append_right _ ht)

/-- Calls may be `maxNesting` deep and no deeper. -/
theorem nesting_limit_filters_tower :
    (∃ log, matchScript (tower 1023) = .ok log) ∧ ∃ t, matchScript (tower 1024) = .error t := by
  constructor
  · obtain ⟨ts, hts, -⟩ := exists_derives_tower (· < maxNesting) 1023 fun m hm =>
      Nat.lt_succ_of_le hm
    obtain ⟨hfree, hcalls⟩ := derivesScript_iff.mp hts
    exact ⟨_, ((nesting_limit_filters _).1 _).mpr ⟨ts, hfree, rfl, hcalls⟩⟩
  · obtain ⟨ts, hts, hdeep⟩ := exists_derives_tower (fun _ => True) 1024 fun _ _ => trivial
    refine (nesting_limit_filters _).2.1.mpr (.inr ⟨ts, hts, fun hcalls => ?_⟩)
    exact Nat.lt_irrefl _ (hdeep (· < maxNesting) hcalls)

end Grammar

end Fexpr
