import Fexpr.Proofs.Grammar.Derivation
import Fexpr.Proofs.Tree.Nesting
import Mathlib.Logic.ExistsUnique

/-!
# Runs and derivations

A parsing expression `Follows` a clause if its runs are derivations of the clause: a run that
matches logs the rules that the derivation applies, and a run that fails stands for a derivation of
failure. There is one lemma for each way to build a clause, and each rule of the script grammar
follows its clause by putting these lemmas together.

Since runs always end and derivations are unique, matching a script and deriving it are the same
(`matchScript_iff_derives`).
-/

namespace Fexpr

open Grammar (Token)

/-- The tokens that the applied rules of `ts` leave in a log: those that cover something, each after
the ones inside it. -/
def Tree.logged (ts : List Tree) : List Token :=
  (Tree.postorders ts).filter fun t => !t.span.isEmpty

namespace Tree

theorem logged_nil : logged [] = [] := by
  rw [logged, postorders_nil, List.filter_nil]

theorem logged_append (ts us : List Tree) : logged (ts ++ us) = logged ts ++ logged us := by
  rw [logged, postorders_append, List.filter_append, logged, logged]

theorem logged_empty {r : Grammar.Rule} {a b : Nat} {ts : List Tree} (h : a = b) :
    logged [node r ⟨a, b⟩ ts] = logged ts := by
  simp [logged, postorders, h, Text.Span.isEmpty]

theorem logged_node {r : Grammar.Rule} {a b : Nat} {ts : List Tree} (h : a ≠ b) :
    logged [node r ⟨a, b⟩ ts] = logged ts ++ [⟨r, ⟨a, b⟩⟩] := by
  simp [logged, postorders, h, Text.Span.isEmpty]

end Tree

namespace Grammar

open Text (byteSize)
open Fexpr.Tree (logged)

/-- The place where a run stands. -/
def Peg.State.cursor (s : Peg.State) : Cursor := ⟨s.rest, s.offset⟩

/-- Every run of `p` is a derivation of `c` with `n` calls open. -/
def Follows (mayOpen : Nat → Prop) (n : Nat) (c : Clause) (p : Peg) : Prop :=
  ∀ s : Peg.State,
    (∀ t, p.run s = .ok t → ∃ ts, Derives mayOpen n c s.cursor (.success t.cursor ts) ∧
      t.log = (logged ts).reverse ++ s.log) ∧
    (∀ g, p.run s = .error g → Derives mayOpen n c s.cursor .failure)

namespace Follows

open Peg

variable {mayOpen : Nat → Prop} {n : Nat} {c d : Clause} {p q : Peg}

/-- The tokens of two matches in a row are logged in their order. -/
theorem log_append {ts us : List Tree} {log log' log'' : List Token}
    (h : log' = (logged ts).reverse ++ log) (h' : log'' = (logged us).reverse ++ log') :
    log'' = (logged (ts ++ us)).reverse ++ log := by
  rw [h', h, Tree.logged_append, List.reverse_append, List.append_assoc]

theorem empty : Follows mayOpen n .empty Peg.empty := by
  intro s
  constructor
  · intro t ht
    simp only [run, Except.ok.injEq] at ht
    subst ht
    exact ⟨[], .empty, rfl⟩
  · intro g hg
    simp only [run, reduceCtorEq] at hg

theorem char (f : Char → Bool) : Follows mayOpen n (.char f) (Peg.char f) := by
  intro s
  obtain ⟨rest, offset, log, furthest⟩ := s
  cases rest with
  | nil =>
    constructor
    · intro t ht
      simp only [run, State.next, reduceCtorEq] at ht
    · intro g _
      exact .charEnd
  | cons x xs =>
    cases hx : f x with
    | true =>
      constructor
      · intro t ht
        simp only [run, State.next, hx, if_true, Except.ok.injEq] at ht
        subst ht
        exact ⟨[], .char hx, rfl⟩
      · intro g hg
        simp only [run, State.next, hx, if_true, reduceCtorEq] at hg
    | false =>
      constructor
      · intro t ht
        simp only [run, State.next, hx, Bool.false_eq_true, if_false, reduceCtorEq] at ht
      · intro g _
        exact .charOther hx

theorem seq (hp : Follows mayOpen n c p) (hq : Follows mayOpen n d q) :
    Follows mayOpen n (.seq c d) (Peg.seq p q) := by
  intro s
  cases hrun : p.run s with
  | error g =>
    have hfail := (hp s).2 g hrun
    constructor
    · intro t ht
      simp only [run, hrun, reduceCtorEq] at ht
    · intro g' _
      exact .seqLeft hfail
  | ok u =>
    obtain ⟨ts, hts, hlog⟩ := (hp s).1 u hrun
    constructor
    · intro t ht
      simp only [run, hrun] at ht
      obtain ⟨us, hus, hlog'⟩ := (hq u).1 t ht
      exact ⟨ts ++ us, .seq hts hus, log_append hlog hlog'⟩
    · intro g hg
      simp only [run, hrun] at hg
      exact .seqRight hts ((hq u).2 g hg)

/-- Matching one thing or else the other. The second one starts where the first one did. -/
theorem alt (hp : Follows mayOpen n c p) (hq : Follows mayOpen n d q) :
    Follows mayOpen n (.alt c d) (Peg.alt p q) := by
  intro s
  cases hrun : p.run s with
  | error g =>
    have hfail := (hp s).2 g hrun
    constructor
    · intro t ht
      simp only [run, hrun] at ht
      obtain ⟨us, hus, hlog⟩ := (hq { s with furthest := g }).1 t ht
      exact ⟨us, .altRight hfail hus, hlog⟩
    · intro g' hg'
      simp only [run, hrun] at hg'
      exact .altRight hfail ((hq { s with furthest := g }).2 g' hg')
  | ok u =>
    obtain ⟨ts, hts, hlog⟩ := (hp s).1 u hrun
    constructor
    · intro t ht
      simp only [run, hrun, Except.ok.injEq] at ht
      subst ht
      exact ⟨ts, .altLeft hts, hlog⟩
    · intro g hg
      simp only [run, hrun, reduceCtorEq] at hg

/-- Repeating what is not nullable. Each round takes a character at least, so the rounds that the
text at hand allows are enough to come to the end of the repetition. -/
theorem again (hp : Follows mayOpen n c p) (hc : c.nullable = false) :
    ∀ (fuel : List Char) (s : State), s.rest.length ≤ fuel.length →
      ∃ ts, Derives mayOpen n (.star c) s.cursor (.success (State.again p.run fuel s).cursor ts) ∧
        (State.again p.run fuel s).log = (logged ts).reverse ++ s.log := by
  intro fuel
  induction fuel with
  | nil =>
    intro s hs
    cases hrun : p.run s with
    | error g =>
      simp only [State.again, hrun]
      exact ⟨[], .starEnd ((hp s).2 g hrun), rfl⟩
    | ok t =>
      -- No text is left, but a round would have to take some.
      obtain ⟨ts, hts, _⟩ := (hp s).1 t hrun
      obtain ⟨cs, hcs, hne⟩ := hts.across_ne_nil hc
      have hlt := hcs.length_lt hne
      exact absurd hs (by simp only [State.cursor] at hlt; simp only [List.length_nil]; omega)
  | cons x fuel ih =>
    intro s hs
    cases hrun : p.run s with
    | error g =>
      simp only [State.again, hrun]
      exact ⟨[], .starEnd ((hp s).2 g hrun), rfl⟩
    | ok t =>
      obtain ⟨ts, hts, hlog⟩ := (hp s).1 t hrun
      obtain ⟨cs, hcs, hne⟩ := hts.across_ne_nil hc
      have hlt := hcs.length_lt hne
      have hoff := hcs.offset_lt hne
      simp only [State.cursor] at hlt hoff
      have hmoved : ¬ t.offset = s.offset := by omega
      simp only [State.again, hrun, hmoved, if_false]
      obtain ⟨us, hus, hlog'⟩ := ih t (by simp only [List.length_cons] at hs; omega)
      exact ⟨ts ++ us, .starMore hts hus, log_append hlog hlog'⟩

theorem star (hp : Follows mayOpen n c p) (hc : c.nullable = false) :
    Follows mayOpen n (.star c) (Peg.star p) := by
  intro s
  constructor
  · intro t ht
    simp only [run, Except.ok.injEq] at ht
    subst ht
    exact again hp hc s.rest s (Nat.le_refl _)
  · intro g hg
    simp only [run, reduceCtorEq] at hg

theorem plus (hp : Follows mayOpen n c p) (hc : c.nullable = false) :
    Follows mayOpen n (.plus c) (Peg.plus p) := by
  intro s
  obtain ⟨hok, herror⟩ := seq hp (star hp hc) s
  constructor
  · intro t ht
    obtain ⟨ts, hts, hlog⟩ := hok t ht
    cases hts with
    | seq hone hmore => exact ⟨_, .plus hone hmore, hlog⟩
  · intro g hg
    cases herror g hg with
    | seqLeft hnone => exact .plusNone hnone
    | seqRight _ hmore => cases hmore

theorem opt (hp : Follows mayOpen n c p) : Follows mayOpen n (.opt c) (Peg.opt p) := by
  intro s
  obtain ⟨hok, herror⟩ := alt hp empty s
  constructor
  · intro t ht
    obtain ⟨ts, hts, hlog⟩ := hok t ht
    cases hts with
    | altLeft hsome => exact ⟨_, .opt hsome, hlog⟩
    | altRight hnone hempty =>
      obtain ⟨hcursor, hnil⟩ := Ending.success.inj (hempty.unique .empty)
      rw [hcursor]
      exact ⟨[], .optNone hnone, by rw [hlog, hnil]⟩
  · intro g hg
    cases herror g hg with
    | altRight _ hempty => cases hempty

/-- Looking ahead. A match that is only looked at leaves no token behind. -/
theorem not (hp : Follows mayOpen n c p) : Follows mayOpen n (.not c) (Peg.not p) := by
  intro s
  cases hrun : p.run s with
  | error g =>
    constructor
    · intro t ht
      simp only [run, hrun, Except.ok.injEq] at ht
      subst ht
      exact ⟨[], .not ((hp s).2 g hrun), rfl⟩
    · intro g' hg'
      simp only [run, hrun, reduceCtorEq] at hg'
  | ok u =>
    obtain ⟨ts, hts, _⟩ := (hp s).1 u hrun
    constructor
    · intro t ht
      simp only [run, hrun, reduceCtorEq] at ht
    · intro g _
      exact .notAhead hts

theorem log_complete (r : Rule) (s t : State) {ts : List Tree}
    (h : t.log = (logged ts).reverse ++ s.log) :
    (t.complete r s.offset).log =
      (logged [.node r ⟨s.offset, t.offset⟩ ts]).reverse ++ s.log := by
  unfold State.complete
  split
  next hoff => rw [h, Tree.logged_empty hoff.symm]
  next hoff =>
    rw [Tree.logged_node fun e => hoff e.symm, List.reverse_append, List.append_assoc, ← h]
    rfl

theorem cursor_complete (r : Rule) (start : Nat) (t : State) :
    (t.complete r start).cursor = t.cursor := by
  unfold State.complete
  split <;> rfl

theorem apply {r : Rule} (ho : r = .expression → mayOpen n)
    (hp : Follows mayOpen (r.opened n) (.of r) p) :
    Follows mayOpen n (.rule r) (Peg.rule r p) := by
  intro s
  cases hrun : p.run s with
  | error g =>
    constructor
    · intro t ht
      simp only [run, hrun, reduceCtorEq] at ht
    · intro g' _
      exact .ruleNone ho ((hp s).2 g hrun)
  | ok u =>
    obtain ⟨ts, hts, hlog⟩ := (hp s).1 u hrun
    constructor
    · intro t ht
      simp only [run, hrun, Except.ok.injEq] at ht
      subst ht
      refine ⟨[.node r ⟨s.offset, u.offset⟩ ts], ?_, log_complete r s u hlog⟩
      rw [cursor_complete]
      exact .rule ho hts
    · intro g hg
      simp only [run, hrun, reduceCtorEq] at hg

theorem rule {r : Rule} (hr : r ≠ .expression) (hp : Follows mayOpen n (.of r) p) :
    Follows mayOpen n (.rule r) (Peg.rule r p) :=
  apply (fun h => absurd h hr) (by rwa [Rule.opened, if_neg hr])

theorem shut (ho : ¬ mayOpen n) : Follows mayOpen n (.rule .expression) Peg.fail := by
  intro s
  constructor
  · intro t ht
    simp only [run, reduceCtorEq] at ht
  · intro g _
    exact .ruleShut ho

theorem exactly (cs : List Char) :
    Follows mayOpen n (Clause.exactly cs) (Peg.exactly cs) := by
  induction cs with
  | nil => exact empty
  | cons c cs ih => exact seq (char _) ih

theorem times (k : Nat) (hp : Follows mayOpen n c p) :
    Follows mayOpen n (Clause.times k c) (Peg.times k p) := by
  induction k with
  | zero => exact empty
  | succ k ih => exact seq hp ih

/-- Matching a class of two characters, one of them first. -/
theorem oneOfTwo (a b : Char) (hq : Follows mayOpen n d q) :
    Follows mayOpen n (.alt (.oneOf [a, b]) d) (Peg.alt (Peg.one a) (Peg.alt (Peg.one b) q)) := by
  intro s
  -- Both readings of the class fail and match together, and log nothing.
  have hor : ∀ e, Derives mayOpen n (.alt (.one a) (.alt (.one b) d)) s.cursor e →
      Derives mayOpen n (.alt (.oneOf [a, b]) d) s.cursor e := by
    intro e he
    cases he with
    | altLeft ha =>
      generalize s.cursor = i at ha
      cases ha with
      | char h => exact .altLeft (.char (by simp_all))
    | altRight ha hrest =>
      cases hrest with
      | altLeft hb =>
        generalize s.cursor = i at ha hb
        cases hb with
        | char h => exact .altLeft (.char (by simp_all))
      | altRight hb hd =>
        refine .altRight ?_ hd
        generalize s.cursor = i at ha hb
        cases ha with
        | charEnd => exact .charEnd
        | charOther h =>
          cases hb with
          | charOther h' => exact .charOther (by simp_all)
  obtain ⟨hok, herror⟩ := alt (char (· == a)) (alt (char (· == b)) hq) s
  constructor
  · intro t ht
    obtain ⟨ts, hts, hlog⟩ := hok t ht
    exact ⟨ts, hor _ hts, hlog⟩
  · intro g hg
    exact hor _ (herror g hg)

end Follows

/-! ## The rules of scripts -/

section Rules

variable {mayOpen : Nat → Prop} {n : Nat}

theorem follows_spacing : Follows mayOpen n (.rule .spacing) spacing :=
  have hcomment : Follows mayOpen n
      (.one ';' ++ .star (.not (.oneOf ['\r', '\n']) ++ .any) ++
        (.oneOf ['\r', '\n'] <|> .not .any)) comment :=
    .seq (.seq (.char _) (.star (.seq (.not (.char _)) (.char _)) rfl))
      (.oneOfTwo _ _ (.not (.char _)))
  .rule (by decide) (.star (.alt (.plus (.char _) rfl) hcomment) rfl)

theorem follows_identifier : Follows mayOpen n (.rule .identifier) identifier :=
  .rule (by decide)
    (.seq (.seq (.char _) (.star (.alt (.char _) (.char _)) rfl)) follows_spacing)

theorem follows_attr : Follows mayOpen n (.rule .attr) attr :=
  .rule (by decide) (.seq (.char _) follows_identifier)

theorem follows_identifierAttr : Follows mayOpen n (.rule .identifierAttr) identifierAttr :=
  .rule (by decide) (.seq follows_identifier (.plus follows_attr rfl))

theorem follows_digitsOf (first further : Char → Bool) :
    Follows mayOpen n (.digitsOf first further) (digitsOf first further) :=
  .seq (.char _) (.star (.seq (.star (.char _) rfl) (.char _)) rfl)

theorem follows_exponent : Follows mayOpen n (.rule .exponent) exponent :=
  .rule (by decide) (.seq (.seq (.char _) (.opt (.char _))) (follows_digitsOf _ _))

theorem follows_floatLiteral : Follows mayOpen n (.rule .floatLiteral) floatLiteral :=
  have hdigits : Follows mayOpen n .digits digits := follows_digitsOf _ _
  have hexponent : Follows mayOpen n (.opt (.rule .exponent)) (Peg.opt exponent) :=
    .opt follows_exponent
  .rule (by decide)
    (.seq (.opt (.char _))
      (.alt (.seq (.seq (.seq hdigits (.char _)) (.opt hdigits)) hexponent)
        (.alt (.seq hdigits follows_exponent)
          (.seq (.seq (.char _) hdigits) hexponent))))

theorem follows_hexNumeral : Follows mayOpen n (.rule .hexNumeral) hexNumeral :=
  .rule (by decide) (.alt (follows_digitsOf _ _) (.char _))

theorem follows_decimalNumeral : Follows mayOpen n (.rule .decimalNumeral) decimalNumeral :=
  .rule (by decide) (.alt (follows_digitsOf _ _) (.char _))

theorem follows_integerLiteral : Follows mayOpen n (.rule .integerLiteral) integerLiteral :=
  .rule (by decide)
    (.seq
      (.seq (.opt (.char _))
        (.alt (.seq (.seq (.char _) (.char _)) follows_hexNumeral) follows_decimalNumeral))
      (.opt (.char _)))

theorem follows_longStringLiteral :
    Follows mayOpen n (.rule .longStringLiteral) longStringLiteral :=
  .rule (by decide)
    (.seq (.seq (.exactly _) (.star (.seq (.not (.char _)) (.char _)) rfl)) (.exactly _))

theorem follows_uChar : Follows mayOpen n (.rule .uChar) uChar :=
  .rule (by decide)
    (.alt (.seq (.seq (.char _) (.char _)) (.times _ (.char _)))
      (.seq (.seq (.char _) (.char _)) (.times _ (.char _))))

theorem follows_hexByte : Follows mayOpen n (.rule .hexByte) hexByte :=
  .rule (by decide) (.seq (.seq (.char _) (.char _)) (.times _ (.char _)))

theorem follows_escape : Follows mayOpen n (.rule .escape) escape :=
  .rule (by decide) (.seq (.char _) (.char _))

theorem follows_stringLiteral : Follows mayOpen n (.rule .stringLiteral) stringLiteral :=
  .rule (by decide)
    (.seq
      (.seq (.char _)
        (.star
          (.alt follows_uChar
            (.alt follows_escape (.alt follows_hexByte (.seq (.not (.char _)) (.char _)))))
          rfl))
      (.char _))

theorem follows_boolLiteral : Follows mayOpen n (.rule .boolLiteral) boolLiteral :=
  .rule (by decide) (.seq (.alt (.exactly _) (.exactly _)) (.not (.char _)))

theorem follows_nilLiteral : Follows mayOpen n (.rule .nilLiteral) nilLiteral :=
  .rule (by decide) (.seq (.exactly _) (.not (.alt (.char _) (.char _))))

theorem follows_literal : Follows mayOpen n (.rule .literal) literal :=
  .rule (by decide)
    (.alt follows_floatLiteral
      (.alt follows_longStringLiteral
        (.alt follows_boolLiteral
          (.alt follows_stringLiteral (.alt follows_nilLiteral follows_integerLiteral)))))

theorem follows_atom :
    Follows mayOpen n (.rule .literal <|> .rule .identifierAttr <|> .rule .identifier) atom :=
  .alt follows_literal (.alt follows_identifierAttr follows_identifier)

theorem follows_option : Follows mayOpen n (.rule .option) option :=
  .rule (by decide)
    (.seq (.seq (.seq (.seq (.char _) (.char _)) follows_identifier) follows_atom)
      follows_spacing)

theorem follows_optionList : Follows mayOpen n (.rule .optionList) optionList :=
  .rule (by decide) (.plus follows_option rfl)

theorem follows_operator : Follows mayOpen n (.rule .operator) operator :=
  .rule (by decide) follows_identifier

theorem follows_lpar : Follows mayOpen n (.rule .lpar) lpar :=
  .rule (by decide) (.seq (.seq follows_spacing (.char _)) follows_spacing)

theorem follows_rpar : Follows mayOpen n (.rule .rpar) rpar :=
  .rule (by decide) (.seq (.seq follows_spacing (.char _)) follows_spacing)

theorem follows_valueOr {call : Peg} (hcall : Follows mayOpen n (.rule .expression) call) :
    Follows mayOpen n (.rule .value) (valueOr call) :=
  .rule (by decide) (.seq (.alt hcall follows_atom) follows_spacing)

theorem follows_expression {operand : Peg} (ho : mayOpen n)
    (hoperand : Follows mayOpen (n + 1) (.rule .value) operand) :
    Follows mayOpen n (.rule .expression) (expression operand) :=
  .apply (fun _ => ho)
    (.seq
      (.seq (.seq follows_lpar follows_operator)
        (.star (.alt follows_optionList hoperand) rfl))
      follows_rpar)

end Rules

/-- The values that may hold `k` calls inside each other are those of the grammar at a place where
`k` more calls may be opened. -/
theorem follows_value (limit k : Nat) :
    ∀ n, n + k = limit → Follows (· < limit) n (.rule .value) (value k) := by
  induction k with
  | zero =>
    intro n hn
    exact follows_valueOr (.shut (by omega))
  | succ k ih =>
    intro n hn
    exact follows_valueOr (follows_expression (by omega) (ih (n + 1) (by omega)))

/-- Scripts follow their rule, whatever the limit of calls inside each other is. -/
theorem follows_scriptUpTo (limit : Nat) :
    Follows (· < limit) 0 (.rule .script) (scriptUpTo limit) :=
  .rule (by decide)
    (.seq (.seq follows_spacing (follows_value limit limit 0 (Nat.zero_add _)))
      (.rule (by decide) (.not (.char _))))

/-- Where the end of the text is matched there is no text left. -/
theorem Derives.rest_eq_nil {mayOpen : Nat → Prop} {n : Nat} {i j : Cursor} {ts : List Tree}
    (h : Derives mayOpen n (.rule .eot) i (.success j ts)) : j.rest = [] := by
  cases h with
  | rule _ heot =>
    cases heot with
    | not hany =>
      cases hany with
      | charOther h => simp at h
      | charEnd => rfl

/-- A match of a script goes over the whole text. -/
theorem Derives.stop_of_script {mayOpen : Nat → Prop} {n : Nat} {cs : List Char} {j : Cursor}
    {ts : List Tree} (h : Derives mayOpen n (.rule .script) ⟨cs, 0⟩ (.success j ts)) :
    j = ⟨[], byteSize cs⟩ := by
  have hrest : j.rest = [] := by
    cases h with
    | rule _ hscript =>
      cases hscript with
      | seq _ heot => exact heot.rest_eq_nil
  obtain ⟨ds, hds, hoff⟩ := h.across
  obtain ⟨rest, offset⟩ := j
  simp only at hrest hds hoff
  subst hrest
  rw [hds, hoff, List.append_nil, Nat.zero_add]

/-- The derivations of scripts that the grammar admits. -/
def DerivesScript (cs : List Char) (e : Ending) : Prop :=
  Derives (· < maxNesting) 0 (.rule .script) ⟨cs, 0⟩ e

/-- A text that matches is derived, and the log lists what the derivation applies. -/
theorem derivesScript_of_matchScript_ok {cs : List Char} {log : List Token}
    (h : matchScript cs = .ok log) :
    ∃ ts, DerivesScript cs (.success ⟨[], byteSize cs⟩ ts) ∧ log = logged ts := by
  unfold matchScript at h
  cases hrun : script.run (.start cs) with
  | error g => simp only [hrun, reduceCtorEq] at h
  | ok t =>
    simp only [hrun, Except.ok.injEq] at h
    obtain ⟨ts, hts, hlog⟩ := (follows_scriptUpTo maxNesting (.start cs)).1 t hrun
    have hstop := hts.stop_of_script
    rw [hstop] at hts
    refine ⟨ts, hts, ?_⟩
    rw [← h, hlog, List.reverse_append, List.reverse_reverse]
    rfl

theorem derivesScript_of_matchScript_error {cs : List Char} {t : Token}
    (h : matchScript cs = .error t) : DerivesScript cs .failure := by
  unfold matchScript at h
  cases hrun : script.run (.start cs) with
  | error g => exact (follows_scriptUpTo maxNesting (.start cs)).2 g hrun
  | ok t => simp only [hrun, reduceCtorEq] at h

/-- Matching a script is deriving it. For every text there is exactly one derivable ending; the text
matches iff success over the whole text is derivable, with the log of the rules applied in the
derivation; and it is rejected iff failure is derivable. -/
theorem matchScript_iff_derives (cs : List Char) :
    (∃! e, DerivesScript cs e) ∧
    (∀ log, matchScript cs = .ok log ↔
      ∃ ts, DerivesScript cs (.success ⟨[], byteSize cs⟩ ts) ∧ log = logged ts) ∧
    ((∃ t, matchScript cs = .error t) ↔ DerivesScript cs .failure) := by
  refine ⟨?_, ?_, ?_⟩
  · cases hm : matchScript cs with
    | error t =>
      have hd := derivesScript_of_matchScript_error hm
      exact ⟨_, hd, fun e he => he.unique hd⟩
    | ok log =>
      obtain ⟨ts, hd, _⟩ := derivesScript_of_matchScript_ok hm
      exact ⟨_, hd, fun e he => he.unique hd⟩
  · intro log
    constructor
    · exact derivesScript_of_matchScript_ok
    · rintro ⟨ts, hd, rfl⟩
      cases hm : matchScript cs with
      | error t => cases hd.unique (derivesScript_of_matchScript_error hm)
      | ok log' =>
        obtain ⟨us, hd', rfl⟩ := derivesScript_of_matchScript_ok hm
        cases hd.unique hd'
        rfl
  · constructor
    · rintro ⟨t, hm⟩
      exact derivesScript_of_matchScript_error hm
    · intro hd
      cases hm : matchScript cs with
      | error t => exact ⟨t, rfl⟩
      | ok log =>
        obtain ⟨ts, hd', _⟩ := derivesScript_of_matchScript_ok hm
        cases hd.unique hd'

end Grammar

end Fexpr
