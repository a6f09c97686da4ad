import Fexpr.Proofs.Tree.OfMatch

/-!
# Trying a grammar

`Peg.Tries` says how trying to match a parsing expression ends, and which rules are completed on the
way, one after the other. Rules in an alternative that is given up later count like all others. It
knows no log and no record of the furthest match. Trying ends in one way only (`Tries.unique`).

A rule may be completed with an empty match. In the grammar of scripts this is spacing, or the end
of the text, and it happens nowhere beyond the matches that are not empty (`anchored_script`):
spacing is matched where such a match has just ended, or where one ends right after it.
-/

namespace Fexpr

open Text (Span slice?)

namespace Grammar

namespace Peg

/-- Trying the expression at a place. If it matches, the match goes up to the place that is given.
The tokens are those of the rules that are completed meanwhile, in the order of their completion,
whatever becomes of the match afterwards. -/
inductive Tries : Peg → Cursor → Option Cursor → List Token → Prop where
  | empty {i} : Tries .empty i (some i) []
  | fail {i} : Tries .fail i none []
  | char {f c cs k} (h : f c = true) :
    Tries (.char f) ⟨c :: cs, k⟩ (some ⟨cs, k + c.utf8Size⟩) []
  | charOther {f c cs k} (h : f c = false) : Tries (.char f) ⟨c :: cs, k⟩ none []
  | charEnd {f k} : Tries (.char f) ⟨[], k⟩ none []
  | seq {p q i j e ds es} (hp : Tries p i (some j) ds) (hq : Tries q j e es) :
    Tries (.seq p q) i e (ds ++ es)
  | seqNone {p q i ds} (hp : Tries p i none ds) : Tries (.seq p q) i none ds
  | alt {p q i j ds} (hp : Tries p i (some j) ds) : Tries (.alt p q) i (some j) ds
  | altElse {p q i e ds es} (hp : Tries p i none ds) (hq : Tries q i e es) :
    Tries (.alt p q) i e (ds ++ es)
  | starEnd {p i ds} (hp : Tries p i none ds) : Tries (.star p) i (some i) ds
  /-- A round that does not move is the last one. -/
  | starStay {p i j ds} (hp : Tries p i (some j) ds) (hij : j.offset = i.offset) :
    Tries (.star p) i (some j) ds
  | starMore {p i j e ds es} (hp : Tries p i (some j) ds) (hij : j.offset ≠ i.offset)
    (hs : Tries (.star p) j e es) : Tries (.star p) i e (ds ++ es)
  | not {p i ds} (hp : Tries p i none ds) : Tries (.not p) i (some i) ds
  | notAhead {p i j ds} (hp : Tries p i (some j) ds) : Tries (.not p) i none ds
  | rule {r p i j ds} (hp : Tries p i (some j) ds) :
    Tries (.rule r p) i (some j) (ds ++ [⟨r, ⟨i.offset, j.offset⟩⟩])
  | ruleNone {r p i ds} (hp : Tries p i none ds) : Tries (.rule r p) i none ds

namespace Tries

variable {p : Peg} {i j : Cursor} {e e' : Option Cursor} {ds ds' : List Token}

/-- Trying ends in one way only. -/
theorem unique (h : Tries p i e ds) (h' : Tries p i e' ds') : e = e' ∧ ds = ds' := by
  -- Another last step of the second trial would contradict the first one about a part of `p`.
  induction h generalizing e' ds' with
  | empty => cases h'; exact ⟨rfl, rfl⟩
  | fail => cases h'; exact ⟨rfl, rfl⟩
  | char h =>
    cases h' with
    | char _ => exact ⟨rfl, rfl⟩
    | charOther h' => rw [h] at h'; cases h'
  | charOther h =>
    cases h' with
    | char h' => rw [h] at h'; cases h'
    | charOther _ => exact ⟨rfl, rfl⟩
  | charEnd => cases h'; exact ⟨rfl, rfl⟩
  | seq _ _ ihp ihq =>
    cases h' with
    | seq hp hq =>
      obtain ⟨⟨⟩, rfl⟩ := ihp hp
      obtain ⟨rfl, rfl⟩ := ihq hq
      exact ⟨rfl, rfl⟩
    | seqNone hp => cases (ihp hp).1
  | seqNone _ ihp =>
    cases h' with
    | seq hp _ => cases (ihp hp).1
    | seqNone hp => exact ihp hp
  | alt _ ihp =>
    cases h' with
    | alt hp => exact ihp hp
    | altElse hp _ => cases (ihp hp).1
  | altElse _ _ ihp ihq =>
    cases h' with
    | alt hp => cases (ihp hp).1
    | altElse hp hq =>
      obtain ⟨-, rfl⟩ := ihp hp
      obtain ⟨rfl, rfl⟩ := ihq hq
      exact ⟨rfl, rfl⟩
  | starEnd _ ihp =>
    cases h' with
    | starEnd hp => exact ⟨rfl, (ihp hp).2⟩
    | starStay hp _ => cases (ihp hp).1
    | starMore hp _ _ => cases (ihp hp).1
  | starStay _ hij ihp =>
    cases h' with
    | starEnd hp => cases (ihp hp).1
    | starStay hp _ => exact ihp hp
    | starMore hp hij' _ =>
      obtain ⟨⟨⟩, -⟩ := ihp hp
      exact absurd hij hij'
  | starMore _ hij _ ihp ihs =>
    cases h' with
    | starEnd hp => cases (ihp hp).1
    | starStay hp hij' =>
      obtain ⟨⟨⟩, -⟩ := ihp hp
      exact absurd hij' hij
    | starMore hp _ hs =>
      obtain ⟨⟨⟩, rfl⟩ := ihp hp
      obtain ⟨rfl, rfl⟩ := ihs hs
      exact ⟨rfl, rfl⟩
  | not _ ihp =>
    cases h' with
    | not hp => exact ⟨rfl, (ihp hp).2⟩
    | notAhead hp => cases (ihp hp).1
  | notAhead _ ihp =>
    cases h' with
    | not hp => cases (ihp hp).1
    | notAhead hp => exact ⟨rfl, (ihp hp).2⟩
  | rule _ ihp =>
    cases h' with
    | rule hp =>
      obtain ⟨⟨⟩, rfl⟩ := ihp hp
      exact ⟨rfl, rfl⟩
    | ruleNone hp => cases (ihp hp).1
  | ruleNone _ ihp =>
    cases h' with
    | rule hp => cases (ihp hp).1
    | ruleNone hp => exact ihp hp

/-- A match crosses a piece of the text. -/
theorem across (h : Tries p i e ds) : ∀ j ∈ e, ∃ text, i.Across text j := by
  induction h with
  | empty | starEnd | not =>
    rintro j ⟨⟩
    exact ⟨[], .refl _⟩
  | @char f c cs k _ =>
    rintro j ⟨⟩
    exact ⟨[c], rfl, rfl⟩
  | seq _ _ ihp ihq | starMore _ _ _ ihp ihq =>
    intro k hk
    obtain ⟨text, hij⟩ := ihp _ rfl
    obtain ⟨text', hjk⟩ := ihq k hk
    exact ⟨text ++ text', hij.trans hjk⟩
  | alt _ ihp | starStay _ _ ihp | rule _ ihp => exact ihp
  | altElse _ _ _ ihq => exact ihq
  | fail | charOther | charEnd | seqNone | notAhead | ruleNone => rintro j ⟨⟩

theorem offset_le (h : Tries p i (some j) ds) : i.offset ≤ j.offset := by
  obtain ⟨text, hij⟩ := h.across j rfl
  exact hij.offset_le

/-- What is completed covers a piece of the text. -/
theorem slice?_of_mem {cs : List Char} (h : Tries p i e ds) (hi : i.IsIn cs) :
    ∀ d ∈ ds, ∃ text, slice? cs d.span = some text ∧
      (d.span.isEmpty = false → d.span.start < d.span.stop ∧ text ≠ []) := by
  induction h with
  | empty | fail | char | charOther | charEnd => exact List.forall_mem_nil _
  | seq hp _ ihp ihq | starMore hp _ _ ihp ihq =>
    intro d hd
    obtain ⟨text, hij⟩ := hp.across _ rfl
    rcases List.mem_append.mp hd with hd | hd
    · exact ihp hi d hd
    · exact ihq (hi.across hij) d hd
  | altElse _ _ ihp ihq =>
    intro d hd
    rcases List.mem_append.mp hd with hd | hd
    · exact ihp hi d hd
    · exact ihq hi d hd
  | @rule r p i j ds hp ihp =>
    intro d hd
    rcases List.mem_append.mp hd with hd | hd
    · exact ihp hi d hd
    · obtain rfl := List.mem_singleton.mp hd
      obtain ⟨text, htext⟩ := hp.across j rfl
      refine ⟨text, hi.slice? htext, fun hmoved => ?_⟩
      have hne : text ≠ [] := by
        rintro rfl
        exact beq_eq_false_iff_ne.mp hmoved htext.2.symm
      exact ⟨htext.offset_lt hne, hne⟩
  | seqNone _ ihp | alt _ ihp | starEnd _ ihp | starStay _ _ ihp | not _ ihp | notAhead _ ihp
  | ruleNone _ ihp => exact ihp hi

end Tries

/-! ## What an expression can do -/

/-- A match of the expression cannot be empty. -/
def moves : Peg → Bool
  | .fail | .char _ => true
  | .seq p q => p.moves || q.moves
  | .alt p q => p.moves && q.moves
  | .rule _ p => p.moves
  | .empty | .star _ | .not _ => false

/-- No rule in the expression has an empty match. -/
def rulesMove : Peg → Bool
  | .empty | .fail | .char _ => true
  | .seq p q | .alt p q => p.rulesMove && q.rulesMove
  | .star p | .not p => p.rulesMove
  | .rule _ p => p.moves && p.rulesMove

/-- The expression cannot fail. -/
def isTotal : Peg → Bool
  | .empty | .star _ => true
  | .seq p q => p.isTotal && q.isTotal
  | .alt p q => p.isTotal || q.isTotal
  | .rule _ p => p.isTotal
  | .fail | .char _ | .not _ => false

namespace Tries

variable {p : Peg} {i j : Cursor} {e : Option Cursor} {ds : List Token}

theorem offset_lt_of_moves (h : Tries p i e ds) (hp : p.moves = true) :
    ∀ j ∈ e, i.offset < j.offset := by
  induction h with
  | char =>
    rintro j ⟨⟩
    exact Nat.lt_add_of_pos_right (Char.utf8Size_pos _)
  | seq h₁ h₂ ih₁ ih₂ =>
    rintro k ⟨⟩
    rcases Bool.or_eq_true_iff.mp hp with hp | hp
    · exact Nat.lt_of_lt_of_le (ih₁ hp _ rfl) h₂.offset_le
    · exact Nat.lt_of_le_of_lt h₁.offset_le (ih₂ hp _ rfl)
  | alt _ ih => exact ih (Bool.and_eq_true_iff.mp hp).1
  | altElse _ _ _ ih => exact ih (Bool.and_eq_true_iff.mp hp).2
  | rule _ ih => exact ih hp
  | empty | starEnd | starStay | starMore | not => cases hp
  | fail | charOther | charEnd | seqNone | notAhead | ruleNone => rintro j ⟨⟩

theorem isEmpty_eq_false (h : Tries p i e ds) (hp : p.rulesMove = true) :
    ∀ d ∈ ds, d.span.isEmpty = false := by
  induction h with
  | empty | fail | char | charOther | charEnd => exact List.forall_mem_nil _
  | seq _ _ ih₁ ih₂ | altElse _ _ ih₁ ih₂ =>
    obtain ⟨hp, hq⟩ := Bool.and_eq_true_iff.mp hp
    exact List.forall_mem_append.mpr ⟨ih₁ hp, ih₂ hq⟩
  | starMore _ _ _ ih₁ ih₂ => exact List.forall_mem_append.mpr ⟨ih₁ hp, ih₂ hp⟩
  | seqNone _ ih | alt _ ih => exact ih (Bool.and_eq_true_iff.mp hp).1
  | starEnd _ ih | starStay _ _ ih | not _ ih | notAhead _ ih => exact ih hp
  | rule h ih =>
    obtain ⟨hmoves, hp⟩ := Bool.and_eq_true_iff.mp hp
    refine List.forall_mem_append.mpr ⟨ih hp, ?_⟩
    intro d hd
    obtain rfl := List.mem_singleton.mp hd
    exact beq_eq_false_iff_ne.mpr (Nat.ne_of_lt (h.offset_lt_of_moves hmoves _ rfl))
  | ruleNone _ ih => exact ih (Bool.and_eq_true_iff.mp hp).2

theorem ne_none (h : Tries p i e ds) (hp : p.isTotal = true) : e ≠ none := by
  induction h with
  | seq _ _ _ ih => exact ih (Bool.and_eq_true_iff.mp hp).2
  | seqNone _ ih => exact absurd rfl (ih (Bool.and_eq_true_iff.mp hp).1)
  | altElse _ _ ih₁ ih₂ =>
    rcases Bool.or_eq_true_iff.mp hp with hp | hp
    · exact absurd rfl (ih₁ hp)
    · exact ih₂ hp
  | starMore _ _ _ _ ih => exact ih hp
  | ruleNone _ ih => exact ih hp
  | empty | char | alt | starEnd | starStay | rule => exact Option.some_ne_none _
  | fail | charOther | charEnd | not | notAhead => cases hp

end Tries

/-! ## Where empty matches end -/

/-- The offset is not beyond `b`, or not beyond the end of a match that is not empty. -/
def Reached (b : Nat) (ds : List Token) (k : Nat) : Prop :=
  k ≤ b ∨ ∃ t ∈ ds, t.span.isEmpty = false ∧ k ≤ t.span.stop

/-- No match ends beyond `b` and the matches that are not empty. -/
def Covered (b : Nat) (ds : List Token) : Prop := ∀ d ∈ ds, Reached b ds d.span.stop

section Covered

variable {b b' k k' : Nat} {ds es : List Token}

theorem Reached.of_le (h : Reached b ds k) (hk : k' ≤ k) : Reached b ds k' := by
  rcases h with hb | ⟨t, ht, hmoved, hstop⟩
  · exact .inl (Nat.le_trans hk hb)
  · exact .inr ⟨t, ht, hmoved, Nat.le_trans hk hstop⟩

theorem Reached.append_left (h : Reached b ds k) : Reached b (ds ++ es) k := by
  rcases h with hb | ⟨t, ht, hstop⟩
  · exact .inl hb
  · exact .inr ⟨t, List.mem_append_left es ht, hstop⟩

/-- What is reached from an offset that is reached. -/
theorem Reached.trans (h : Reached b ds k) (h' : Reached k es k') : Reached b (ds ++ es) k' := by
  rcases h' with hk | ⟨t, ht, hstop⟩
  · exact (h.of_le hk).append_left
  · exact .inr ⟨t, List.mem_append_right ds ht, hstop⟩

namespace Covered

theorem chain (h : Covered b ds) (hk : Reached b ds k) (h' : Covered k es) :
    Covered b (ds ++ es) := by
  intro d hd
  rcases List.mem_append.mp hd with hd | hd
  · exact (h d hd).append_left
  · exact hk.trans (h' d hd)

theorem append (h : Covered b ds) (h' : Covered b es) : Covered b (ds ++ es) :=
  h.chain (.inl (Nat.le_refl b)) h'

theorem mono (h : Covered b ds) (hb : b ≤ b') : Covered b' ds := by
  intro d hd
  rcases h d hd with hle | ht
  · exact .inl (Nat.le_trans hle hb)
  · exact .inr ht

theorem of_isEmpty_eq_false (h : ∀ d ∈ ds, d.span.isEmpty = false) : Covered b ds :=
  fun d hd => .inr ⟨d, hd, h d hd, Nat.le_refl _⟩

end Covered

end Covered

/-- All matches are covered if the start is reached, and the end of the expression is then reached
too. -/
def Anchored (p : Peg) : Prop :=
  ∀ ⦃i e ds⦄, Tries p i e ds → Covered i.offset ds ∧ ∀ j ∈ e, Reached i.offset ds j.offset

/-- All matches are covered if the start is reached, and if the expression matches also its end. -/
def Bounded (p : Peg) : Prop := ∀ ⦃i e ds⦄, Tries p i e ds → Covered (e.getD i).offset ds

/-- If the expression fails, all matches are covered. -/
def Clean (p : Peg) : Prop := ∀ ⦃i ds⦄, Tries p i none ds → Covered 0 ds

section Anchored

variable {p q : Peg} {r : Rule}

theorem Anchored.bounded (hp : Anchored p) : Bounded p := by
  intro i e ds h
  cases e with
  | none => exact (hp h).1
  | some j => exact (hp h).1.mono h.offset_le

theorem Bounded.of_rulesMove (hp : p.rulesMove = true) : Bounded p :=
  fun _ _ _ h => .of_isEmpty_eq_false (h.isEmpty_eq_false hp)

/-- What cannot fail may follow anything, since its end covers what came before. -/
theorem Bounded.seq_total (hp : Bounded p) (hq : Bounded q) (htotal : q.isTotal = true) :
    Bounded (.seq p q) := by
  intro i e ds h
  cases h with
  | seqNone h => exact hp h
  | seq h h' =>
    cases e with
    | none => exact absurd rfl (h'.ne_none htotal)
    | some k => exact ((hp h).mono h'.offset_le).append (hq h')

theorem Bounded.seq (hp : Anchored p) (hq : Bounded q) : Bounded (.seq p q) := by
  intro i e ds h
  cases h with
  | seqNone h => exact (hp h).1
  | seq h h' =>
    obtain ⟨hds, hj⟩ := hp h
    cases e with
    | none => exact hds.chain (hj _ rfl) (hq h')
    | some k => exact (hds.mono (Nat.le_trans h.offset_le h'.offset_le)).append (hq h')

/-- The end of a rule is reached by its own match, if this is not empty. -/
theorem Bounded.rule (hp : Bounded p) : Anchored (.rule r p) := by
  intro i e ds h
  cases h with
  | ruleNone h => exact ⟨hp h, by rintro j ⟨⟩⟩
  | @rule _ _ _ j ds h =>
    have hend : Reached i.offset (ds ++ [⟨r, ⟨i.offset, j.offset⟩⟩]) j.offset := by
      by_cases hij : i.offset = j.offset
      · exact .inl (Nat.le_of_eq hij.symm)
      · exact .inr ⟨_, List.mem_append_right ds (List.mem_singleton_self _),
          beq_eq_false_iff_ne.mpr hij, Nat.le_refl _⟩
    refine ⟨?_, by rintro k ⟨⟩; exact hend⟩
    intro d hd
    rcases List.mem_append.mp hd with hd | hd
    · rcases hp h d hd with hle | ⟨t, ht, hstop⟩
      · exact hend.of_le hle
      · exact .inr ⟨t, List.mem_append_left _ ht, hstop⟩
    · obtain rfl := List.mem_singleton.mp hd
      exact hend

namespace Anchored

theorem fail : Anchored .fail := by
  intro i e ds h
  cases h
  exact ⟨List.forall_mem_nil _, by rintro j ⟨⟩⟩

theorem seq (hp : Anchored p) (hq : Anchored q) : Anchored (.seq p q) := by
  intro i e ds h
  cases h with
  | seqNone h => exact ⟨(hp h).1, by rintro j ⟨⟩⟩
  | seq h h' =>
    obtain ⟨hds, hj⟩ := hp h
    obtain ⟨hes, hk⟩ := hq h'
    exact ⟨hds.chain (hj _ rfl) hes, fun k hk' => (hj _ rfl).trans (hk k hk')⟩

theorem alt (hp : Anchored p) (hq : Anchored q) : Anchored (.alt p q) := by
  intro i e ds h
  cases h with
  | alt h => exact hp h
  | altElse h h' =>
    obtain ⟨hds, -⟩ := hp h
    obtain ⟨hes, hj⟩ := hq h'
    exact ⟨hds.append hes, fun j hj' => .trans (.inl (Nat.le_refl _)) (hj j hj')⟩

theorem star (hp : Anchored p) : Anchored (.star p) := by
  intro i e ds h
  generalize hstar : Peg.star p = s at h
  induction h with
  | starEnd h =>
    cases hstar
    exact ⟨(hp h).1, by rintro j ⟨⟩; exact .inl (Nat.le_refl _)⟩
  | starStay h _ =>
    cases hstar
    exact hp h
  | starMore h _ _ _ ih =>
    cases hstar
    obtain ⟨hds, hj⟩ := hp h
    obtain ⟨hes, hk⟩ := ih rfl
    exact ⟨hds.chain (hj _ rfl) hes, fun k hk' => (hj _ rfl).trans (hk k hk')⟩
  | _ => cases hstar

/-- After characters that belong to no rule, the start is not reached. But the match reaches its
end, which is further. -/
theorem seq_moves (hp : p.rulesMove = true) (hclean : Clean q) (hq : Anchored q)
    (hmoves : q.moves = true) : Anchored (.seq p q) := by
  intro i e ds h
  cases h with
  | seqNone h => exact ⟨.of_isEmpty_eq_false (h.isEmpty_eq_false hp), by rintro j ⟨⟩⟩
  | @seq _ _ _ j _ ds es h h' =>
    have hds : Covered i.offset ds := .of_isEmpty_eq_false (h.isEmpty_eq_false hp)
    cases e with
    | none => exact ⟨hds.append ((hclean h').mono (Nat.zero_le _)), by rintro j ⟨⟩⟩
    | some k =>
      obtain ⟨hes, hk⟩ := hq h'
      have hjk : j.offset < k.offset := h'.offset_lt_of_moves hmoves k rfl
      have hend : Reached i.offset es k.offset := by
        rcases hk k rfl with hle | ht
        · exact absurd hjk (Nat.not_lt.mpr hle)
        · exact .inr ht
      have hcovered : Covered i.offset es := by
        intro d hd
        rcases hes d hd with hle | ht
        · exact hend.of_le (Nat.le_trans hle (Nat.le_of_lt hjk))
        · exact .inr ht
      refine ⟨hds.append hcovered, ?_⟩
      rintro l ⟨⟩
      exact .trans (.inl (Nat.le_refl _)) hend

end Anchored

end Anchored

end Peg

/-! ## Empty matches in scripts -/

open Peg

theorem anchored_spacing : Anchored spacing := Bounded.rule (.of_rulesMove rfl)

theorem anchored_identifier : Anchored identifier :=
  Bounded.rule (.seq_total (.of_rulesMove rfl) anchored_spacing.bounded rfl)

/-- A name fails at its first character or not at all. -/
theorem clean_identifier : Clean identifier := by
  intro i ds h
  cases h with
  | ruleNone h =>
    cases h with
    | seqNone h => exact .of_isEmpty_eq_false (h.isEmpty_eq_false rfl)
    | seq _ h => exact absurd rfl (h.ne_none rfl)

theorem anchored_attr : Anchored attr :=
  Bounded.rule (Anchored.seq_moves rfl clean_identifier anchored_identifier rfl).bounded

theorem anchored_atom : Anchored atom := by
  have hliteral : Anchored literal := Bounded.rule (.of_rulesMove rfl)
  have hpath : Anchored identifierAttr :=
    Bounded.rule (anchored_identifier.seq (anchored_attr.seq anchored_attr.star)).bounded
  exact hliteral.alt (hpath.alt anchored_identifier)

theorem anchored_optionList : Anchored optionList := by
  have hkey : Anchored (one '#' ++ one ':' ++ identifier) :=
    .seq_moves rfl clean_identifier anchored_identifier rfl
  have hoption : Anchored option :=
    Bounded.rule ((hkey.seq anchored_atom).seq anchored_spacing).bounded
  exact Bounded.rule (hoption.seq hoption.star).bounded

/-- A parenthesis between spacing. -/
theorem anchored_parenthesis (r : Rule) (c : Char) :
    Anchored (.rule r (spacing ++ one c ++ spacing)) :=
  Bounded.rule (.seq_total (.seq anchored_spacing (.of_rulesMove rfl)) anchored_spacing.bounded rfl)

theorem anchored_expression {operand : Peg} (h : Anchored operand) :
    Anchored (expression operand) := by
  have hoperator : Anchored operator := Bounded.rule anchored_identifier.bounded
  have hoperands := (anchored_optionList.alt h).star
  have hlpar : Anchored lpar := anchored_parenthesis _ _
  have hrpar : Anchored rpar := anchored_parenthesis _ _
  exact Bounded.rule (((hlpar.seq hoperator).seq hoperands).seq hrpar).bounded

theorem anchored_valueOr {call : Peg} (h : Anchored call) : Anchored (valueOr call) :=
  Bounded.rule ((h.alt anchored_atom).seq anchored_spacing).bounded

theorem anchored_value (n : Nat) : Anchored (value n) := by
  induction n with
  | zero => exact anchored_valueOr .fail
  | succ n ih => exact anchored_valueOr (anchored_expression ih)

theorem anchored_script : Anchored script := by
  have heot : Anchored (.rule .eot atEnd) := Bounded.rule (.of_rulesMove rfl)
  exact Bounded.rule ((anchored_spacing.seq (anchored_value maxNesting)).seq heot).bounded

end Grammar

end Fexpr
