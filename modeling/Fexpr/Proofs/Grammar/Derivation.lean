import Fexpr.Proofs.Grammar.Clause
import Fexpr.Text.Slice
import Fexpr.Tree.Basic

/-!
# Derivations

`Derives` says when a clause matches at a place of a text and when it fails there: choice is
ordered, repetition is greedy, and lookahead consumes nothing. It speaks of no log and no state; a
match is justified by the rules that were applied, which are handed out as trees.

The calls that are open are counted along a derivation. An expression may be opened only where
`mayOpen` holds of their number.

A clause has at most one ending at a place (`Derives.unique`), and a match covers a piece of the
text that is empty only if the clause is nullable (`Derives.across`).
-/

namespace Fexpr.Grammar

open Text (byteSize)

/-- A place in a text. -/
structure Cursor where
  /-- The text from here on. -/
  rest : List Char
  /-- The offset of `rest` in the whole text. -/
  offset : Nat

/-- `j` is the place after the characters `cs` that follow `i`. -/
def Cursor.Across (i : Cursor) (cs : List Char) (j : Cursor) : Prop :=
  i.rest = cs ++ j.rest ∧ j.offset = i.offset + byteSize cs

/-- How the match of a clause ends. -/
inductive Ending where
  /-- The clause does not match. -/
  | failure
  /-- The clause matches up to `stop` by the rules that are applied in `trees`. -/
  | success (stop : Cursor) (trees : List Tree)

/-- What holds of a match holds of an ending if it is one. -/
def Ending.Holds (P : Cursor → List Tree → Prop) : Ending → Prop
  | failure => True
  | success stop trees => P stop trees

/-- The number of calls that are open inside the rule `r`, if there are `n` around it. -/
def Rule.opened (r : Rule) (n : Nat) : Nat := if r = .expression then n + 1 else n

/-- How a clause ends at a place where `n` calls are open: a match goes up to the place where the
ending stops, and hands out the rules that were applied, one tree for each that is not inside
another. What is tried and given up, or only looked at, leaves nothing behind. -/
inductive Derives (mayOpen : Nat → Prop) : Nat → Clause → Cursor → Ending → Prop where
  | empty {n i} : Derives mayOpen n .empty i (.success i [])
  | char {n f c cs k} (h : f c = true) :
    Derives mayOpen n (.char f) ⟨c :: cs, k⟩ (.success ⟨cs, k + c.utf8Size⟩ [])
  | charOther {n f c cs k} (h : f c = false) :
    Derives mayOpen n (.char f) ⟨c :: cs, k⟩ .failure
  | charEnd {n f k} : Derives mayOpen n (.char f) ⟨[], k⟩ .failure
  | seq {n p q i j k ts us} (hp : Derives mayOpen n p i (.success j ts))
    (hq : Derives mayOpen n q j (.success k us)) :
    Derives mayOpen n (.seq p q) i (.success k (ts ++ us))
  | seqLeft {n p q i} (hp : Derives mayOpen n p i .failure) :
    Derives mayOpen n (.seq p q) i .failure
  | seqRight {n p q i j ts} (hp : Derives mayOpen n p i (.success j ts))
    (hq : Derives mayOpen n q j .failure) : Derives mayOpen n (.seq p q) i .failure
  | altLeft {n p q i j ts} (hp : Derives mayOpen n p i (.success j ts)) :
    Derives mayOpen n (.alt p q) i (.success j ts)
  | altRight {n p q i e} (hp : Derives mayOpen n p i .failure) (hq : Derives mayOpen n q i e) :
    Derives mayOpen n (.alt p q) i e
  | starEnd {n p i} (hp : Derives mayOpen n p i .failure) :
    Derives mayOpen n (.star p) i (.success i [])
  | starMore {n p i j k ts us} (hp : Derives mayOpen n p i (.success j ts))
    (hs : Derives mayOpen n (.star p) j (.success k us)) :
    Derives mayOpen n (.star p) i (.success k (ts ++ us))
  | plus {n p i j k ts us} (hp : Derives mayOpen n p i (.success j ts))
    (hs : Derives mayOpen n (.star p) j (.success k us)) :
    Derives mayOpen n (.plus p) i (.success k (ts ++ us))
  | plusNone {n p i} (hp : Derives mayOpen n p i .failure) : Derives mayOpen n (.plus p) i .failure
  | opt {n p i j ts} (hp : Derives mayOpen n p i (.success j ts)) :
    Derives mayOpen n (.opt p) i (.success j ts)
  | optNone {n p i} (hp : Derives mayOpen n p i .failure) :
    Derives mayOpen n (.opt p) i (.success i [])
  | not {n p i} (hp : Derives mayOpen n p i .failure) :
    Derives mayOpen n (.not p) i (.success i [])
  | notAhead {n p i j ts} (hp : Derives mayOpen n p i (.success j ts)) :
    Derives mayOpen n (.not p) i .failure
  | rule {n r i j ts} (ho : r = .expression → mayOpen n)
    (hr : Derives mayOpen (r.opened n) (.of r) i (.success j ts)) :
    Derives mayOpen n (.rule r) i (.success j [.node r ⟨i.offset, j.offset⟩ ts])
  | ruleNone {n r i} (ho : r = .expression → mayOpen n)
    (hr : Derives mayOpen (r.opened n) (.of r) i .failure) :
    Derives mayOpen n (.rule r) i .failure
  /-- No further expression may be opened. -/
  | ruleShut {n i} (ho : ¬ mayOpen n) : Derives mayOpen n (.rule .expression) i .failure

namespace Cursor.Across

variable {i j k : Cursor} {cs ds : List Char}

protected theorem refl (i : Cursor) : i.Across [] i := ⟨rfl, rfl⟩

protected theorem trans (h : i.Across cs j) (h' : j.Across ds k) : i.Across (cs ++ ds) k := by
  obtain ⟨h1, h2⟩ := h
  obtain ⟨h1', h2'⟩ := h'
  refine ⟨by rw [h1, h1', List.append_assoc], ?_⟩
  rw [h2', h2, Text.byteSize_append, Nat.add_assoc]

theorem offset_le (h : i.Across cs j) : i.offset ≤ j.offset := by
  rw [h.2]
  exact Nat.le_add_right _ _

theorem offset_lt (h : i.Across cs j) (hcs : cs ≠ []) : i.offset < j.offset := by
  cases cs with
  | nil => exact absurd rfl hcs
  | cons c cs =>
    have hpos := Char.utf8Size_pos c
    rw [h.2, Text.byteSize_cons]
    omega

theorem length_lt (h : i.Across cs j) (hcs : cs ≠ []) : j.rest.length < i.rest.length := by
  have hlen := List.length_pos_iff.mpr hcs
  rw [h.1, List.length_append]
  omega

end Cursor.Across

namespace Derives

variable {mayOpen : Nat → Prop} {n : Nat} {c : Clause} {i : Cursor}

/-- A clause ends in one way only. -/
theorem unique {a b : Ending} (h : Derives mayOpen n c i a) (h' : Derives mayOpen n c i b) :
    a = b := by
  -- The second derivation ends in a step for the same clause. If it is another step than that of
  -- the first one, the two disagree on a part of the clause.
  induction h generalizing b with
  | empty => cases h'; rfl
  | char h =>
    cases h' with
    | char _ => rfl
    | charOther h' => rw [h] at h'; cases h'
  | charOther h =>
    cases h' with
    | char h' => rw [h] at h'; cases h'
    | charOther _ => rfl
  | charEnd => cases h'; rfl
  | seq _ _ ihp ihq =>
    cases h' with
    | seq hp hq => cases ihp hp; cases ihq hq; rfl
    | seqLeft hp => cases ihp hp
    | seqRight hp hq => cases ihp hp; cases ihq hq
  | seqLeft _ ihp =>
    cases h' with
    | seq hp _ => cases ihp hp
    | seqLeft _ => rfl
    | seqRight hp _ => cases ihp hp
  | seqRight _ _ ihp ihq =>
    cases h' with
    | seq hp hq => cases ihp hp; cases ihq hq
    | seqLeft hp => cases ihp hp
    | seqRight _ _ => rfl
  | altLeft _ ihp =>
    cases h' with
    | altLeft hp => exact ihp hp
    | altRight hp _ => cases ihp hp
  | altRight _ _ ihp ihq =>
    cases h' with
    | altLeft hp => cases ihp hp
    | altRight _ hq => exact ihq hq
  | starEnd _ ihp =>
    cases h' with
    | starEnd _ => rfl
    | starMore hp _ => cases ihp hp
  | starMore _ _ ihp ihs =>
    cases h' with
    | starEnd hp => cases ihp hp
    | starMore hp hs => cases ihp hp; cases ihs hs; rfl
  | plus _ _ ihp ihs =>
    cases h' with
    | plus hp hs => cases ihp hp; cases ihs hs; rfl
    | plusNone hp => cases ihp hp
  | plusNone _ ihp =>
    cases h' with
    | plus hp _ => cases ihp hp
    | plusNone _ => rfl
  | opt _ ihp =>
    cases h' with
    | opt hp => exact ihp hp
    | optNone hp => cases ihp hp
  | optNone _ ihp =>
    cases h' with
    | opt hp => cases ihp hp
    | optNone _ => rfl
  | not _ ihp =>
    cases h' with
    | not _ => rfl
    | notAhead hp => cases ihp hp
  | notAhead _ ihp =>
    cases h' with
    | not hp => cases ihp hp
    | notAhead _ => rfl
  | rule ho _ ihr =>
    cases h' with
    | rule _ hr => cases ihr hr; rfl
    | ruleNone _ hr => cases ihr hr
    | ruleShut hs => exact absurd (ho rfl) hs
  | ruleNone _ _ ihr =>
    cases h' with
    | rule _ hr => cases ihr hr
    | ruleNone _ _ => rfl
    | ruleShut _ => rfl
  | ruleShut hs =>
    cases h' with
    | rule ho _ => exact absurd (ho rfl) hs
    | ruleNone _ _ => rfl
    | ruleShut _ => rfl

/-- A match crosses a piece of the text, and the piece is empty only if the clause is nullable. -/
theorem holds_across {e : Ending} (h : Derives mayOpen n c i e) :
    e.Holds fun j _ => ∃ cs, i.Across cs j ∧ (c.nullable = false → cs ≠ []) := by
  induction h with
  | empty => exact ⟨[], .refl _, by simp [Clause.nullable]⟩
  | @char _ _ c _ _ _ => exact ⟨[c], ⟨rfl, rfl⟩, fun _ => List.cons_ne_nil _ _⟩
  | seq _ _ ihp ihq =>
    obtain ⟨cs, hcs, hpos⟩ := ihp
    obtain ⟨ds, hds, hpos'⟩ := ihq
    refine ⟨cs ++ ds, hcs.trans hds, fun hn => ?_⟩
    simp only [Clause.nullable, Bool.and_eq_false_iff] at hn
    rcases hn with hn | hn
    · exact List.append_ne_nil_of_left_ne_nil (hpos hn) ds
    · exact List.append_ne_nil_of_right_ne_nil cs (hpos' hn)
  | altLeft _ ihp =>
    obtain ⟨cs, hcs, hpos⟩ := ihp
    refine ⟨cs, hcs, fun hn => hpos ?_⟩
    simp only [Clause.nullable, Bool.or_eq_false_iff] at hn
    exact hn.1
  | @altRight _ _ _ _ e _ _ _ ihq =>
    cases e with
    | failure => trivial
    | success j ts =>
      obtain ⟨cs, hcs, hpos⟩ := ihq
      refine ⟨cs, hcs, fun hn => hpos ?_⟩
      simp only [Clause.nullable, Bool.or_eq_false_iff] at hn
      exact hn.2
  | starEnd _ _ => exact ⟨[], .refl _, by simp [Clause.nullable]⟩
  | starMore _ _ ihp ihs =>
    obtain ⟨cs, hcs, _⟩ := ihp
    obtain ⟨ds, hds, _⟩ := ihs
    exact ⟨cs ++ ds, hcs.trans hds, by simp [Clause.nullable]⟩
  | plus _ _ ihp ihs =>
    obtain ⟨cs, hcs, hpos⟩ := ihp
    obtain ⟨ds, hds, _⟩ := ihs
    exact ⟨cs ++ ds, hcs.trans hds, fun hn => List.append_ne_nil_of_left_ne_nil (hpos hn) ds⟩
  | opt _ ihp =>
    obtain ⟨cs, hcs, _⟩ := ihp
    exact ⟨cs, hcs, by simp [Clause.nullable]⟩
  | optNone _ _ => exact ⟨[], .refl _, by simp [Clause.nullable]⟩
  | not _ _ => exact ⟨[], .refl _, by simp [Clause.nullable]⟩
  | rule _ _ ihr =>
    obtain ⟨cs, hcs, hpos⟩ := ihr
    refine ⟨cs, hcs, fun hn => hpos (Bool.eq_false_iff.mpr fun hc => ?_)⟩
    rw [Clause.nullable_rule_of_nullable hc] at hn
    cases hn
  -- The other steps derive failure.
  | _ => trivial

theorem across {j : Cursor} {ts : List Tree} (h : Derives mayOpen n c i (.success j ts)) :
    ∃ cs, i.Across cs j := by
  obtain ⟨cs, hcs, _⟩ := h.holds_across
  exact ⟨cs, hcs⟩

theorem across_ne_nil {j : Cursor} {ts : List Tree} (h : Derives mayOpen n c i (.success j ts))
    (hc : c.nullable = false) : ∃ cs, i.Across cs j ∧ cs ≠ [] := by
  obtain ⟨cs, hcs, hpos⟩ := h.holds_across
  exact ⟨cs, hcs, hpos hc⟩

/-- What holds of matching nothing and of matching a character, passes on to two matches in a row,
and passes on from what a rule stands for to the rule, holds of all matches. -/
theorem holds_of_closed {M : Cursor → List Tree → Cursor → Prop} (hnil : ∀ i, M i [] i)
    (hchar : ∀ i c j, i.Across [c] j → M i [] j)
    (happend : ∀ {i j k ts us}, M i ts j → M j us k → M i (ts ++ us) k)
    (hrule : ∀ {n r i j ts}, Derives mayOpen n (.of r) i (.success j ts) → M i ts j →
      M i [.node r ⟨i.offset, j.offset⟩ ts] j)
    {e : Ending} (h : Derives mayOpen n c i e) : e.Holds fun j ts => M i ts j := by
  induction h with
  | empty => exact hnil _
  | @char _ _ c _ _ _ => exact hchar _ c _ ⟨rfl, rfl⟩
  | seq _ _ ihp ihq => exact happend ihp ihq
  | altLeft _ ihp => exact ihp
  | altRight _ _ _ ihq => exact ihq
  | starEnd _ _ => exact hnil _
  | starMore _ _ ihp ihs => exact happend ihp ihs
  | plus _ _ ihp ihs => exact happend ihp ihs
  | opt _ ihp => exact ihp
  | optNone _ _ => exact hnil _
  | not _ _ => exact hnil _
  | rule _ hr ihr => exact hrule hr ihr
  | _ => trivial

end Derives

end Fexpr.Grammar
