import Fexpr.Proofs.Grammar.Lexical

/-!
# Quoted texts

A match of a `Closed` clause does not depend on what follows it. Strings are closed, since they end
with a quote and have no other one inside, and so are long strings. So the two differ only where
both could start: a short string without characters, followed by a quote, is one only if no long
string starts there (`longStringLiteral_fails`).
-/

namespace Fexpr.Grammar

/-! ## Closed clauses -/

/-- A match of the clause does not depend on what follows it. -/
structure Closed (c : Clause) : Prop where
  change : ∀ {mayOpen n x y k l ts}, Derives mayOpen n c ⟨x ++ y, k⟩ (.success ⟨y, l⟩ ts) →
    ∀ y', Derives mayOpen n c ⟨x ++ y', k⟩ (.success ⟨y', l⟩ ts)

/-- The first part of a match in two parts stops before the text of the second one. -/
theorem Derives.stop_eq {mayOpen : Nat → Prop} {n k l : Nat} {p q : Clause} {x y : List Char}
    {j : Cursor} {ts us : List Tree} (hp : Derives mayOpen n p ⟨x ++ y, k⟩ (.success j ts))
    (hq : Derives mayOpen n q j (.success ⟨y, l⟩ us)) :
    ∃ a b, x = a ++ b ∧ j = ⟨b ++ y, j.offset⟩ := by
  obtain ⟨a, ha⟩ := hp.across
  obtain ⟨b, hb⟩ := hq.across
  have hj : j.rest = b ++ y := hb.1
  have htext : x ++ y = a ++ (b ++ y) := hj ▸ ha.1
  rw [← List.append_assoc] at htext
  exact ⟨a, b, List.append_cancel_right htext, by rw [← hj]⟩

namespace Closed

variable {p q : Clause} {f : Char → Bool} {r : Rule}

theorem empty : Closed .empty := by
  constructor
  intro mayOpen n x y k l ts h y'
  generalize hi : (⟨x ++ y, k⟩ : Cursor) = i at h
  generalize hj : (⟨y, l⟩ : Cursor) = j at h
  cases h
  rw [← hj] at hi
  simp only [Cursor.mk.injEq, List.append_left_eq_self] at hi
  obtain ⟨rfl, rfl⟩ := hi
  exact .empty

theorem of_readsOne (hp : ReadsOne p f) : Closed p := by
  constructor
  intro mayOpen n x y k l ts h y'
  obtain ⟨c, ⟨hrest, hoff⟩, hc, rfl⟩ := hp.of_derives h
  obtain rfl : x = [c] := List.append_cancel_right hrest
  exact hp.reads (i := ⟨[c] ++ y', k⟩) (j := ⟨y', l⟩) ⟨rfl, hoff⟩ hc mayOpen n

theorem char : Closed (.char f) := of_readsOne (.char f)

theorem seq (hp : Closed p) (hq : Closed q) : Closed (.seq p q) := by
  constructor
  intro mayOpen n x y k l ts h y'
  cases h with
  | seq hp₁ hq₁ =>
    obtain ⟨a, b, rfl, hj⟩ := hp₁.stop_eq hq₁
    rw [hj] at hp₁ hq₁
    rw [List.append_assoc] at hp₁ ⊢
    exact .seq (hp.change hp₁ _) (hq.change hq₁ _)

/-- Of two closed clauses, if the first one fails wherever the second one matches. -/
theorem alt (hp : Closed p) (hq : Closed q)
    (hpq : ∀ {mayOpen n i j ts}, Derives mayOpen n q i (.success j ts) →
      Derives mayOpen n p i .failure) : Closed (.alt p q) := by
  constructor
  intro mayOpen n x y k l ts h y'
  cases h with
  | altLeft hp₁ => exact .altLeft (hp.change hp₁ _)
  | altRight _ hq₁ => exact .altRight (hpq (hq.change hq₁ _)) (hq.change hq₁ _)

theorem rule (h : Closed (.of r)) : Closed (.rule r) := by
  constructor
  intro mayOpen n x y k l ts hd y'
  cases hd with
  | rule ho hr => exact .rule ho (h.change hr y')

theorem exactly (cs : List Char) : Closed (.exactly cs) := by
  induction cs with
  | nil => exact .empty
  | cons c cs ih => exact .seq .char ih

theorem times (k : Nat) (hp : Closed p) : Closed (.times k p) := by
  induction k with
  | zero => exact .empty
  | succ k ih => exact .seq hp ih

/-- A repetition that stops before the character `c`, whatever follows it. -/
theorem change_star (hp : Closed p) {c : Char} (hc : ∀ cs, Fails p (c :: cs))
    {mayOpen : Nat → Prop} {n k l : Nat} {x y y' : List Char} {ts : List Tree}
    (h : Derives mayOpen n (.star p) ⟨x ++ c :: y, k⟩ (.success ⟨c :: y, l⟩ ts)) :
    Derives mayOpen n (.star p) ⟨x ++ c :: y', k⟩ (.success ⟨c :: y', l⟩ ts) := by
  refine Derives.star_induction (P := fun i j us => ∀ x k, i = ⟨x ++ c :: y, k⟩ →
    j = ⟨c :: y, l⟩ →
    Derives mayOpen n (.star p) ⟨x ++ c :: y', k⟩ (.success ⟨c :: y', l⟩ us)) ?_ ?_ h x k rfl rfl
  · rintro _ - x k rfl hi
    simp only [Cursor.mk.injEq, List.append_left_eq_self] at hi
    obtain ⟨rfl, rfl⟩ := hi
    exact .starEnd (hc y' mayOpen n k)
  · rintro _ m _ ts us hp₁ hs ih x k rfl rfl
    obtain ⟨a, b, rfl, hm⟩ := hp₁.stop_eq hs
    rw [hm, List.append_assoc] at hp₁
    rw [List.append_assoc]
    exact .starMore (hp.change hp₁ _) (ih b m.offset hm rfl)

/-- A repetition between two closed clauses, if it stops before the character that the second one
starts with. -/
theorem around_star {o : Clause} (ho : Closed o) (hp : Closed p) (hq : Closed q) {c : Char}
    (hc : ∀ cs, Fails p (c :: cs))
    (hstart : ∀ {mayOpen n i j ts}, Derives mayOpen n q i (.success j ts) →
      i.rest.head? = some c) : Closed (.seq (.seq o (.star p)) q) := by
  constructor
  intro mayOpen n x y k l ts h y'
  cases h with
  | seq hop hq₁ =>
    obtain ⟨a, b, rfl, hj⟩ := hop.stop_eq hq₁
    rw [hj] at hop hq₁
    have hq' := hq.change hq₁ y'
    -- The second clause starts with `c`, which is in its own text.
    obtain ⟨_, hb⟩ := List.head?_eq_some_iff.mp (hstart (hq.change hq₁ []))
    simp only [List.append_nil] at hb
    subst hb
    rw [List.append_assoc] at hop ⊢
    cases hop with
    | seq ho₁ hs =>
      obtain ⟨a₁, a₂, rfl, hm⟩ := ho₁.stop_eq hs
      rw [hm] at ho₁ hs
      rw [List.append_assoc] at ho₁ ⊢
      exact .seq (.seq (ho.change ho₁ _) (hp.change_star hc hs)) hq'

end Closed

/-! ## The pieces of a string -/

/-- A piece of a string. -/
def Clause.piece : Clause :=
  rule .uChar <|> rule .escape <|> rule .hexByte <|> .not (oneOf ['\\', '\n', '"']) ++ any

section Piece

variable {mayOpen : Nat → Prop} {n : Nat} {i j : Cursor} {ts : List Tree}

theorem backslash_fails {q : Clause} {c : Char} (hc : c ≠ '\\') (cs : List Char) :
    Fails (.one '\\' ++ q) (c :: cs) := .seq (.char (beq_eq_false_iff_ne.mpr hc))

theorem mark_fails {f : Char → Bool} {c : Char} (hc : f c = false) (cs : List Char) :
    Fails (.one '\\' ++ .char f) ('\\' :: c :: cs) :=
  fun _ _ _ => .seqRight (.char rfl) (.charOther hc)

/-- A backslash and a mark of the class `f`. -/
theorem exists_mark {f : Char → Bool}
    (h : Derives mayOpen n (.one '\\' ++ .char f) i (.success j ts)) :
    ∃ c cs, i.rest = '\\' :: c :: cs ∧ f c = true := by
  cases h with
  | seq hb hc =>
    obtain ⟨b, hb, hb', -⟩ := hb.of_char
    obtain ⟨c, hc, hc', -⟩ := hc.of_char
    obtain rfl : b = '\\' := beq_iff_eq.mp hb'
    exact ⟨c, j.rest, by rw [hb.1, hc.1]; rfl, hc'⟩

theorem uChar_fails {c : Char} (hc : c ≠ '\\') (cs : List Char) :
    Fails (.rule .uChar) (c :: cs) :=
  .rule (.alt (.seq (backslash_fails hc cs)) (.seq (backslash_fails hc cs)))

theorem uChar_fails_mark {c : Char} (hu : c ≠ 'u') (hU : c ≠ 'U') (cs : List Char) :
    Fails (.rule .uChar) ('\\' :: c :: cs) :=
  .rule (.alt (.seq (mark_fails (f := (· == 'u')) (beq_eq_false_iff_ne.mpr hu) cs))
    (.seq (mark_fails (f := (· == 'U')) (beq_eq_false_iff_ne.mpr hU) cs)))

theorem escape_fails {c : Char} (hc : c ≠ '\\') (cs : List Char) :
    Fails (.rule .escape) (c :: cs) := .rule (backslash_fails hc cs)

theorem hexByte_fails {c : Char} (hc : c ≠ '\\') (cs : List Char) :
    Fails (.rule .hexByte) (c :: cs) := .rule (.seq (backslash_fails hc cs))

/-- What a piece that is not escaped starts with. -/
theorem exists_plain
    (h : Derives mayOpen n (.not (.oneOf ['\\', '\n', '"']) ++ .any) i (.success j ts)) :
    ∃ c cs, i.rest = c :: cs ∧ c ≠ '\\' := by
  obtain ⟨c, hc, hnot, -⟩ := (ReadsOne.butNot _).of_derives h
  refine ⟨c, j.rest, hc.1, ?_⟩
  rintro rfl
  cases hnot

theorem exists_hexByte (h : Derives mayOpen n (.rule .hexByte) i (.success j ts)) :
    ∃ cs, i.rest = '\\' :: 'x' :: cs := by
  cases h with
  | rule _ hr =>
  cases hr with
  | seq hmark _ =>
    obtain ⟨c, cs, hrest, hc⟩ := exists_mark hmark
    obtain rfl : c = 'x' := beq_iff_eq.mp hc
    exact ⟨cs, hrest⟩

theorem closed_uChar : Closed (.rule .uChar) := by
  refine .rule (.alt (.seq (.seq .char .char) (.times 4 .char))
    (.seq (.seq .char .char) (.times 8 .char)) ?_)
  intro mayOpen n i j ts h
  cases h with
  | seq hmark _ =>
    obtain ⟨c, cs, hrest, hc⟩ := exists_mark hmark
    obtain rfl : c = 'U' := beq_iff_eq.mp hc
    have hfail : Fails (.one '\\' ++ .one 'u' ++ .times 4 (.char isHexDigit)) i.rest := by
      rw [hrest]
      exact .seq (mark_fails rfl cs)
    exact hfail mayOpen n i.offset

theorem closed_piece : Closed .piece := by
  have hplain : Closed (.not (.oneOf ['\\', '\n', '"']) ++ .any) := .of_readsOne (.butNot _)
  -- A choice is closed if whatever a later piece matches is nothing that an earlier one can match.
  refine .alt closed_uChar (.alt (.rule (.seq .char .char)) (.alt
    (.rule (.seq (.seq .char .char) (.times 2 .char))) hplain ?_) ?_) ?_
  · intro mayOpen n i j ts h
    obtain ⟨c, cs, hrest, hc⟩ := exists_plain h
    exact (hrest ▸ hexByte_fails hc cs : Fails _ i.rest) mayOpen n i.offset
  · intro mayOpen n i j ts h
    have hfail : Fails (.rule .escape) i.rest := by
      cases h with
      | altLeft hbyte =>
        obtain ⟨cs, hrest⟩ := exists_hexByte hbyte
        rw [hrest]
        exact .rule (mark_fails (by decide) cs)
      | altRight _ hplain =>
        obtain ⟨c, cs, hrest, hc⟩ := exists_plain hplain
        exact hrest ▸ escape_fails hc cs
    exact hfail mayOpen n i.offset
  · intro mayOpen n i j ts h
    have hfail : Fails (.rule .uChar) i.rest := by
      cases h with
      | altLeft hescape =>
        cases hescape with
        | rule _ hr =>
          obtain ⟨c, cs, hrest, hc⟩ := exists_mark hr
          rw [hrest]
          refine uChar_fails_mark ?_ ?_ cs
          · rintro rfl
            revert hc
            decide
          · rintro rfl
            revert hc
            decide
      | altRight _ hmore =>
        cases hmore with
        | altLeft hbyte =>
          obtain ⟨cs, hrest⟩ := exists_hexByte hbyte
          rw [hrest]
          exact uChar_fails_mark (by decide) (by decide) cs
        | altRight _ hplain =>
          obtain ⟨c, cs, hrest, hc⟩ := exists_plain hplain
          exact hrest ▸ uChar_fails hc cs
    exact hfail mayOpen n i.offset

/-- A quote is no piece of a string. -/
theorem piece_fails_quote (cs : List Char) : Fails .piece ('"' :: cs) :=
  .alt (uChar_fails (by decide) cs) (.alt (escape_fails (by decide) cs)
    (.alt (hexByte_fails (by decide) cs) ((ReadsOne.butNot _).fails fun c hc => by cases hc; rfl)))

end Piece

/-! ## Strings -/

section Strings

variable {mayOpen : Nat → Prop} {n : Nat} {i j : Cursor} {ts : List Tree}

theorem closed_stringLiteral : Closed (.rule .stringLiteral) := by
  refine .rule (.around_star .char closed_piece .char piece_fails_quote ?_)
  intro mayOpen n i j ts h
  obtain ⟨c, hc, hquote, -⟩ := h.of_char
  obtain rfl : c = '"' := beq_iff_eq.mp hquote
  rw [hc.1]
  rfl

theorem closed_longStringLiteral : Closed (.rule .longStringLiteral) := by
  refine .rule (.around_star (.exactly _) (.of_readsOne (.butNot _)) (.exactly _) (c := '"')
    (fun cs => (ReadsOne.butNot _).fails fun c hc => by cases hc; rfl) ?_)
  intro mayOpen n i j ts h
  obtain ⟨hij, -⟩ := h.of_exactly
  rw [hij.1]
  rfl

/-- A string stands between quotes, and if it has characters, the first one is no quote. -/
theorem exists_of_stringLiteral (h : Derives mayOpen n (.rule .stringLiteral) i (.success j ts)) :
    ∃ a, i.Across ('"' :: (a ++ ['"'])) j ∧ a.head? ≠ some '"' := by
  cases h with
  | rule _ hr =>
  cases hr with
  | seq hopen hclose =>
  cases hopen with
  | seq hopen hpieces =>
    obtain ⟨c, hc, hquote, -⟩ := hopen.of_char
    obtain rfl : c = '"' := beq_iff_eq.mp hquote
    obtain ⟨d, hd, hquote', -⟩ := hclose.of_char
    obtain rfl : d = '"' := beq_iff_eq.mp hquote'
    obtain ⟨a, ha⟩ := hpieces.across
    refine ⟨a, hc.trans (ha.trans hd), fun hhead => ?_⟩
    obtain ⟨b, rfl⟩ := List.head?_eq_some_iff.mp hhead
    -- A repetition that goes over a quote starts with a piece that is one.
    cases hpieces with
    | starEnd _ =>
      have hlen := congrArg List.length ha.1
      simp only [List.length_append, List.length_cons] at hlen
      omega
    | starMore hpiece _ =>
      refine Fails.elim (p := .piece) ?_ hpiece
      rw [ha.1]
      exact piece_fails_quote _

theorem exists_of_longStringLiteral
    (h : Derives mayOpen n (.rule .longStringLiteral) i (.success j ts)) :
    ∃ a, i.Across ('"' :: (a ++ ['"'])) j := by
  cases h with
  | rule _ hr =>
  cases hr with
  | seq hopen hclose =>
  cases hopen with
  | seq hopen hbody =>
    obtain ⟨hopen, -⟩ := hopen.of_exactly
    obtain ⟨hclose, -⟩ := hclose.of_exactly
    obtain ⟨a, ha⟩ := hbody.across
    refine ⟨'"' :: '"' :: (a ++ ['"', '"']), ?_⟩
    have hall := hopen.trans (ha.trans hclose)
    simpa using hall

/-! ## Short strings in front of quotes -/

theorem longStringLiteral_fails {cs : List Char} (h : ¬ ['"', '"', '"'] <+: cs) :
    Fails (.rule .longStringLiteral) cs := .rule (.seq (.seq (.exactly h)))

/-- With a quote after three quotes, it is decided by the next two characters whether a long string
starts there. -/
theorem longStringLiteral_fails_iff {k : Nat} {a cs : List Char} (ha : '"' ∉ a) :
    Derives mayOpen n (.rule .longStringLiteral) ⟨'"' :: '"' :: '"' :: (a ++ '"' :: cs), k⟩ .failure ↔
      ¬ ['"', '"'] <+: cs := by
  have hopen : (⟨'"' :: '"' :: '"' :: (a ++ '"' :: cs), k⟩ : Cursor).Across ['"', '"', '"']
      ⟨a ++ '"' :: cs, k + Text.byteSize ['"', '"', '"']⟩ := ⟨rfl, rfl⟩
  have hbody : (⟨a ++ '"' :: cs, k + Text.byteSize ['"', '"', '"']⟩ : Cursor).Across a
      ⟨'"' :: cs, k + Text.byteSize ['"', '"', '"'] + Text.byteSize a⟩ := ⟨rfl, rfl⟩
  have hread := (ReadsOne.butNot (· == '"')).star hbody
    (fun c hc => by simpa using fun hquote : c = '"' => ha (hquote ▸ hc))
    (fun c hc => by cases hc; rfl)
  have hstart : ∀ m n, Derives m n (.exactly ['"', '"', '"'] ++ .star (.not (.one '"') ++ .any))
      ⟨'"' :: '"' :: '"' :: (a ++ '"' :: cs), k⟩ (.success _ []) :=
    fun m n => .seq (Lexes.exactly hopen m n) (hread m n)
  constructor
  · rintro hfail ⟨ds, rfl⟩
    have hclose : ∀ {l}, (⟨'"' :: (['"', '"'] ++ ds), l⟩ : Cursor).Across ['"', '"', '"']
        ⟨ds, l + Text.byteSize ['"', '"', '"']⟩ := ⟨rfl, rfl⟩
    have hok : Derives mayOpen n (.rule .longStringLiteral)
        ⟨'"' :: '"' :: '"' :: (a ++ '"' :: (['"', '"'] ++ ds)), k⟩ (.success _ _) :=
      .rule (fun h => nomatch h) (.seq (hstart _ _) (Lexes.exactly hclose _ _))
    cases hfail.unique hok
  · intro hcs
    have hclose : ¬ ['"', '"', '"'] <+: '"' :: cs :=
      fun hpre => hcs ((List.prefix_cons_inj '"').mp hpre)
    exact .ruleNone (fun h => nomatch h) (.seqRight (hstart _ _)
      (Fails.exactly hclose _ _ _))

end Strings

end Fexpr.Grammar
