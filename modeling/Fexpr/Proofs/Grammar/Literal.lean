import Fexpr.Form.OfTree
import Fexpr.Proofs.Grammar.Lexeme
import Fexpr.Proofs.Grammar.Numeral
import Fexpr.Proofs.Grammar.Quoted

/-!
# Literals

Which literal stands at a place is decided by ordered choice, and its end by what follows it. A
literal that its own rule matches in full is the literal of any text in which it is closed
(`literal_of_kind`), and a literal stays what it is if the text after it is changed behind a gap or
a parenthesis (`literal_change`). The one case where more than the next character matters is an
empty string in front of a quote.
-/

namespace Fexpr

open Text (isBlank Tight)
open Form (LiteralKind)

/-- The rule of the literals of a kind. -/
def Form.LiteralKind.rule : LiteralKind → Grammar.Rule
  | nil => .nilLiteral
  | bool => .boolLiteral
  | integer => .integerLiteral
  | float => .floatLiteral
  | string => .stringLiteral
  | longString => .longStringLiteral

theorem Form.literalKind?_rule (kind : LiteralKind) :
    Form.literalKind? kind.rule = some kind := by
  cases kind <;> rfl

namespace Grammar

/-! ## How literals start -/

/-- The characters that numbers start with. -/
def startsNumber (c : Char) : Bool := c.isDigit || ['+', '-', '.'].contains c

/-- The characters that literals start with. -/
def startsLiteral (c : Char) : Bool := startsNumber c || ['"', '#', 'n'].contains c

section Starts

variable {cs : List Char}

theorem floatLiteral_fails (h : ∀ c ∈ cs.head?, startsNumber c = false) :
    Fails (.rule .floatLiteral) cs := by
  have hclass : ∀ {f : Char → Bool}, (∀ c, startsNumber c = false → f c = false) →
      Fails (.char f) cs := fun hf => (ReadsOne.char _).fails fun c hc => hf c (h c hc)
  have hdigit : Fails .digits cs := .seq (hclass fun c hc => (Bool.or_eq_false_iff.mp hc).1)
  have hsign : Fails .sign cs := hclass fun c hc => by
    simp only [startsNumber, Bool.or_eq_false_iff] at hc
    simp_all
  have hpoint : Fails (.one '.') cs := hclass fun c hc => by
    simp only [startsNumber, Bool.or_eq_false_iff] at hc
    simp_all
  exact .rule (.seqSkip (.opt hsign)
    (.alt (.seq (.seq (.seq hdigit))) (.alt (.seq hdigit) (.seq (.seq hpoint)))))

theorem integerLiteral_fails (h : ∀ c ∈ cs.head?, startsNumber c = false) :
    Fails (.rule .integerLiteral) cs := by
  have hclass : ∀ {f : Char → Bool}, (∀ c, startsNumber c = false → f c = false) →
      Fails (.char f) cs := fun hf => (ReadsOne.char _).fails fun c hc => hf c (h c hc)
  have hsign : Fails .sign cs := hclass fun c hc => by
    simp only [startsNumber, Bool.or_eq_false_iff] at hc
    simp_all
  have hzero : Fails (.one '0') cs := hclass fun c hc => by
    refine beq_eq_false_iff_ne.mpr ?_
    rintro rfl
    cases hc
  have hdecimal : Fails (.rule .decimalNumeral) cs := by
    refine .rule (.alt (.seq (hclass fun c hc => ?_)) hzero)
    refine Bool.eq_false_iff.mpr fun hdigit => ?_
    rw [startsNumber, isDigit_of_nonzero hdigit] at hc
    cases hc
  exact .rule (.seq (.seqSkip (.opt hsign) (.alt (.seq (.seq hzero)) hdecimal)))

theorem boolLiteral_fails (h : cs.head? ≠ some '#') : Fails (.rule .boolLiteral) cs := by
  have hpre : ∀ d, ¬ ['#', d] <+: cs := by
    rintro d ⟨ds, rfl⟩
    exact h rfl
  exact .rule (.seq (.alt (.exactly (hpre 'f')) (.exactly (hpre 't'))))

theorem stringLiteral_fails (h : cs.head? ≠ some '"') : Fails (.rule .stringLiteral) cs := by
  refine .rule (.seq (.seq ((ReadsOne.char _).fails fun c hc => beq_eq_false_iff_ne.mpr ?_)))
  rintro rfl
  exact h hc

theorem longStringLiteral_fails_head (h : cs.head? ≠ some '"') :
    Fails (.rule .longStringLiteral) cs := by
  refine longStringLiteral_fails ?_
  rintro ⟨ds, rfl⟩
  exact h rfl

theorem nilLiteral_fails (h : ¬ ['n', 'i', 'l'] <+: cs) : Fails (.rule .nilLiteral) cs :=
  .rule (.seq (.exactly h))

theorem literal_fails (h : ∀ c ∈ cs.head?, startsLiteral c = false) :
    Fails (.rule .literal) cs := by
  have hnumber : ∀ c ∈ cs.head?, startsNumber c = false :=
    fun c hc => (Bool.or_eq_false_iff.mp (h c hc)).1
  have hother : ∀ d ∈ ['"', '#', 'n'], cs.head? ≠ some d := by
    intro d hd hhead
    have hfalse := (Bool.or_eq_false_iff.mp (h d hhead)).2
    rw [List.contains_iff_mem.mpr hd] at hfalse
    cases hfalse
  have hnil : ¬ ['n', 'i', 'l'] <+: cs := by
    rintro ⟨ds, rfl⟩
    exact hother 'n' (by simp) rfl
  exact .rule (.alt (floatLiteral_fails hnumber)
    (.alt (longStringLiteral_fails_head (hother '"' (by simp)))
      (.alt (boolLiteral_fails (hother '#' (by simp)))
        (.alt (stringLiteral_fails (hother '"' (by simp)))
          (.alt (nilLiteral_fails hnil) (integerLiteral_fails hnumber))))))

end Starts

/-! ## The words among the literals -/

section Words

variable {mayOpen : Nat → Prop} {n : Nat} {i j : Cursor} {ts : List Tree}

theorem nilLiteral_iff :
    Derives mayOpen n (.rule .nilLiteral) i (.success j ts) ↔
      i.Across ['n', 'i', 'l'] j ∧ (∀ c ∈ j.rest.head?, isNameChar c = false) ∧
        ts = [.node .nilLiteral ⟨i.offset, j.offset⟩ []] := by
  constructor
  · intro h
    cases h with
    | rule _ hr =>
    cases hr with
    | seq hword hnot =>
      obtain ⟨hij, rfl⟩ := hword.of_exactly
      obtain ⟨rfl, hstop, rfl⟩ := readsOne_nameChar.of_not hnot
      exact ⟨hij, hstop, rfl⟩
  · rintro ⟨hij, hstop, rfl⟩
    exact .rule (fun h => nomatch h) (.seq (Lexes.exactly hij _ _) (readsOne_nameChar.not hstop _ _))

theorem boolLiteral_iff :
    Derives mayOpen n (.rule .boolLiteral) i (.success j ts) ↔
      (i.Across ['#', 'f'] j ∨ i.Across ['#', 't'] j) ∧
        (∀ c ∈ j.rest.head?, isWordChar c = false) ∧
        ts = [.node .boolLiteral ⟨i.offset, j.offset⟩ []] := by
  have hone : ReadsOne (.char isWordChar) isWordChar := .char isWordChar
  constructor
  · intro h
    cases h with
    | rule _ hr =>
    cases hr with
    | seq hword hnot =>
      obtain ⟨rfl, hstop, rfl⟩ := hone.of_not hnot
      cases hword with
      | altLeft hword =>
        obtain ⟨hij, rfl⟩ := hword.of_exactly
        exact ⟨.inl hij, hstop, rfl⟩
      | altRight _ hword =>
        obtain ⟨hij, rfl⟩ := hword.of_exactly
        exact ⟨.inr hij, hstop, rfl⟩
  · rintro ⟨hij | hij, hstop, rfl⟩
    · exact .rule (fun h => nomatch h)
        (.seq (.altLeft (Lexes.exactly hij _ _)) (hone.not hstop _ _))
    · have hfail : Fails (.exactly ['#', 'f']) i.rest := by
        rw [hij.1]
        refine .exactly ?_
        rintro ⟨ds, hds⟩
        simp at hds
      exact .rule (fun h => nomatch h)
        (.seq (.altRight (hfail _ _ i.offset) (Lexes.exactly hij _ _)) (hone.not hstop _ _))

end Words

/-! ## What follows a literal -/

theorem isSolid_eq_false_of_startsGap {c : Char} (hc : startsGap c = true) : isSolid c = false := by
  simp only [startsGap, isGapBlank, List.contains_eq_mem, List.mem_cons, List.not_mem_nil, or_false,
    Bool.or_eq_true, decide_eq_true_eq, beq_iff_eq] at hc
  rcases hc with (rfl | rfl | rfl | rfl) | rfl <;> rfl

theorem toNat_of_isAlpha {c : Char} (hc : c.isAlpha = true) :
    (65 ≤ c.toNat ∧ c.toNat ≤ 90) ∨ (97 ≤ c.toNat ∧ c.toNat ≤ 122) := by
  rcases Bool.or_eq_true_iff.mp hc with hupper | hlower
  · obtain ⟨hmin, hmax⟩ := of_decide_eq_true hupper
    exact .inl ⟨UInt32.le_iff_toNat_le.mp hmin, UInt32.le_iff_toNat_le.mp hmax⟩
  · obtain ⟨hmin, hmax⟩ := Bool.and_eq_true_iff.mp hlower
    exact .inr ⟨UInt32.le_iff_toNat_le.mp (of_decide_eq_true hmin),
      UInt32.le_iff_toNat_le.mp (of_decide_eq_true hmax)⟩

theorem solid_isAlpha : Solid Char.isAlpha := by
  intro c hc
  have hrange := toNat_of_isAlpha hc
  exact isSolid_of_toNat (by omega) (by omega) (by omega)

theorem solid_isAlphanum : Solid Char.isAlphanum := by
  intro c hc
  rcases Bool.or_eq_true_iff.mp hc with hc | hc
  · exact solid_isAlpha c hc
  · exact solid_isDigit c hc

theorem solid_isWordChar : Solid isWordChar := by
  intro c hc
  rcases Bool.or_eq_true_iff.mp hc with hc | hc
  · exact solid_isAlphanum c hc
  · exact Solid.eq (by decide) c hc

theorem solid_isNameChar : Solid isNameChar := by
  intro c hc
  rcases Bool.or_eq_true_iff.mp hc with hc | hc
  · exact solid_isWordChar c hc
  · exact Solid.eq (by decide) c hc

theorem solid_isNameStart : Solid isNameStart := by
  intro c hc
  simp only [isNameStart, Bool.or_eq_true, beq_iff_eq] at hc
  rcases hc with ((hc | rfl) | rfl) | rfl
  · exact solid_isAlpha c hc
  · rfl
  · rfl
  · rfl

theorem solid_of_isWord {w : List Char} (h : isWord w = true) : ∀ c ∈ w, isSolid c = true := by
  cases w with
  | nil => cases h
  | cons d ds =>
    obtain ⟨hd, hds⟩ := Bool.and_eq_true_iff.mp h
    intro c hc
    rcases List.mem_cons.mp hc with rfl | hc
    · exact solid_isNameStart c hd
    · exact solid_isNameChar c (List.all_eq_true.mp hds c hc)

section Closing

variable {mayOpen : Nat → Prop} {n k l : Nat} {x y y' z : List Char} {ts : List Tree}

/-- A quote that opens a text cannot open a number, a truth value or a word. -/
theorem literal_of_stringLiteral
    (hlong : Derives mayOpen n (.rule .longStringLiteral) ⟨'"' :: x, k⟩ .failure)
    (h : Derives mayOpen n (.rule .stringLiteral) ⟨'"' :: x, k⟩ (.success ⟨y, l⟩ ts)) :
    Derives mayOpen n (.rule .literal) ⟨'"' :: x, k⟩
      (.success ⟨y, l⟩ [.node .literal ⟨k, l⟩ ts]) := by
  have hnumber : Fails (.rule .floatLiteral) ('"' :: x) :=
    floatLiteral_fails fun c hc => by cases hc; rfl
  have hbool : Fails (.rule .boolLiteral) ('"' :: x) := boolLiteral_fails (by simp)
  exact .rule (fun h => nomatch h) (.altRight (hnumber _ _ k)
    (.altRight hlong (.altRight (hbool _ _ k) (.altLeft h))))

theorem literal_of_longStringLiteral
    (h : Derives mayOpen n (.rule .longStringLiteral) ⟨'"' :: x, k⟩ (.success ⟨y, l⟩ ts)) :
    Derives mayOpen n (.rule .literal) ⟨'"' :: x, k⟩
      (.success ⟨y, l⟩ [.node .literal ⟨k, l⟩ ts]) := by
  have hnumber : Fails (.rule .floatLiteral) ('"' :: x) :=
    floatLiteral_fails fun c hc => by cases hc; rfl
  exact .rule (fun h => nomatch h) (.altRight (hnumber _ _ k) (.altLeft h))

theorem literal_of_boolLiteral
    (h : Derives mayOpen n (.rule .boolLiteral) ⟨'#' :: x, k⟩ (.success ⟨y, l⟩ ts)) :
    Derives mayOpen n (.rule .literal) ⟨'#' :: x, k⟩
      (.success ⟨y, l⟩ [.node .literal ⟨k, l⟩ ts]) := by
  have hnumber : Fails (.rule .floatLiteral) ('#' :: x) :=
    floatLiteral_fails fun c hc => by cases hc; rfl
  have hlong : Fails (.rule .longStringLiteral) ('#' :: x) :=
    longStringLiteral_fails_head (by simp)
  exact .rule (fun h => nomatch h)
    (.altRight (hnumber _ _ k) (.altRight (hlong _ _ k) (.altLeft h)))

theorem literal_of_nilLiteral
    (h : Derives mayOpen n (.rule .nilLiteral) ⟨'n' :: x, k⟩ (.success ⟨y, l⟩ ts)) :
    Derives mayOpen n (.rule .literal) ⟨'n' :: x, k⟩
      (.success ⟨y, l⟩ [.node .literal ⟨k, l⟩ ts]) := by
  have hnumber : Fails (.rule .floatLiteral) ('n' :: x) :=
    floatLiteral_fails fun c hc => by cases hc; rfl
  have hlong : Fails (.rule .longStringLiteral) ('n' :: x) :=
    longStringLiteral_fails_head (by simp)
  have hbool : Fails (.rule .boolLiteral) ('n' :: x) := boolLiteral_fails (by simp)
  have hstring : Fails (.rule .stringLiteral) ('n' :: x) := stringLiteral_fails (by simp)
  exact .rule (fun h => nomatch h) (.altRight (hnumber _ _ k) (.altRight (hlong _ _ k)
    (.altRight (hbool _ _ k) (.altRight (hstring _ _ k) (.altLeft h)))))

theorem literal_of_integerLiteral
    (hfloat : Derives mayOpen n (.rule .floatLiteral) ⟨x, k⟩ .failure)
    (h : Derives mayOpen n (.rule .integerLiteral) ⟨x, k⟩ (.success ⟨y, l⟩ ts)) :
    Derives mayOpen n (.rule .literal) ⟨x, k⟩ (.success ⟨y, l⟩ [.node .literal ⟨k, l⟩ ts]) := by
  -- An integer starts with a character of numbers, which no other literal but a float does.
  have hhead : ∀ d, startsNumber d = false → x.head? ≠ some d := by
    intro d hd hx
    refine (integerLiteral_fails fun c hc => ?_).elim h
    have hcd : d = c := Option.some.inj (hx.symm.trans hc)
    exact hcd ▸ hd
  have hlong := longStringLiteral_fails_head (hhead '"' rfl)
  have hbool := boolLiteral_fails (hhead '#' rfl)
  have hstring := stringLiteral_fails (hhead '"' rfl)
  have hnil : Fails (.rule .nilLiteral) x := by
    refine nilLiteral_fails ?_
    rintro ⟨ds, rfl⟩
    exact hhead 'n' rfl rfl
  exact .rule (fun h => nomatch h) (.altRight hfloat (.altRight (hlong _ _ k)
    (.altRight (hbool _ _ k) (.altRight (hstring _ _ k) (.altRight (hnil _ _ k) h)))))

/-- A literal that its rule matches is the literal of any text in which it is closed. -/
theorem literal_of_kind (kind : LiteralKind) (hy' : Delimited y')
    (h : Derives mayOpen n (.rule kind.rule) ⟨x ++ y, k⟩ (.success ⟨y, l⟩ ts)) :
    Derives mayOpen n (.rule .literal) ⟨x ++ y', k⟩
      (.success ⟨y', l⟩ [.node .literal ⟨k, l⟩ ts]) := by
  cases kind with
  | nil =>
    obtain ⟨⟨hx, hl⟩, -, rfl⟩ := nilLiteral_iff.mp h
    obtain rfl : x = ['n', 'i', 'l'] := List.append_cancel_right hx
    exact literal_of_nilLiteral (nilLiteral_iff.mpr
      ⟨⟨rfl, hl⟩, fun c hc => solid_isNameChar.eq_false (hy' c hc), rfl⟩)
  | bool =>
    obtain ⟨hij, -, rfl⟩ := boolLiteral_iff.mp h
    have hstop : ∀ c ∈ y'.head?, isWordChar c = false :=
      fun c hc => solid_isWordChar.eq_false (hy' c hc)
    rcases hij with ⟨hx, hl⟩ | ⟨hx, hl⟩
    · obtain rfl : x = ['#', 'f'] := List.append_cancel_right hx
      exact literal_of_boolLiteral (boolLiteral_iff.mpr ⟨.inl ⟨rfl, hl⟩, hstop, rfl⟩)
    · obtain rfl : x = ['#', 't'] := List.append_cancel_right hx
      exact literal_of_boolLiteral (boolLiteral_iff.mpr ⟨.inr ⟨rfl, hl⟩, hstop, rfl⟩)
  | integer =>
    have hint := firm_integerLiteral.change (z := []) hy' h
    exact literal_of_integerLiteral (floatLiteral_fails_of_integerLiteral hint hy') hint
  | float =>
    exact .rule (fun h => nomatch h) (.altLeft (firm_floatLiteral.change (z := []) hy' h))
  | string =>
    obtain ⟨a, hij, ha⟩ := exists_of_stringLiteral h
    obtain rfl : x = '"' :: (a ++ ['"']) := List.append_cancel_right hij.1
    refine literal_of_stringLiteral ?_ (closed_stringLiteral.change h y')
    -- With a third quote this would be a long string, but there is none in it or behind it.
    have hlong : ¬ ['"', '"', '"'] <+: '"' :: (a ++ ['"'] ++ y') := by
      cases a with
      | nil =>
        rintro ⟨ds, hds⟩
        have hhead : y' = '"' :: ds := (List.cons.inj (List.cons.inj hds).2).2.symm
        have hsolid : isSolid '"' = false := hy' _ (hhead ▸ rfl)
        cases hsolid
      | cons c a =>
        rintro ⟨ds, hds⟩
        obtain rfl : '"' = c := (List.cons.inj (List.cons.inj hds).2).1
        exact ha rfl
    exact longStringLiteral_fails hlong _ _ k
  | longString =>
    obtain ⟨a, hij⟩ := exists_of_longStringLiteral h
    obtain rfl : x = '"' :: (a ++ ['"']) := List.append_cancel_right hij.1
    exact literal_of_longStringLiteral (closed_longStringLiteral.change h y')

/-- A long string that does not start at an empty string before quotes does not start there after a
change behind another quote. -/
theorem longStringLiteral_fails_change (hy' : Delimited y')
    (hz : z.head? = some '"' → '"' ∈ z.tail)
    (h : Derives mayOpen n (.rule .longStringLiteral) ⟨'"' :: '"' :: (z ++ y), k⟩ .failure) :
    Derives mayOpen n (.rule .longStringLiteral) ⟨'"' :: '"' :: (z ++ y'), k⟩ .failure := by
  have hquote : y'.head? ≠ some '"' := by
    intro hhead
    have hsolid : isSolid '"' = false := hy' _ hhead
    cases hsolid
  by_cases hhead : (z ++ y').head? = some '"'
  · cases z with
    | nil => exact absurd hhead hquote
    | cons c z =>
      obtain rfl : c = '"' := Option.some.inj hhead
      obtain ⟨a, b, hb, ha⟩ := List.eq_append_cons_of_mem (hz rfl)
      obtain rfl : z = a ++ '"' :: b := hb
      simp only [List.cons_append, List.append_assoc] at h ⊢
      rw [longStringLiteral_fails_iff ha] at h ⊢
      -- Two more quotes would have to be in the text that stays.
      rintro ⟨ds, hds⟩
      cases b with
      | nil =>
        have hstart : y' = '"' :: '"' :: ds := hds.symm
        exact hquote (hstart ▸ rfl)
      | cons c b =>
        obtain ⟨rfl, hmore⟩ := List.cons.inj hds
        cases b with
        | nil =>
          have hstart : y' = '"' :: ds := hmore.symm
          exact hquote (hstart ▸ rfl)
        | cons d b =>
          obtain ⟨rfl, -⟩ := List.cons.inj hmore
          exact h ⟨b ++ y, rfl⟩
  · refine longStringLiteral_fails ?_ _ _ k
    rintro ⟨ds, hds⟩
    rw [← (List.cons.inj (List.cons.inj hds).2).2] at hhead
    exact hhead rfl

/-- A literal stays if the text behind it is changed into one that is closed there. -/
theorem literal_change (hy' : Delimited y') (hz : z.head? = some '"' → '"' ∈ z.tail)
    (h : Derives mayOpen n (.rule .literal) ⟨x ++ z ++ y, k⟩ (.success ⟨z ++ y, l⟩ ts)) :
    Derives mayOpen n (.rule .literal) ⟨x ++ z ++ y', k⟩ (.success ⟨z ++ y', l⟩ ts) := by
  -- What comes right after the literal is the same, or else it is not solid.
  have hnext : ∀ {f : Char → Bool}, Solid f → (∀ c ∈ (z ++ y).head?, f c = false) →
      ∀ c ∈ (z ++ y').head?, f c = false := by
    intro f hf hstop c hc
    cases z with
    | nil => exact hf.eq_false (hy' c hc)
    | cons d z => exact hstop c hc
  cases h with
  | rule _ hr =>
  cases hr with
  | altLeft hfloat =>
    exact .rule (fun h => nomatch h) (.altLeft (firm_floatLiteral.change hy' hfloat))
  | altRight hnofloat hr =>
  rw [List.append_assoc] at hr ⊢
  cases hr with
  | altLeft hlong =>
    obtain ⟨a, hij⟩ := exists_of_longStringLiteral hlong
    obtain rfl : x = '"' :: (a ++ ['"']) := List.append_cancel_right hij.1
    exact literal_of_longStringLiteral (closed_longStringLiteral.change hlong (z ++ y'))
  | altRight hnolong hr =>
  cases hr with
  | altLeft hbool =>
    obtain ⟨hij, hstop, rfl⟩ := boolLiteral_iff.mp hbool
    rcases hij with ⟨hx, hl⟩ | ⟨hx, hl⟩
    · obtain rfl : x = ['#', 'f'] := List.append_cancel_right hx
      exact literal_of_boolLiteral
        (boolLiteral_iff.mpr ⟨.inl ⟨rfl, hl⟩, hnext solid_isWordChar hstop, rfl⟩)
    · obtain rfl : x = ['#', 't'] := List.append_cancel_right hx
      exact literal_of_boolLiteral
        (boolLiteral_iff.mpr ⟨.inr ⟨rfl, hl⟩, hnext solid_isWordChar hstop, rfl⟩)
  | altRight _ hr =>
  cases hr with
  | altLeft hstring =>
    obtain ⟨a, hij, ha⟩ := exists_of_stringLiteral hstring
    obtain rfl : x = '"' :: (a ++ ['"']) := List.append_cancel_right hij.1
    refine literal_of_stringLiteral ?_ (closed_stringLiteral.change hstring (z ++ y'))
    cases a with
    | nil => exact longStringLiteral_fails_change (z := z) hy' hz hnolong
    | cons c a =>
      refine longStringLiteral_fails ?_ _ _ k
      rintro ⟨ds, hds⟩
      obtain rfl : '"' = c := (List.cons.inj (List.cons.inj hds).2).1
      exact ha rfl
  | altRight _ hr =>
  cases hr with
  | altLeft hnil =>
    obtain ⟨⟨hx, hl⟩, hstop, rfl⟩ := nilLiteral_iff.mp hnil
    obtain rfl : x = ['n', 'i', 'l'] := List.append_cancel_right hx
    exact literal_of_nilLiteral
      (nilLiteral_iff.mpr ⟨⟨rfl, hl⟩, hnext solid_isNameChar hstop, rfl⟩)
  | altRight _ hint =>
    rw [← List.append_assoc] at hint ⊢
    exact literal_of_integerLiteral (firm_floatLiteral.failure hy' hnofloat)
      (firm_integerLiteral.change hy' hint)

end Closing

/-! ## What a literal is made of -/

namespace Clause.Within

variable {F F' : (Char → Bool) → Prop} {G : Rule → Prop} {c : Clause}

theorem mono (hF : ∀ f, F f → F' f) (h : Within F G c) : Within F' G c := by
  induction h with
  | empty => exact .empty
  | char hf => exact .char (hF _ hf)
  | seq _ _ ihp ihq => exact .seq ihp ihq
  | alt _ _ ihp ihq => exact .alt ihp ihq
  | star _ ih => exact .star ih
  | plus _ ih => exact .plus ih
  | opt _ ih => exact .opt ih
  | not _ ih => exact .not ih
  | rule hr hcall _ ih => exact .rule hr hcall ih

/-- The rules inside literals are not spacing. -/
theorem literalRule {r : Rule} (hr : decide (r ≠ .spacing ∧ r ≠ .expression) = true)
    (h : Within F (· ≠ .spacing) (.of r)) : Within F (· ≠ .spacing) (.rule r) := by
  obtain ⟨hspacing, hcall⟩ := of_decide_eq_true hr
  exact .rule hspacing hcall h

theorem digitsOf {f g : Char → Bool} (hf : Solid f) (hg : Solid g) :
    Within Solid G (Clause.digitsOf f g) :=
  .seq (.char hf) (.star (.seq (.star (.char (.eq (by decide)))) (.char hg)))

theorem floatLiteral : Within Solid (· ≠ .spacing) (.rule .floatLiteral) := by
  have hdigits : Within Solid (· ≠ .spacing) .digits := digitsOf solid_isDigit solid_isDigit
  have hpoint : Within Solid (· ≠ .spacing) (.one '.') := .char (.eq (by decide))
  have hexponent : Within Solid (· ≠ .spacing) (.rule .exponent) :=
    .literalRule rfl (.seq (.seq (.char solid_exponentMark) (.opt (.char solid_sign))) hdigits)
  exact .literalRule rfl (.seq (.opt (.char solid_sign))
    (.alt (.seq (.seq (.seq hdigits hpoint) (.opt hdigits)) (.opt hexponent))
      (.alt (.seq hdigits hexponent) (.seq (.seq hpoint hdigits) (.opt hexponent)))))

theorem integerLiteral : Within Solid (· ≠ .spacing) (.rule .integerLiteral) := by
  have hzero : Within Solid (· ≠ .spacing) (.one '0') := .char (.eq (by decide))
  have hhex : Within Solid (· ≠ .spacing) (.rule .hexNumeral) :=
    .literalRule rfl (.alt (digitsOf solid_isHexDigit solid_isHexDigit) hzero)
  have hdecimal : Within Solid (· ≠ .spacing) (.rule .decimalNumeral) :=
    .literalRule rfl (.alt (digitsOf (fun c hc => solid_isDigit c (isDigit_of_nonzero hc))
      solid_isDigit) hzero)
  exact .literalRule rfl (.seq (.seq (.opt (.char solid_sign))
    (.alt (.seq (.seq hzero (.char (.contains (by decide)))) hhex) hdecimal))
    (.opt (.char (.contains (by decide)))))

theorem solidExactly {cs : List Char} (h : cs.all isSolid = true) :
    Within Solid G (Clause.exactly cs) := .exactly fun c hc => .eq (List.all_eq_true.mp h c hc)

theorem boolLiteral : Within Solid (· ≠ .spacing) (.rule .boolLiteral) :=
  .literalRule rfl (.seq (.alt (solidExactly (by decide)) (solidExactly (by decide)))
    (.not (.char solid_isWordChar)))

theorem nilLiteral : Within Solid (· ≠ .spacing) (.rule .nilLiteral) :=
  .literalRule rfl (.seq (solidExactly (by decide))
    (.not (.alt (.char solid_isWordChar) (.char (.eq (by decide))))))

theorem stringLiteral : Within (fun _ => True) (· ≠ .spacing) (.rule .stringLiteral) := by
  have hmark : ∀ {f}, Within (fun _ => True) (· ≠ .spacing) (.one '\\' ++ .char f) :=
    .seq (.char trivial) (.char trivial)
  have hhex : ∀ k, Within (fun _ => True) (· ≠ .spacing) (.times k (.char isHexDigit)) :=
    fun k => .times k (.char trivial)
  have huChar : Within (fun _ => True) (· ≠ .spacing) (.rule .uChar) :=
    .literalRule rfl (.alt (.seq hmark (hhex 4)) (.seq hmark (hhex 8)))
  have hescape : Within (fun _ => True) (· ≠ .spacing) (.rule .escape) := .literalRule rfl hmark
  have hbyte : Within (fun _ => True) (· ≠ .spacing) (.rule .hexByte) :=
    .literalRule rfl (.seq hmark (hhex 2))
  exact .literalRule rfl (.seq (.seq (.char trivial) (.star (.alt huChar (.alt hescape (.alt hbyte
    (.seq (.not (.char trivial)) (.char trivial))))))) (.char trivial))

theorem longStringLiteral : Within (fun _ => True) (· ≠ .spacing) (.rule .longStringLiteral) :=
  .literalRule rfl (.seq (.seq (.exactly fun _ _ => trivial)
    (.star (.seq (.not (.char trivial)) (.char trivial)))) (.exactly fun _ _ => trivial))

theorem literalKind (kind : LiteralKind) :
    Within (fun _ => True) (· ≠ .spacing) (.rule kind.rule) := by
  cases kind with
  | nil => exact nilLiteral.mono fun _ _ => trivial
  | bool => exact boolLiteral.mono fun _ _ => trivial
  | integer => exact integerLiteral.mono fun _ _ => trivial
  | float => exact floatLiteral.mono fun _ _ => trivial
  | string => exact stringLiteral
  | longString => exact longStringLiteral

theorem literal : Within (fun _ => True) (· ≠ .spacing) (.rule .literal) :=
  .literalRule rfl (.alt (literalKind .float) (.alt (literalKind .longString)
    (.alt (literalKind .bool) (.alt (literalKind .string)
      (.alt (literalKind .nil) (literalKind .integer))))))

end Clause.Within

section Parts

variable {mayOpen : Nat → Prop} {n : Nat} {i j : Cursor} {ts : List Tree}

/-- A match of solid characters is tight. -/
theorem exists_tight_of_solid {r : Rule} {G : Rule → Prop}
    (h : Derives mayOpen n (.rule r) i (.success j ts)) (hr : (Clause.rule r).Within Solid G)
    (hnull : (Clause.rule r).nullable = false) : ∃ x, i.Across x j ∧ Tight x := by
  obtain ⟨x, hij, hx⟩ := h.forall_char (P := fun c => isSolid c = true) hr
  obtain ⟨x', hij', hne⟩ := h.across_ne_nil hnull
  have hxx' : x = x' := List.append_cancel_right (hij.1.symm.trans hij'.1)
  refine ⟨x, hij, .of_forall (hxx' ▸ hne) fun c hc => ?_⟩
  have hsolid := hx c hc
  simp only [isSolid, Bool.and_eq_true, Bool.not_eq_true'] at hsolid
  exact hsolid.1.1

theorem tight_quoted (a : List Char) : Tight ('"' :: (a ++ ['"'])) where
  ne_nil := List.cons_ne_nil _ _
  head := fun c hc => by cases hc; rfl
  last := fun c hc => by
    rw [← List.cons_append, List.getLast?_concat] at hc
    cases hc
    rfl

/-- The text of a literal is tight. -/
theorem exists_tight_of_kind {kind : LiteralKind}
    (h : Derives mayOpen n (.rule kind.rule) i (.success j ts)) : ∃ x, i.Across x j ∧ Tight x := by
  cases kind with
  | nil => exact exists_tight_of_solid h .nilLiteral rfl
  | bool => exact exists_tight_of_solid h .boolLiteral rfl
  | integer => exact exists_tight_of_solid h .integerLiteral rfl
  | float => exact exists_tight_of_solid h .floatLiteral rfl
  | string =>
    obtain ⟨a, hij, -⟩ := exists_of_stringLiteral h
    exact ⟨_, hij, tight_quoted a⟩
  | longString =>
    obtain ⟨a, hij⟩ := exists_of_longStringLiteral h
    exact ⟨_, hij, tight_quoted a⟩

/-- A literal is of one of the kinds. -/
theorem exists_kind_of_literal (h : Derives mayOpen n (.rule .literal) i (.success j ts)) :
    ∃ (kind : LiteralKind) (us : List Tree),
      Derives mayOpen n (.rule kind.rule) i (.success j [.node kind.rule ⟨i.offset, j.offset⟩ us]) ∧
        ts = [.node .literal ⟨i.offset, j.offset⟩ [.node kind.rule ⟨i.offset, j.offset⟩ us]] := by
  have hkind : ∀ (kind : LiteralKind) {us : List Tree},
      Derives mayOpen n (.rule kind.rule) i (.success j us) →
      ∃ (kind : LiteralKind) (vs : List Tree),
        Derives mayOpen n (.rule kind.rule) i
            (.success j [.node kind.rule ⟨i.offset, j.offset⟩ vs]) ∧
          [Tree.node .literal ⟨i.offset, j.offset⟩ us] =
            [.node .literal ⟨i.offset, j.offset⟩ [.node kind.rule ⟨i.offset, j.offset⟩ vs]] := by
    intro kind us h
    obtain ⟨vs, rfl⟩ := h.exists_node
    exact ⟨kind, vs, h, rfl⟩
  cases h with
  | rule _ hr =>
  cases hr with
  | altLeft h => exact hkind .float h
  | altRight _ hr =>
  cases hr with
  | altLeft h => exact hkind .longString h
  | altRight _ hr =>
  cases hr with
  | altLeft h => exact hkind .bool h
  | altRight _ hr =>
  cases hr with
  | altLeft h => exact hkind .string h
  | altRight _ hr =>
  cases hr with
  | altLeft h => exact hkind .nil h
  | altRight _ h => exact hkind .integer h

end Parts

end Grammar

end Fexpr
