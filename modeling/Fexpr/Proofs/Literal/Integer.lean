import Fexpr.Eval
import Fexpr.Proofs.Form.Printing
import Fexpr.Proofs.Literal.Numeral
import Mathlib.Tactic.Ring

/-!
# Decoding integers

Decoding splits the text of a numeral into its parts again, and reads the digits. `Numeral.Decodes`
says what comes out in terms of the number that the digits denote: this number with its sign, if it
fits, and otherwise a failure that says why not. There is no other outcome, for a text that is
matched in full and for an integer literal of a script (`integers_decoded`).
-/

namespace Fexpr

open Grammar
open Form (LiteralKind)

namespace Literal

/-! ## Digits -/

/-- What holds of the characters of ASCII one by one holds of each of them. -/
theorem of_ascii {P : Char → Prop} (h : ∀ k < 128, P (Char.ofNat k)) {c : Char}
    (hc : c.toNat < 128) : P c := by
  have hP := h c.toNat hc
  rwa [Char.ofNat_toNat] at hP

theorem toNat_lt_of_digitClass {hex : Bool} {c : Char} (hc : digitClass hex c = true) :
    c.toNat < 128 := by
  have hhex := isHexDigit_of_digitClass hc
  simp only [isHexDigit, Char.isDigit, Bool.or_eq_true, Bool.and_eq_true, decide_eq_true_eq,
    Char.le_def, ge_iff_le, UInt32.le_iff_toNat_le] at hhex
  have hmax : c.val.toNat ≤ 57 ∨ c.val.toNat ≤ 102 ∨ c.val.toNat ≤ 70 := by
    rcases hhex with (⟨-, h⟩ | ⟨-, h⟩) | ⟨-, h⟩
    · exact .inl h
    · exact .inr (.inl h)
    · exact .inr (.inr h)
  show c.val.toNat < 128
  omega

theorem digit?_eq {hex : Bool} {c : Char} (hc : digitClass hex c = true) :
    digit? (if hex then 16 else 10) c = some (digitValue c) := by
  have hlt := toNat_lt_of_digitClass hc
  revert hc
  cases hex with
  | true =>
    exact of_ascii (P := fun c => isHexDigit c = true → digit? 16 c = some (digitValue c))
      (by decide +kernel) hlt
  | false =>
    exact of_ascii (P := fun c => c.isDigit = true → digit? 10 c = some (digitValue c))
      (by decide +kernel) hlt

/-- Reading one digit more. -/
theorem ofDigits_reverse_cons (radix m : Nat) (c : Char) (cs : List Char) :
    m * radix ^ (c :: cs).length + Nat.ofDigits radix ((c :: cs).reverse.map digitValue) =
      (m * radix + digitValue c) * radix ^ cs.length +
        Nat.ofDigits radix (cs.reverse.map digitValue) := by
  rw [List.reverse_cons, List.map_append, Nat.ofDigits_append, List.map_singleton,
    Nat.ofDigits_singleton, List.length_map, List.length_reverse, List.length_cons]
  ring

theorem digitsFrom?_eq {radix : Nat} {cs : List Char}
    (h : ∀ c ∈ cs, digit? radix c = some (digitValue c)) (m : Nat) :
    digitsFrom? radix m cs =
      some (m * radix ^ cs.length + Nat.ofDigits radix (cs.reverse.map digitValue)) := by
  induction cs generalizing m with
  | nil => simp [digitsFrom?]
  | cons c cs ih =>
    obtain ⟨hc, hcs⟩ := List.forall_mem_cons.mp h
    rw [digitsFrom?, hc, Option.bind_some, ih hcs, ofDigits_reverse_cons]

/-- A number that fits is kept as it is. -/
theorem signed?_cases (v : Int) :
    (∃ m : Int64, signed? v = some m ∧ m.toInt = v) ∨
      signed? v = none ∧ (v < -2 ^ 63 ∨ 2 ^ 63 ≤ v) := by
  rw [signed?, Int64.toInt_minValue, Int64.toInt_maxValue]
  by_cases hv : -2 ^ 63 ≤ v ∧ v ≤ 2 ^ 63 - 1
  · rw [if_pos hv]
    exact .inl ⟨_, rfl, Int64.toInt_ofInt_of_le hv.1 (by omega)⟩
  · rw [if_neg hv]
    exact .inr ⟨rfl, by omega⟩

/-! ## The parts of a numeral -/

theorem filter_spread {hex : Bool} {more : List (Nat × Char)}
    (h : ∀ d ∈ more, digitClass hex d.2 = true) :
    (spread more).filter (· ≠ '_') = more.map Prod.snd := by
  induction more with
  | nil => rfl
  | cons d more ih =>
    obtain ⟨hd, hmore⟩ := List.forall_mem_cons.mp h
    have hdigit : d.2 ≠ '_' := ne_of_digitClass hd rfl
    have hgroup : (List.replicate d.1 '_' ++ [d.2]).filter (· ≠ '_') = [d.2] := by
      rw [List.filter_append, List.filter_replicate_of_neg (by simp), List.nil_append]
      simp [hdigit]
    have htail := ih hmore
    rw [spread] at htail ⊢
    rw [List.flatMap_cons, List.filter_append, hgroup, htail, List.map_cons, List.singleton_append]

/-- Digits with underscores between them, without these. -/
theorem filter_cons_spread {hex : Bool} {c : Char} {more : List (Nat × Char)}
    (hc : digitClass hex c = true) (hmore : ∀ d ∈ more, digitClass hex d.2 = true) :
    (c :: spread more).filter (· ≠ '_') = c :: more.map Prod.snd := by
  have hfirst : c ≠ '_' := ne_of_digitClass hc rfl
  rw [List.filter_cons_of_pos (by simp [hfirst]), filter_spread hmore]

theorem digitClass_of_mem {hex : Bool} {c : Char} {more : List (Nat × Char)}
    (hc : digitClass hex c = true) (hmore : ∀ d ∈ more, digitClass hex d.2 = true) :
    ∀ d ∈ c :: more.map Prod.snd, digitClass hex d = true := by
  refine List.forall_mem_cons.mpr ⟨hc, fun x hx => ?_⟩
  obtain ⟨d, hd, rfl⟩ := List.mem_map.mp hx
  exact hmore d hd

/-- A sign is split off if there is one. -/
theorem splitSign_toList_append {sign? : Option Char} {cs : List Char}
    (hsign : ∀ c ∈ sign?, c ∈ ['+', '-']) (hcs : ∀ c ∈ cs.head?, c ∉ ['+', '-']) :
    splitSign (sign?.toList ++ cs) = (sign? == some '-', cs) := by
  cases sign? with
  | none =>
    show splitSign cs = (false, cs)
    unfold splitSign
    split
    next => exact absurd (by simp) (hcs '-' rfl)
    next => exact absurd (by simp) (hcs '+' rfl)
    next => rfl
  | some s =>
    have hs := hsign s rfl
    simp only [List.mem_cons, List.not_mem_nil, or_false] at hs
    rcases hs with rfl | rfl <;> rfl

namespace Numeral

variable (n : Numeral)

theorem isDigit_of_mem_digits : ∀ c ∈ n.digits, digitClass n.mark?.isSome c = true :=
  digitClass_of_mem n.first_isDigit n.more_isDigit

theorem filter_body : (n.first :: spread n.more).filter (· ≠ '_') = n.digits :=
  filter_cons_spread n.first_isDigit n.more_isDigit

/-- The last character before the suffix is a digit. -/
theorem exists_getLast?_body :
    ∃ c, n.body.getLast? = some c ∧ digitClass n.mark?.isSome c = true := by
  have hdigits : ∃ c, (n.first :: spread n.more).getLast? = some c ∧
      digitClass n.mark?.isSome c = true := by
    rcases List.eq_nil_or_concat n.more with hmore | ⟨more, d, hmore⟩
    · rw [hmore]
      exact ⟨n.first, rfl, n.first_isDigit⟩
    · rw [List.concat_eq_append] at hmore
      refine ⟨d.2, ?_, n.more_isDigit d (by rw [hmore]; simp)⟩
      rw [hmore, spread, List.flatMap_append, List.flatMap_singleton, ← List.cons_append,
        ← List.append_assoc, List.getLast?_concat]
  obtain ⟨c, hc, hdigit⟩ := hdigits
  exact ⟨c, by rw [body, List.getLast?_append, hc, Option.some_or], hdigit⟩

theorem splitSign_text : splitSign n.text = (n.isNegative, n.body ++ n.suffix?.toList) := by
  refine splitSign_toList_append n.sign_mem fun c hc => ?_
  obtain ⟨d, cs, hbody, hd⟩ := n.exists_body_eq
  rw [hbody] at hc
  cases hc
  exact not_sign_of_isDigit hd

theorem splitSuffix_body : splitSuffix (n.body ++ n.suffix?.toList) = (n.isUnsigned, n.body) := by
  rw [splitSuffix, isUnsigned]
  cases hsuffix : n.suffix? with
  | none =>
    obtain ⟨c, hc, hdigit⟩ := n.exists_getLast?_body
    rw [Option.toList_none, List.append_nil, hc]
    split
    next heq => exact absurd (Option.some.inj heq) (ne_of_digitClass hdigit rfl)
    next heq => exact absurd (Option.some.inj heq) (ne_of_digitClass hdigit rfl)
    next => rfl
  | some c =>
    have hc := n.suffix_mem c hsuffix
    simp only [List.mem_cons, List.not_mem_nil, or_false] at hc
    rw [Option.toList_some, List.getLast?_concat, List.dropLast_concat]
    rcases hc with rfl | rfl <;> rfl

theorem splitRadix_body : splitRadix n.body = (n.radix, n.first :: spread n.more) := by
  rw [body, radix]
  cases hmark : n.mark? with
  | none =>
    have hfirst := n.first_isDigit
    have hzero := n.zero_alone hmark
    rw [hmark] at hfirst
    simp only [markText, List.nil_append]
    unfold splitRadix
    split
    next heq =>
      obtain ⟨hfirst0, hmore⟩ := List.cons.inj heq
      rw [hzero hfirst0] at hmore
      cases hmore
    next heq =>
      obtain ⟨hfirst0, hmore⟩ := List.cons.inj heq
      rw [hzero hfirst0] at hmore
      cases hmore
    next => rfl
  | some x =>
    have hx := n.mark_mem x hmark
    simp only [List.mem_cons, List.not_mem_nil, or_false] at hx
    rcases hx with rfl | rfl <;> rfl

theorem word?_digits : word? n.radix n.digits = (some n.magnitude).filter (· < UInt64.size) := by
  have hdigit := n.isDigit_of_mem_digits
  have hfirst : n.first ≠ '+' := ne_of_digitClass n.first_isDigit rfl
  have hhead : n.digits.head? ≠ some '+' := fun h => hfirst (Option.some.inj h)
  have hread := digitsFrom?_eq (fun c hc => digit?_eq (hdigit c hc)) 0
  rw [word?, if_neg hhead]
  show (if n.digits.isEmpty = true then none else _) = _
  rw [if_neg (by simp [digits]), radix, hread, Nat.zero_mul, Nat.zero_add, magnitude, radix]

/-! ## What a numeral denotes -/

/-- What comes out of decoding a numeral. -/
inductive Decodes : Except Error Integer → Prop
  /-- The digits denote too large a number for an integer of any kind. -/
  | tooLarge (hsize : 2 ^ 64 ≤ n.magnitude) : Decodes (.error (.integerOutOfRange n.text))
  /-- An unsigned integer has a minus. -/
  | negative (hsize : n.magnitude < 2 ^ 64) (hsuffix : n.isUnsigned = true)
    (hsign : n.isNegative = true) : Decodes (.error (.negativeUnsigned n.text))
  | unsigned {m : UInt64} (hsuffix : n.isUnsigned = true) (hsign : n.isNegative = false)
    (hm : m.toNat = n.magnitude) : Decodes (.ok (.unsigned m))
  | signed {m : Int64} (hsuffix : n.isUnsigned = false) (hm : m.toInt = n.value) :
    Decodes (.ok (.signed m))
  /-- The number does not fit into a signed integer. -/
  | outOfRange (hsize : n.magnitude < 2 ^ 64) (hsuffix : n.isUnsigned = false)
    (hvalue : n.value < -2 ^ 63 ∨ 2 ^ 63 ≤ n.value) : Decodes (.error (.integerOutOfRange n.text))

variable {n}

/-- There is one outcome. -/
theorem Decodes.unique {r r' : Except Error Integer} (h : n.Decodes r) (h' : n.Decodes r') :
    r = r' := by
  have hvalue : n.isNegative = true ∧ n.value = -n.magnitude ∨
      n.isNegative = false ∧ n.value = n.magnitude := by
    rw [value]
    cases n.isNegative
    · exact .inr ⟨rfl, rfl⟩
    · exact .inl ⟨rfl, rfl⟩
  have hunsigned : ∀ m : UInt64, m.toNat < 2 ^ 64 := fun m => m.toNat_lt
  have hsigned : ∀ m : Int64, -2 ^ 63 ≤ m.toInt ∧ m.toInt < 2 ^ 63 :=
    fun m => ⟨m.le_toInt, m.toInt_lt⟩
  cases h <;> cases h' <;> grind [UInt64.toNat_inj, Int64.toInt_inj]

variable (n)

theorem decodes_parseInteger : n.Decodes (parseInteger n.text) := by
  rw [parseInteger, splitSign_text]
  dsimp only
  rw [splitSuffix_body]
  dsimp only
  rw [splitRadix_body]
  dsimp only
  rw [filter_body, word?_digits]
  by_cases hsize : n.magnitude < UInt64.size
  · rw [Option.filter_some_pos (by simpa using hsize)]
    dsimp only
    cases hsuffix : n.isUnsigned with
    | true =>
      cases hsign : n.isNegative with
      | true => exact .negative hsize hsuffix hsign
      | false => exact .unsigned hsuffix hsign (UInt64.toNat_ofNat_of_lt' hsize)
    | false =>
      rcases signed?_cases n.value with ⟨m, hsome, hm⟩ | ⟨hnone, hvalue⟩
      · rw [value] at hsome
        simp only [Bool.false_eq_true, if_false, hsome]
        exact .signed hsuffix hm
      · rw [value] at hnone
        simp only [Bool.false_eq_true, if_false, hnone]
        exact .outOfRange hsize hsuffix hvalue
  · rw [Option.filter_some_neg (by simpa using hsize)]
    exact .tooLarge (Nat.le_of_not_lt hsize)

theorem parseInteger_text_iff (r : Except Error Integer) :
    parseInteger n.text = r ↔ n.Decodes r := by
  constructor
  · rintro rfl
    exact n.decodes_parseInteger
  · exact fun h => n.decodes_parseInteger.unique h

end Numeral

/-- The value that an integer is in a script. -/
def Integer.value {κ : Type} : Integer → Value κ
  | signed m => .int m
  | unsigned m => .uint m

end Literal

open Literal

theorem Form.Literal.value_integer {κ : Type} (source : Source) (text : List Char)
    (span : Text.Span) :
    (Form.Literal.value source ⟨.integer, text, span⟩ : Reply κ) =
      ((parseInteger text).map Integer.value).mapError
        fun e => .failed (.badInteger text e) ⟨source, span, none⟩ := by
  rw [Form.Literal.value]
  dsimp only
  cases parseInteger text with
  | error e => rfl
  | ok m => cases m <;> rfl

theorem matchesWhole_integer_iff {text : List Char} :
    LiteralKind.integer.matchesWhole text = true ↔ ∃ n : Numeral, n.text = text :=
  matchesWhole_iff_exists exists_numeral Numeral.exists_lexes

/-- The node of an integer is read as a numeral. -/
theorem exists_numeral_of_node {source : Source} {p : Program}
    (hp : Program.compile source = .ok p) :
    ∃ root, p.tree? = some root ∧ ∀ u ∈ root.nodes, u.rule = .integerLiteral →
      ∃ n : Numeral, Form.literalOf source.chars u = .ok ⟨.integer, n.text, u.span⟩ := by
  obtain ⟨root, hroot, hnodes⟩ := Program.exists_match_of_literal .integer hp
  refine ⟨root, hroot, fun u hu hrule => ?_⟩
  obtain ⟨n, k, l, ts, hmatch, -, hread⟩ := hnodes u hu hrule
  obtain ⟨m, hm⟩ := exists_numeral hmatch
  exact ⟨m, hread m.text hm⟩

/-- Integers are decoded exactly. The texts that are matched in full are those of numerals, and
decoding a numeral gives what its number is as an integer of its kind, and fails if it is none. In a
script every node of an integer is read as a numeral, and it evaluates to what comes out of decoding
it; if that fails, the error says so at the place of the numeral. -/
theorem integers_decoded :
    (∀ text, LiteralKind.integer.matchesWhole text = true ↔ ∃ n : Numeral, n.text = text) ∧
    (∀ (n : Numeral) r, parseInteger n.text = r ↔ n.Decodes r) ∧
    ∀ (κ : Type) (source : Source) (p : Program), Program.compile source = .ok p →
      ∃ root, p.tree? = some root ∧ ∀ u ∈ root.nodes, u.rule = .integerLiteral →
        ∃ (n : Numeral) (r : _),
          Form.literalOf source.chars u = .ok ⟨.integer, n.text, u.span⟩ ∧ n.Decodes r ∧
          (Form.Literal.value source ⟨.integer, n.text, u.span⟩ : Reply κ) =
            (r.map Integer.value).mapError
              fun e => .failed (.badInteger n.text e) ⟨source, u.span, none⟩ := by
  refine ⟨fun text => matchesWhole_integer_iff, Numeral.parseInteger_text_iff, ?_⟩
  intro κ source p hp
  obtain ⟨root, hroot, hread⟩ := exists_numeral_of_node hp
  refine ⟨root, hroot, fun u hu hrule => ?_⟩
  obtain ⟨n, hn⟩ := hread u hu hrule
  exact ⟨n, _, hn, n.decodes_parseInteger, Form.Literal.value_integer source n.text u.span⟩

/-- The least signed integer, with separators, among operands. -/
def Source.leastInteger : Source := ⟨"script", "(f -9_223_372_036_854_775__808 ; c\n)"⟩

/-- Its magnitude is one more than that of the greatest signed integer, and it fits. -/
theorem integers_decoded_least :
    ∃ (p : Program) (root u : Tree) (n : Numeral), Program.compile .leastInteger = .ok p ∧
      p.tree? = some root ∧ u ∈ root.nodes ∧ u.rule = .integerLiteral ∧
      Form.literalOf Source.leastInteger.chars u = .ok ⟨.integer, n.text, u.span⟩ ∧
      n.text = "-9_223_372_036_854_775__808".toList ∧
      n.Decodes (.ok (.signed Int64.minValue)) := by
  have hread : (((Program.compile .leastInteger).toOption.bind Program.tree?).bind
      fun t => t.nodes.find? (·.rule == .integerLiteral)).map
      (fun u => (Form.literalOf Source.leastInteger.chars u).toOption.map Form.Literal.text) =
      some (some "-9_223_372_036_854_775__808".toList) := by
    decide +kernel
  obtain ⟨p, root, u, hp, htree, hu, hrule, htext⟩ := Program.exists_node_of_find? hread
  obtain ⟨root', htree', hnodes⟩ := integers_decoded.2.2 Unit .leastInteger p hp
  cases htree.symm.trans htree'
  obtain ⟨n, -, hn, -, -⟩ := hnodes u hu hrule
  rw [hn] at htext
  have htext : n.text = "-9_223_372_036_854_775__808".toList := Option.some.inj htext
  refine ⟨p, root, u, n, hp, htree, hu, hrule, hn, htext, ?_⟩
  rw [← integers_decoded.2.1, htext]
  decide +kernel

end Fexpr
