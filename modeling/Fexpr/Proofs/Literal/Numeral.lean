import Fexpr.Literal.Integer
import Fexpr.Proofs.Grammar.Literal
import Mathlib.Data.Nat.Digits.Defs

/-!
# Integers as they are written

A `Numeral` has the parts of an integer literal: sign, mark, digits with underscores between them,
and suffix. The number that it denotes is given by its digits alone. The texts of numerals are what
the grammar takes for integers (`exists_numeral`, `Numeral.exists_lexes`).
-/

namespace Fexpr

open Grammar

namespace Literal

/-- The digits of a radix, ten or sixteen. -/
def digitClass (hex : Bool) : Char → Bool := if hex then isHexDigit else Char.isDigit

/-- The parts of an integer literal. Each further digit comes with the number of underscores before
it. -/
structure Numeral where
  /-- The sign. -/
  sign? : Option Char
  /-- The letter that marks hexadecimal digits. -/
  mark? : Option Char
  /-- The first digit. -/
  first : Char
  /-- The further digits. -/
  more : List (Nat × Char)
  /-- The suffix that makes the integer unsigned. -/
  suffix? : Option Char
  sign_mem : ∀ c ∈ sign?, c ∈ ['+', '-']
  mark_mem : ∀ c ∈ mark?, c ∈ ['x', 'X']
  suffix_mem : ∀ c ∈ suffix?, c ∈ ['u', 'U']
  first_isDigit : digitClass mark?.isSome first = true
  more_isDigit : ∀ d ∈ more, digitClass mark?.isSome d.2 = true
  /-- A decimal zero has no further digits. -/
  zero_alone : mark? = none → first = '0' → more = []

/-- Further digits as a text. -/
def spread (more : List (Nat × Char)) : List Char :=
  more.flatMap fun d => List.replicate d.1 '_' ++ [d.2]

/-- The mark of hexadecimal digits as a text. -/
def markText : Option Char → List Char
  | none => []
  | some c => ['0', c]

/-- The value of a digit: its place among the digits. -/
def digitValue (c : Char) : Nat :=
  ['0', '1', '2', '3', '4', '5', '6', '7', '8', '9', 'a', 'b', 'c', 'd', 'e', 'f'].idxOf c.toLower

namespace Numeral

variable (n : Numeral)

/-- The mark and the digits. -/
def body : List Char := markText n.mark? ++ n.first :: spread n.more

/-- The text of a numeral. -/
def text : List Char := n.sign?.toList ++ (n.body ++ n.suffix?.toList)

def radix : Nat := if n.mark?.isSome then 16 else 10

/-- The digits without underscores. -/
def digits : List Char := n.first :: n.more.map Prod.snd

/-- The number that the digits denote. -/
def magnitude : Nat := Nat.ofDigits n.radix (n.digits.reverse.map digitValue)

def isNegative : Bool := n.sign? == some '-'

def isUnsigned : Bool := n.suffix?.isSome

/-- The number with its sign. -/
def value : Int := if n.isNegative then -n.magnitude else n.magnitude

end Numeral

end Literal

namespace Grammar

open Literal (Numeral digitClass spread markText)

/-! ## Reading numerals -/

theorem solid_digitClass (hex : Bool) : Solid (digitClass hex) := by
  cases hex with
  | true => exact solid_isHexDigit
  | false => exact solid_isDigit

theorem isHexDigit_of_digitClass {hex : Bool} {c : Char} (hc : digitClass hex c = true) :
    isHexDigit c = true := by
  cases hex with
  | true => exact hc
  | false => exact Bool.or_eq_true_iff.mpr (.inl (Bool.or_eq_true_iff.mpr (.inl hc)))

theorem ne_of_digitClass {hex : Bool} {c d : Char} (hc : digitClass hex c = true)
    (hd : isHexDigit d = false) : c ≠ d := by
  rintro rfl
  rw [isHexDigit_of_digitClass hc] at hd
  cases hd

theorem not_sign_of_isDigit {c : Char} (hc : c.isDigit = true) : c ∉ ['+', '-'] := by
  intro hmem
  simp only [List.mem_cons, List.not_mem_nil, or_false] at hmem
  rcases hmem with rfl | rfl <;> cases hc

section Reading

variable {mayOpen : Nat → Prop} {n : Nat} {i j : Cursor} {ts : List Tree} {f g : Char → Bool}

theorem exists_of_opt_oneOf {cs : List Char}
    (h : Derives mayOpen n (.opt (.oneOf cs)) i (.success j ts)) :
    ∃ c? : Option Char, i.Across c?.toList j ∧ ∀ c ∈ c?, c ∈ cs := by
  cases h with
  | opt hc =>
    obtain ⟨c, hij, hmem, -⟩ := hc.of_char
    refine ⟨some c, hij, ?_⟩
    rintro d ⟨⟩
    exact List.contains_iff_mem.mp hmem
  | optNone _ => exact ⟨none, .refl i, by rintro c ⟨⟩⟩

/-- Further digits are read in groups of underscores and a digit. -/
theorem exists_spread (h : Derives mayOpen n (.star (.further g)) i (.success j ts)) :
    ∃ more, i.Across (spread more) j ∧ ∀ d ∈ more, g d.2 = true := by
  refine Derives.star_induction
    (P := fun i j _ => ∃ more, i.Across (spread more) j ∧ ∀ d ∈ more, g d.2 = true) ?_ ?_ h
  · exact fun i _ => ⟨[], .refl i, List.forall_mem_nil _⟩
  · rintro i j k ts us hdigit - ⟨more, hjk, hmore⟩
    cases hdigit with
    | seq hskip hchar =>
      obtain ⟨cs, hcs, hall, -, -⟩ := (ReadsOne.char (· == '_')).of_star hskip
      obtain ⟨c, hc, hgc, -⟩ := hchar.of_char
      obtain ⟨m, rfl⟩ : ∃ m, cs = List.replicate m '_' :=
        ⟨cs.length, List.eq_replicate_iff.mpr ⟨rfl, fun c hc => beq_iff_eq.mp (hall c hc)⟩⟩
      refine ⟨(m, c) :: more, ?_, List.forall_mem_cons.mpr ⟨hgc, hmore⟩⟩
      exact (hcs.trans hc).trans hjk

theorem exists_digitsOf (h : Derives mayOpen n (.digitsOf f g) i (.success j ts)) :
    ∃ c more, i.Across (c :: spread more) j ∧ f c = true ∧ ∀ d ∈ more, g d.2 = true := by
  cases h with
  | seq hfirst hmore =>
    obtain ⟨c, hc, hfc, -⟩ := hfirst.of_char
    obtain ⟨more, hjk, hmore⟩ := exists_spread hmore
    exact ⟨c, more, hc.trans hjk, hfc, hmore⟩

theorem exists_hexNumeral (h : Derives mayOpen n (.rule .hexNumeral) i (.success j ts)) :
    ∃ c more, i.Across (c :: spread more) j ∧ isHexDigit c = true ∧
      ∀ d ∈ more, isHexDigit d.2 = true := by
  cases h with
  | rule _ hr =>
  cases hr with
  | altLeft hdigits => exact exists_digitsOf hdigits
  | altRight _ hzero =>
    obtain ⟨c, hc, hc0, -⟩ := hzero.of_char
    obtain rfl : c = '0' := beq_iff_eq.mp hc0
    exact ⟨'0', [], hc, rfl, List.forall_mem_nil _⟩

theorem exists_decimalNumeral (h : Derives mayOpen n (.rule .decimalNumeral) i (.success j ts)) :
    ∃ c more, i.Across (c :: spread more) j ∧ c.isDigit = true ∧
      (∀ d ∈ more, d.2.isDigit = true) ∧ (c = '0' → more = []) := by
  cases h with
  | rule _ hr =>
  cases hr with
  | altLeft hdigits =>
    obtain ⟨c, more, hij, hc, hmore⟩ := exists_digitsOf hdigits
    refine ⟨c, more, hij, isDigit_of_nonzero hc, hmore, ?_⟩
    rintro rfl
    cases hc
  | altRight _ hzero =>
    obtain ⟨c, hc, hc0, -⟩ := hzero.of_char
    obtain rfl : c = '0' := beq_iff_eq.mp hc0
    exact ⟨'0', [], hc, rfl, List.forall_mem_nil _, fun _ => rfl⟩

/-- What the grammar takes for an integer is a numeral. -/
theorem exists_numeral (h : Derives mayOpen n (.rule .integerLiteral) i (.success j ts)) :
    ∃ m : Numeral, i.Across m.text j := by
  cases h with
  | rule _ hr =>
  cases hr with
  | seq hnumber hsuffix =>
  cases hnumber with
  | seq hsign hnumeral =>
  obtain ⟨sign?, hsign, hsign_mem⟩ := exists_of_opt_oneOf hsign
  obtain ⟨suffix?, hsuffix, hsuffix_mem⟩ := exists_of_opt_oneOf hsuffix
  cases hnumeral with
  | altLeft hhex =>
    cases hhex with
    | seq hmark hdigits =>
    cases hmark with
    | seq hzero hx =>
      obtain ⟨d, hd, hd0, -⟩ := hzero.of_char
      obtain rfl : d = '0' := beq_iff_eq.mp hd0
      obtain ⟨x, hx, hmem, -⟩ := hx.of_char
      obtain ⟨c, more, hij, hc, hmore⟩ := exists_hexNumeral hdigits
      refine ⟨⟨sign?, some x, c, more, suffix?, hsign_mem, ?_, hsuffix_mem, hc, hmore, ?_⟩,
        hsign.trans (((hd.trans hx).trans hij).trans hsuffix)⟩
      · rintro y ⟨⟩
        exact List.contains_iff_mem.mp hmem
      · rintro ⟨⟩
  | altRight _ hdecimal =>
    obtain ⟨c, more, hij, hc, hmore, hzero⟩ := exists_decimalNumeral hdecimal
    exact ⟨⟨sign?, none, c, more, suffix?, hsign_mem, by rintro y ⟨⟩, hsuffix_mem, hc, hmore,
      fun _ => hzero⟩, hsign.trans (hij.trans hsuffix)⟩

end Reading

/-! ## Numerals are read -/

section Lexing

variable {i j : Cursor} {f g : Char → Bool}

theorem lexes_opt_oneOf {cs : List Char} {c? : Option Char} (hij : i.Across c?.toList j)
    (hmem : ∀ c ∈ c?, c ∈ cs) (hnone : c? = none → ∀ c ∈ j.rest.head?, c ∉ cs) :
    Lexes (.opt (.oneOf cs)) i j [] := by
  intro mayOpen n
  cases c? with
  | none =>
    obtain rfl := hij.eq_of_nil
    have hfail : Fails (.oneOf cs) i.rest := (ReadsOne.char _).fails fun c hc =>
      Bool.eq_false_iff.mpr fun hc' => hnone rfl c hc (List.contains_iff_mem.mp hc')
    exact .optNone (hfail mayOpen n i.offset)
  | some c => exact .opt (.charAcross hij (List.contains_iff_mem.mpr (hmem c rfl)))

theorem lexes_spread {more : List (Nat × Char)} (hunderscore : g '_' = false)
    (hmore : ∀ d ∈ more, g d.2 = true) (hij : i.Across (spread more) j)
    (hj : ∀ c ∈ j.rest.head?, c ≠ '_' ∧ g c = false) : Lexes (.star (.further g)) i j [] := by
  intro mayOpen n
  have hskip := ReadsOne.char (· == '_')
  induction more generalizing i with
  | nil =>
    obtain rfl := hij.eq_of_nil
    have hstay : Lexes (.star (.one '_')) i i [] :=
      hskip.star (.refl i) (List.forall_mem_nil _) fun c hc => beq_eq_false_iff_ne.mpr (hj c hc).1
    have hfail : Fails (.char g) i.rest := (ReadsOne.char g).fails fun c hc => (hj c hc).2
    exact .starEnd (.seqRight (hstay mayOpen n) (hfail mayOpen n i.offset))
  | cons d more ih =>
    obtain ⟨hd, hmore⟩ := List.forall_mem_cons.mp hmore
    obtain ⟨l, hil, hlj⟩ := hij.split (List.replicate d.1 '_' ++ [d.2])
    obtain ⟨k, hik, hkl⟩ := hil.split (List.replicate d.1 '_')
    have hunderscores : Lexes (.star (.one '_')) i k [] := by
      refine hskip.star hik (fun c hc => beq_iff_eq.mpr (List.eq_of_mem_replicate hc)) ?_
      rw [hkl.1]
      rintro c ⟨⟩
      refine beq_eq_false_iff_ne.mpr fun hc => ?_
      rw [hc, hunderscore] at hd
      cases hd
    exact .starMore (.seq (hunderscores mayOpen n) (.charAcross hkl hd)) (ih hmore hlj)

theorem lexes_digitsOf {c : Char} {more : List (Nat × Char)} (hunderscore : g '_' = false)
    (hc : f c = true) (hmore : ∀ d ∈ more, g d.2 = true) (hij : i.Across (c :: spread more) j)
    (hj : ∀ d ∈ j.rest.head?, d ≠ '_' ∧ g d = false) : Lexes (.digitsOf f g) i j [] := by
  intro mayOpen n
  obtain ⟨l, hil, hlj⟩ := hij.split [c]
  exact .seq (.charAcross hil hc) (lexes_spread hunderscore hmore hlj hj mayOpen n)

theorem isNonzero_of_isDigit {c : Char} (hc : c.isDigit = true) (hzero : c ≠ '0') :
    ('1' ≤ c && c ≤ '9') = true := by
  simp only [Char.isDigit, Bool.and_eq_true, decide_eq_true_eq, ge_iff_le,
    UInt32.le_iff_toNat_le] at hc
  have hmin : 48 ≤ c.val.toNat := hc.1
  have hmax : c.val.toNat ≤ 57 := hc.2
  have hne : c.val.toNat ≠ 48 := fun h => hzero (Char.ext (UInt32.toNat_inj.mp h))
  simp only [Bool.and_eq_true, decide_eq_true_eq, Char.le_def, UInt32.le_iff_toNat_le]
  exact ⟨show 49 ≤ c.val.toNat by omega, hmax⟩

/-- The character ends the digits of a numeral: it is a suffix or closes the numeral. -/
def EndsDigits (c : Char) : Prop := c ∈ ['u', 'U'] ∨ isSolid c = false

theorem EndsDigits.not_digit {c : Char} (hc : EndsDigits c) (hex : Bool) :
    c ≠ '_' ∧ digitClass hex c = false := by
  rcases hc with hc | hc
  · simp only [List.mem_cons, List.not_mem_nil, or_false] at hc
    rcases hc with rfl | rfl <;> cases hex <;> decide
  · refine ⟨?_, (solid_digitClass hex).eq_false hc⟩
    rintro rfl
    cases hc

theorem EndsDigits.not_mark {c : Char} (hc : EndsDigits c) : ['x', 'X'].contains c = false := by
  rcases hc with hc | hc
  · simp only [List.mem_cons, List.not_mem_nil, or_false] at hc
    rcases hc with rfl | rfl <;> rfl
  · exact (@Solid.contains ['x', 'X'] rfl).eq_false hc

theorem endsDigits_of_suffix {suffix? : Option Char} (hmem : ∀ c ∈ suffix?, c ∈ ['u', 'U'])
    (hij : i.Across suffix?.toList j) (hj : Delimited j.rest) :
    ∀ c ∈ i.rest.head?, EndsDigits c := by
  intro c hc
  rw [hij.1] at hc
  cases suffix? with
  | none => exact .inr (hj c hc)
  | some d =>
    cases hc
    exact .inl (hmem c rfl)

theorem exists_lexes_decimalNumeral {c : Char} {more : List (Nat × Char)} (hc : c.isDigit = true)
    (hmore : ∀ d ∈ more, d.2.isDigit = true) (hzero : c = '0' → more = [])
    (hij : i.Across (c :: spread more) j) (hj : ∀ d ∈ j.rest.head?, EndsDigits d) :
    ∃ ts, Lexes (.rule .decimalNumeral) i j ts := by
  by_cases hc0 : c = '0'
  · -- Zero is tried last, and no further digits are.
    subst hc0
    rw [hzero rfl] at hij
    have hfail : Fails (.char fun c => '1' ≤ c && c ≤ '9') i.rest := by
      rw [hij.1]
      exact .char rfl
    exact ⟨_, fun mayOpen n => .rule (fun h => nomatch h)
      (.altRight (.seqLeft (hfail mayOpen n i.offset)) (.charAcross (f := (· == '0')) hij rfl))⟩
  · have hdigits := lexes_digitsOf (f := fun c => '1' ≤ c && c ≤ '9') rfl
      (isNonzero_of_isDigit hc hc0) hmore hij fun d hd => (hj d hd).not_digit false
    exact ⟨_, fun mayOpen n => .rule (fun h => nomatch h) (.altLeft (hdigits mayOpen n))⟩

/-- A decimal numeral is no hexadecimal one. -/
theorem hexadecimal_fails {c : Char} {more : List (Nat × Char)} (hzero : c = '0' → more = [])
    (hij : i.Across (c :: spread more) j) (hj : ∀ d ∈ j.rest.head?, EndsDigits d) :
    Fails (.one '0' ++ .oneOf ['x', 'X'] ++ .rule .hexNumeral) i.rest := by
  refine .seq ?_
  rw [hij.1]
  by_cases hc0 : c = '0'
  · subst hc0
    rw [hzero rfl]
    have hfail : Fails (.oneOf ['x', 'X']) j.rest :=
      (ReadsOne.char _).fails fun d hd => (hj d hd).not_mark
    exact fun mayOpen n o => .seqRight (.char rfl) (hfail mayOpen n _)
  · exact .seq (.char (beq_eq_false_iff_ne.mpr hc0))

end Lexing

end Grammar

namespace Literal.Numeral

variable (n : Numeral) {i j : Cursor}

/-- Behind the sign there is a digit. -/
theorem exists_body_eq : ∃ c cs, n.body = c :: cs ∧ c.isDigit = true := by
  have hfirst := n.first_isDigit
  cases hmark : n.mark? with
  | none =>
    rw [hmark] at hfirst
    exact ⟨n.first, spread n.more, by rw [body, hmark]; rfl, hfirst⟩
  | some x => exact ⟨'0', x :: n.first :: spread n.more, by rw [body, hmark]; rfl, rfl⟩

theorem exists_lexes_body (hij : i.Across n.body j) (hj : ∀ c ∈ j.rest.head?, EndsDigits c) :
    ∃ ts, Lexes (.one '0' ++ .oneOf ['x', 'X'] ++ .rule .hexNumeral <|> .rule .decimalNumeral)
      i j ts := by
  have hfirst := n.first_isDigit
  have hmore := n.more_isDigit
  rw [body] at hij
  cases hmark : n.mark? with
  | none =>
    have hzero := n.zero_alone hmark
    rw [hmark] at hfirst hmore hij
    obtain ⟨ts, hdecimal⟩ := exists_lexes_decimalNumeral hfirst hmore hzero hij hj
    have hfail := hexadecimal_fails hzero hij hj
    exact ⟨ts, fun mayOpen m => .altRight (hfail mayOpen m i.offset) (hdecimal mayOpen m)⟩
  | some x =>
    have hx := n.mark_mem x hmark
    rw [hmark] at hfirst hmore hij
    obtain ⟨l, hil, hlj⟩ := hij.split ['0', x]
    obtain ⟨k, hik, hkl⟩ := hil.split ['0']
    have hdigits := lexes_digitsOf rfl hfirst hmore hlj fun d hd => (hj d hd).not_digit true
    exact ⟨_, fun mayOpen m => .altLeft (.seq
      (.seq (.charAcross (f := (· == '0')) hik rfl)
        (.charAcross hkl (List.contains_iff_mem.mpr hx)))
      (.rule (fun h => nomatch h) (.altLeft (hdigits mayOpen m))))⟩

/-- A numeral is an integer of any text in which it is closed. -/
theorem exists_lexes (hij : i.Across n.text j) (hj : Delimited j.rest) :
    ∃ ts, Lexes (.rule .integerLiteral) i j ts := by
  obtain ⟨k, hik, hkj⟩ := hij.split n.sign?.toList
  obtain ⟨l, hkl, hlj⟩ := hkj.split n.body
  have hsign : Lexes (.opt .sign) i k [] := by
    refine lexes_opt_oneOf hik n.sign_mem fun _ c hc => ?_
    obtain ⟨d, cs, hbody, hd⟩ := n.exists_body_eq
    rw [hkl.1, hbody] at hc
    cases hc
    exact not_sign_of_isDigit hd
  have hsuffix : Lexes (.opt (.oneOf ['u', 'U'])) l j [] := by
    refine lexes_opt_oneOf hlj n.suffix_mem fun _ c hc hmem => ?_
    have hsolid := hj c hc
    simp only [List.mem_cons, List.not_mem_nil, or_false] at hmem
    rcases hmem with rfl | rfl <;> cases hsolid
  obtain ⟨ts, hbody⟩ := n.exists_lexes_body hkl (endsDigits_of_suffix n.suffix_mem hlj hj)
  exact ⟨_, fun mayOpen m => .rule (fun h => nomatch h)
    (.seq (.seq (hsign mayOpen m) (hbody mayOpen m)) (hsuffix mayOpen m))⟩

end Literal.Numeral

end Fexpr
