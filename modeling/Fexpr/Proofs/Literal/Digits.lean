import Fexpr.Proofs.Literal.Integer

/-!
# Printed numbers

The digits of a number, printed in a radix, denote the number again (`ofDigits_toDigits`). Printed
in hexadecimal they may be of any case, and padded with zeros (`Hexadecimal`).
-/

namespace Fexpr.Literal

open Grammar

/-! ## Digits of a radix -/

theorem digitValue_digitChar {d : Nat} (hd : d < 16) : digitValue d.digitChar = d := by
  revert d
  decide

theorem digitClass_digitChar (hex : Bool) {d : Nat} (hd : d < if hex then 16 else 10) :
    digitClass hex d.digitChar = true := by
  revert hex d
  decide

section Printed

variable {b : Nat} (hb : 1 < b)

include hb

/-- Printed digits are those of the numbers below the radix. -/
theorem exists_digitChar {k : Nat} {c : Char} (hc : c ∈ Nat.toDigits b k) :
    ∃ d, d < b ∧ c = d.digitChar := by
  induction k using Nat.strongRecOn with
  | ind k ih =>
    by_cases hk : k < b
    · rw [Nat.toDigits_of_lt_base hk, List.mem_singleton] at hc
      exact ⟨k, hk, hc⟩
    · rw [Nat.toDigits_of_base_le hb (Nat.le_of_not_lt hk)] at hc
      rcases List.mem_append.mp hc with hc | hc
      · exact ih (k / b) (Nat.div_lt_self (by omega) hb) hc
      · exact ⟨k % b, Nat.mod_lt k (by omega), List.mem_singleton.mp hc⟩

/-- Printed digits denote the number that is printed. -/
theorem ofDigits_toDigits (hb' : b ≤ 16) (k : Nat) :
    Nat.ofDigits b ((Nat.toDigits b k).reverse.map digitValue) = k := by
  induction k using Nat.strongRecOn with
  | ind k ih =>
    by_cases hk : k < b
    · rw [Nat.toDigits_of_lt_base hk, List.reverse_singleton, List.map_singleton,
        Nat.ofDigits_singleton, digitValue_digitChar (by omega)]
    · have hmod : k % b < b := Nat.mod_lt k (by omega)
      rw [Nat.toDigits_of_base_le hb (Nat.le_of_not_lt hk), List.reverse_append,
        List.reverse_singleton, List.singleton_append, List.map_cons, Nat.ofDigits_cons,
        ih (k / b) (Nat.div_lt_self (by omega) hb), digitValue_digitChar (by omega)]
      exact Nat.mod_add_div k b

/-- Only zero is printed with a zero in front. -/
theorem eq_nil_of_toDigits_zero (hb' : b ≤ 16) {k : Nat} {cs : List Char}
    (h : Nat.toDigits b k = '0' :: cs) : cs = [] := by
  have hzero : ∀ k cs, Nat.toDigits b k = '0' :: cs → k = 0 := by
    intro k
    induction k using Nat.strongRecOn with
    | ind k ih =>
      intro cs h
      by_cases hk : k < b
      · rw [Nat.toDigits_of_lt_base hk] at h
        have hvalue := digitValue_digitChar (show k < 16 by omega)
        rw [(List.cons.inj h).1] at hvalue
        exact hvalue.symm
      · rw [Nat.toDigits_of_base_le hb (Nat.le_of_not_lt hk)] at h
        have hne : Nat.toDigits b (k / b) ≠ [] := Nat.toDigits_ne_nil
        obtain ⟨c, ds, hds⟩ := List.exists_cons_of_ne_nil hne
        rw [hds, List.cons_append] at h
        obtain rfl : c = '0' := (List.cons.inj h).1
        have hdiv := ih (k / b) (Nat.div_lt_self (by omega) hb) ds hds
        rcases Nat.div_eq_zero_iff.mp hdiv with hb0 | hlt
        · omega
        · exact absurd hlt hk
  rw [hzero k cs h, Nat.toDigits_zero] at h
  exact (List.cons.inj h).2.symm

end Printed

/-! ## Hexadecimal digits in any case -/

/-- The digits are those of the number in hexadecimal, each in lower or upper case, with zeros in
front up to the given width. -/
def Hexadecimal (width code : Nat) (ds : List Char) : Prop :=
  ds.map Char.toLower = (Nat.toDigits 16 code).leftpad width '0'

instance (width code : Nat) (ds : List Char) : Decidable (Hexadecimal width code ds) :=
  inferInstanceAs (Decidable (_ = _))

/-- Only letters of ASCII have another case. -/
theorem toLower_cases (c : Char) : c.toNat < 128 ∨ c.toLower = c := by
  by_cases hupper : c.val ≥ 'A'.val ∧ c.val ≤ 'Z'.val
  · exact .inl (Nat.lt_of_le_of_lt (UInt32.le_iff_toNat_le.mp hupper.2) (by decide))
  · exact .inr (dif_neg hupper)

theorem isHexDigit_of_toLower {c : Char} (hc : isHexDigit c.toLower = true) :
    isHexDigit c = true := by
  rcases toLower_cases c with hlt | hsame
  · revert hc
    exact of_ascii (P := fun c => isHexDigit c.toLower = true → isHexDigit c = true)
      (by decide +kernel) hlt
  · rwa [hsame] at hc

theorem digitValue_toLower (c : Char) : digitValue c.toLower = digitValue c := by
  have htwice : c.toLower.toLower = c.toLower := by
    rcases toLower_cases c with hlt | hsame
    · exact of_ascii (P := fun c => c.toLower.toLower = c.toLower) (by decide +kernel) hlt
    · rw [hsame, hsame]
  rw [digitValue, htwice, digitValue]

namespace Hexadecimal

variable {width code : Nat} {ds : List Char}

theorem isHexDigit (h : Hexadecimal width code ds) : ∀ c ∈ ds, isHexDigit c = true := by
  intro c hc
  refine isHexDigit_of_toLower ?_
  have hmem : c.toLower ∈ (Nat.toDigits 16 code).leftpad width '0' :=
    h ▸ List.mem_map.mpr ⟨c, hc, rfl⟩
  rcases List.mem_append.mp hmem with hzero | hdigit
  · rw [List.eq_of_mem_replicate hzero]
    rfl
  · obtain ⟨d, hd, hcd⟩ := exists_digitChar (by decide) hdigit
    rw [hcd]
    exact digitClass_digitChar true hd

/-- The digits denote the number. -/
theorem ofDigits (h : Hexadecimal width code ds) :
    Nat.ofDigits 16 (ds.reverse.map digitValue) = code := by
  have hlower : ds.reverse.map digitValue = (ds.map Char.toLower).reverse.map digitValue := by
    rw [← List.map_reverse, List.map_map]
    exact List.map_congr_left fun c _ => (digitValue_toLower c).symm
  rw [hlower, h, List.leftpad, List.reverse_append, List.reverse_replicate, List.map_append,
    List.map_replicate, show digitValue '0' = 0 from rfl, Nat.ofDigits_append_replicate_zero,
    ofDigits_toDigits (by decide) (by decide)]

/-- If the number fits into the width, there are as many digits. -/
theorem length (h : Hexadecimal width code ds) (hwidth : 0 < width) (hcode : code < 16 ^ width) :
    ds.length = width := by
  have hle := (Nat.length_toDigits_le_iff (b := 16) (by decide) hwidth).mpr hcode
  rw [← List.length_map (f := Char.toLower), h, List.length_leftpad]
  omega

end Hexadecimal

/-! ## Numerals of printed numbers -/

theorem spread_zero (ds : List Char) : spread (ds.map fun d => (0, d)) = ds := by
  induction ds with
  | nil => rfl
  | cons d ds ih =>
    rw [spread] at ih ⊢
    rw [List.map_cons, List.flatMap_cons, ih]
    rfl

/-- The digits that are printed in a radix are those of a numeral with any sign, and with the suffix
or without it. -/
theorem exists_printed (mark? sign? suffix? : Option Char) (hmark : ∀ c ∈ mark?, c ∈ ['x', 'X'])
    (hsign : ∀ c ∈ sign?, c ∈ ['+', '-']) (hsuffix : ∀ c ∈ suffix?, c ∈ ['u', 'U'])
    {ds : List Char} (hne : ds ≠ []) (hds : ∀ c ∈ ds, digitClass mark?.isSome c = true)
    (hzero : mark? = none → ∀ cs, ds = '0' :: cs → cs = []) :
    ∃ n : Numeral, n.text = sign?.toList ++ (markText mark? ++ ds ++ suffix?.toList) ∧
      n.isNegative = (sign? == some '-') ∧ n.isUnsigned = suffix?.isSome ∧
      n.magnitude = Nat.ofDigits (if mark?.isSome then 16 else 10) (ds.reverse.map digitValue) := by
  obtain ⟨c, cs, rfl⟩ := List.exists_cons_of_ne_nil hne
  obtain ⟨hc, hcs⟩ := List.forall_mem_cons.mp hds
  refine ⟨⟨sign?, mark?, c, cs.map fun d => (0, d), suffix?, hsign, hmark, hsuffix, hc, ?_, ?_⟩,
    ?_, rfl, rfl, ?_⟩
  · intro d hd
    obtain ⟨e, he, rfl⟩ := List.mem_map.mp hd
    exact hcs e he
  · rintro hmark rfl
    rw [hzero hmark cs rfl, List.map_nil]
  · simp only [Numeral.text, Numeral.body, spread_zero]
  · have hdigits : (cs.map fun d => ((0 : Nat), d)).map Prod.snd = cs := by
      rw [List.map_map]
      exact List.map_id cs
    simp only [Numeral.magnitude, Numeral.digits, Numeral.radix, hdigits]

end Fexpr.Literal
