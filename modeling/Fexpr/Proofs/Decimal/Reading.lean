import Fexpr.Decimal.Read
import Fexpr.Proofs.Literal.Integer

/-!
# Decimals as they are written

`Parts` has the parts of a decimal: a sign, digits with or without a point among them, and a power
of ten. There is a digit on one side of the point. Reading the text of such parts gives the number
that they denote (`Parts.read?_text`). Besides these texts only the names of the infinities and of
the number that is none are read, with or without a sign (`read?_isSome_iff`).
-/

namespace Fexpr.Decimal

open Literal (digitValue splitSign splitSign_toList_append of_ascii ofDigits_reverse_cons)

/-! ## Digits -/

/-- The number that digits denote. -/
def valueOf (ds : List Char) : Nat := Nat.ofDigits 10 (ds.reverse.map digitValue)

theorem toNat_sub_eq_digitValue {c : Char} (hc : c.isDigit = true) :
    c.toNat - 0x30 = digitValue c := by
  have hlt : c.toNat < 128 := @Literal.toNat_lt_of_digitClass false c hc
  revert hc
  exact of_ascii (P := fun c => c.isDigit = true → c.toNat - 0x30 = digitValue c)
    (by decide +kernel) hlt

theorem natOfDigits_eq {ds : List Char} (h : ∀ c ∈ ds, c.isDigit = true) :
    natOfDigits ds = valueOf ds := by
  have hfrom : ∀ m, ds.foldl (fun n c => n * 10 + (c.toNat - 0x30)) m =
      m * 10 ^ ds.length + valueOf ds := by
    unfold valueOf
    induction ds with
    | nil => intro m; simp
    | cons c ds ih =>
      obtain ⟨hc, hds⟩ := List.forall_mem_cons.mp h
      intro m
      rw [List.foldl_cons, ih hds, ofDigits_reverse_cons, toNat_sub_eq_digitValue hc]
  rw [natOfDigits, hfrom, Nat.zero_mul, Nat.zero_add]

/-- Digits end where something else starts. -/
theorem takeWhile_isDigit_append {ds rest : List Char} (hds : ∀ c ∈ ds, c.isDigit = true)
    (hrest : ∀ c ∈ rest.head?, c.isDigit = false) :
    (ds ++ rest).takeWhile Char.isDigit = ds ∧ (ds ++ rest).dropWhile Char.isDigit = rest := by
  rw [List.takeWhile_append_of_pos hds, List.dropWhile_append_of_pos hds]
  cases rest with
  | nil => simp
  | cons c rest => simp [hrest c rfl]

/-! ## Signs -/

/-- Every text has a sign in front or is taken to have none. -/
theorem exists_splitSign (cs : List Char) : ∃ (sign? : Option Char) (rest : List Char),
    (∀ c ∈ sign?, c ∈ ['+', '-']) ∧ cs = sign?.toList ++ rest ∧
      splitSign cs = (sign? == some '-', rest) := by
  unfold splitSign
  split
  next rest => exact ⟨some '-', rest, by simp, rfl, rfl⟩
  next rest => exact ⟨some '+', rest, by simp, rfl, rfl⟩
  next => exact ⟨none, cs, by simp, rfl, rfl⟩

/-! ## Powers of ten -/

/-- A power of ten behind the digits: a mark, a sign and at least one digit. -/
structure Power where
  /-- The mark. -/
  mark : Char
  /-- The sign. -/
  sign? : Option Char
  /-- The digits. -/
  digits : List Char
  mark_mem : mark ∈ ['e', 'E']
  sign_mem : ∀ c ∈ sign?, c ∈ ['+', '-']
  digits_ne_nil : digits ≠ []
  digits_isDigit : ∀ c ∈ digits, c.isDigit = true

namespace Power

variable (e : Power)

/-- The text of a power. -/
def text : List Char := e.mark :: (e.sign?.toList ++ e.digits)

/-- The power itself. -/
def value : Int := if e.sign? == some '-' then -(valueOf e.digits : Int) else valueOf e.digits

theorem splitSign_text :
    splitSign (e.sign?.toList ++ e.digits) = (e.sign? == some '-', e.digits) := by
  refine splitSign_toList_append e.sign_mem fun c hc => ?_
  exact Grammar.not_sign_of_isDigit (e.digits_isDigit c (List.mem_of_mem_head? hc))

end Power

/-- The power is read behind its mark. -/
theorem exponent?_cons (mark : Char) (cs : List Char) :
    exponent? (mark :: cs) =
      if mark ≠ 'e' ∧ mark ≠ 'E' then none
      else if (splitSign cs).2.isEmpty || !(splitSign cs).2.all Char.isDigit then none
      else some (if (splitSign cs).1 then -(natOfDigits (splitSign cs).2 : Int)
        else natOfDigits (splitSign cs).2) := rfl

theorem exponent?_elim_text (power? : Option Power) :
    exponent? (power?.elim [] Power.text) = some (power?.elim 0 Power.value) := by
  cases power? with
  | none => rfl
  | some e =>
    have hmark := e.mark_mem
    have hall : e.digits.all Char.isDigit = true := List.all_eq_true.mpr e.digits_isDigit
    have hempty : e.digits.isEmpty = false := by simp [e.digits_ne_nil]
    simp only [List.mem_cons, List.not_mem_nil, or_false] at hmark
    rw [Option.elim_some, Power.text, exponent?_cons, e.splitSign_text, if_neg (by tauto), hall,
      hempty, if_neg (by decide), natOfDigits_eq e.digits_isDigit]
    rfl

theorem exists_power {cs : List Char} (h : (exponent? cs).isSome = true) :
    ∃ power? : Option Power, cs = power?.elim [] Power.text := by
  cases cs with
  | nil => exact ⟨none, rfl⟩
  | cons mark cs =>
    obtain ⟨sign?, ds, hsign, rfl, hsplit⟩ := exists_splitSign cs
    rw [exponent?_cons, hsplit] at h
    by_cases hmark : mark ≠ 'e' ∧ mark ≠ 'E'
    · rw [if_pos hmark] at h
      cases h
    · rw [if_neg hmark] at h
      by_cases hds : (ds.isEmpty || !ds.all Char.isDigit) = true
      · rw [if_pos hds] at h
        cases h
      · have hmem : mark ∈ ['e', 'E'] := by
          simp only [List.mem_cons, List.not_mem_nil, or_false]
          tauto
        simp only [Bool.or_eq_true, Bool.not_eq_true', not_or, Bool.not_eq_false,
          List.isEmpty_iff] at hds
        exact ⟨some ⟨mark, sign?, ds, hmem, hsign, hds.1, List.all_eq_true.mp hds.2⟩, rfl⟩

/-! ## Decimals -/

/-- The digits behind a point, if there is one, and what follows them. -/
def splitPoint : List Char → List Char × List Char
  | '.' :: cs => (cs.takeWhile Char.isDigit, cs.dropWhile Char.isDigit)
  | cs => ([], cs)

theorem decimal?_eq (cs : List Char) :
    decimal? cs =
      if (cs.takeWhile Char.isDigit).isEmpty &&
          (splitPoint (cs.dropWhile Char.isDigit)).1.isEmpty then none
      else (exponent? (splitPoint (cs.dropWhile Char.isDigit)).2).map fun e =>
        ⟨natOfDigits (cs.takeWhile Char.isDigit ++ (splitPoint (cs.dropWhile Char.isDigit)).1),
          e - (splitPoint (cs.dropWhile Char.isDigit)).1.length⟩ := rfl

/-- What comes behind the point and the digits around it. -/
def Follows (places? : Option (List Char)) (rest : List Char) : Prop :=
  ∀ c ∈ rest.head?, c.isDigit = false ∧ (places? = none → c ≠ '.')

section Append

variable {whole rest : List Char} {places? : Option (List Char)}

theorem splitPoint_append (hplaces : ∀ c ∈ places?.getD [], c.isDigit = true)
    (hrest : Follows places? rest) :
    splitPoint (places?.elim [] ('.' :: ·) ++ rest) = (places?.getD [], rest) := by
  cases places? with
  | none =>
    show splitPoint rest = ([], rest)
    unfold splitPoint
    split
    next => exact absurd rfl ((hrest '.' rfl).2 rfl)
    next => rfl
  | some places =>
    obtain ⟨htake, hdrop⟩ := takeWhile_isDigit_append hplaces fun c hc => (hrest c hc).1
    exact Prod.ext htake hdrop

/-- A decimal is read in three parts. -/
theorem decimal?_append (hwhole : ∀ c ∈ whole, c.isDigit = true)
    (hplaces : ∀ c ∈ places?.getD [], c.isDigit = true) (hrest : Follows places? rest) :
    decimal? (whole ++ (places?.elim [] ('.' :: ·) ++ rest)) =
      if whole ++ places?.getD [] = [] then none
      else (exponent? rest).map fun e =>
        ⟨valueOf (whole ++ places?.getD []), e - (places?.getD []).length⟩ := by
  have hend : ∀ c ∈ (places?.elim [] ('.' :: ·) ++ rest).head?, c.isDigit = false := by
    intro c hc
    cases places? with
    | none => exact (hrest c hc).1
    | some places =>
      cases hc
      rfl
  obtain ⟨htake, hdrop⟩ := takeWhile_isDigit_append hwhole hend
  rw [decimal?_eq, htake, hdrop, splitPoint_append hplaces hrest,
    natOfDigits_eq (List.forall_mem_append.mpr ⟨hwhole, hplaces⟩)]
  exact if_congr (by simp) rfl rfl

end Append

/-- Every text falls into three parts. -/
theorem exists_append (cs : List Char) :
    ∃ (whole : List Char) (places? : Option (List Char)) (rest : List Char),
      (∀ c ∈ whole, c.isDigit = true) ∧ (∀ c ∈ places?.getD [], c.isDigit = true) ∧
        Follows places? rest ∧ cs = whole ++ (places?.elim [] ('.' :: ·) ++ rest) := by
  have hwhole := List.all_eq_true.mp (@List.all_takeWhile _ Char.isDigit cs)
  have hcs := (List.takeWhile_append_dropWhile (p := Char.isDigit) (l := cs)).symm
  have hhead : ∀ {c : Char} {ds : List Char}, c ∈ (ds.dropWhile Char.isDigit).head? →
      c.isDigit = false := Grammar.eq_false_of_mem_head?_dropWhile
  -- Only a point at the end of the first digits is one; a second point is left in the rest.
  by_cases hpoint : (cs.dropWhile Char.isDigit).head? = some '.'
  · obtain ⟨more, hmore⟩ := List.head?_eq_some_iff.mp hpoint
    have hplaces := List.all_eq_true.mp (@List.all_takeWhile _ Char.isDigit more)
    refine ⟨_, some (more.takeWhile Char.isDigit), more.dropWhile Char.isDigit, hwhole, hplaces,
      fun c hc => ⟨hhead hc, by simp⟩, ?_⟩
    rw [Option.elim_some, List.cons_append, List.takeWhile_append_dropWhile, ← hmore]
    exact hcs
  · refine ⟨_, none, cs.dropWhile Char.isDigit, hwhole, List.forall_mem_nil _,
      fun c hc => ⟨hhead hc, ?_⟩, hcs⟩
    rintro - rfl
    exact hpoint hc

/-- The parts of a decimal. -/
structure Parts where
  /-- The sign. -/
  sign? : Option Char
  /-- The digits before the point. -/
  whole : List Char
  /-- The digits behind the point, if there is one. -/
  places? : Option (List Char)
  /-- The power of ten. -/
  power? : Option Power
  sign_mem : ∀ c ∈ sign?, c ∈ ['+', '-']
  whole_isDigit : ∀ c ∈ whole, c.isDigit = true
  places_isDigit : ∀ c ∈ places?.getD [], c.isDigit = true
  /-- There is a digit on one side of the point. -/
  digits_ne_nil : whole ++ places?.getD [] ≠ []

namespace Parts

variable (d : Parts)

/-- The text without the sign. -/
def body : List Char :=
  d.whole ++ (d.places?.elim [] ('.' :: ·) ++ d.power?.elim [] Power.text)

/-- The text of a decimal. -/
def text : List Char := d.sign?.toList ++ d.body

/-- The digits, and the power of ten that the last of them stands for. -/
def scientific : Scientific :=
  ⟨valueOf (d.whole ++ d.places?.getD []),
    d.power?.elim 0 Power.value - (d.places?.getD []).length⟩

/-- The nearest float. -/
def value : Float :=
  if d.sign? == some '-' then -d.scientific.toFloat else d.scientific.toFloat

/-- Digits and the point are followed by the mark of the power, if by anything. -/
theorem follows_power (power? : Option Power) (places? : Option (List Char)) :
    Follows places? (power?.elim [] Power.text) := by
  intro c hc
  cases power? with
  | none => cases hc
  | some e =>
    have hmark := e.mark_mem
    obtain rfl : e.mark = c := Option.some.inj hc
    simp only [List.mem_cons, List.not_mem_nil, or_false] at hmark
    rcases hmark with hmark | hmark <;> rw [hmark] <;> simp

theorem decimal?_body : decimal? d.body = some d.scientific := by
  rw [body, decimal?_append d.whole_isDigit d.places_isDigit (follows_power _ _),
    if_neg d.digits_ne_nil, exponent?_elim_text, Option.map_some, scientific]

/-- A decimal starts with a digit or the point. -/
theorem exists_body_eq : ∃ c cs, d.body = c :: cs ∧ (c.isDigit = true ∨ c = '.') := by
  have hne := d.digits_ne_nil
  rw [body]
  cases hwhole : d.whole with
  | nil =>
    rw [hwhole] at hne
    cases hplaces : d.places? with
    | none =>
      rw [hplaces] at hne
      exact absurd rfl hne
    | some places => exact ⟨'.', _, rfl, .inr rfl⟩
  | cons c cs =>
    have hc : c ∈ d.whole := by
      rw [hwhole]
      exact List.mem_cons_self
    exact ⟨c, _, rfl, .inl (d.whole_isDigit c hc)⟩

end Parts

theorem decimal?_isSome_iff {cs : List Char} :
    (decimal? cs).isSome = true ↔ ∃ d : Parts, d.body = cs := by
  constructor
  · intro h
    obtain ⟨whole, places?, rest, hwhole, hplaces, hrest, rfl⟩ := exists_append cs
    rw [decimal?_append hwhole hplaces hrest] at h
    by_cases hdigits : whole ++ places?.getD [] = []
    · rw [if_pos hdigits] at h
      cases h
    · rw [if_neg hdigits, Option.isSome_map] at h
      obtain ⟨power?, rfl⟩ := exists_power h
      exact ⟨⟨none, whole, places?, power?, by simp, hwhole, hplaces, hdigits⟩, rfl⟩
  · rintro ⟨d, rfl⟩
    rw [d.decimal?_body]
    rfl

/-! ## Names -/

/-- The text names an infinity or the number that is none. -/
def IsName (cs : List Char) : Prop :=
  cs.map Char.toLower ∈
    [['i', 'n', 'f'], ['i', 'n', 'f', 'i', 'n', 'i', 't', 'y'], ['n', 'a', 'n']]

theorem IsName.head_mem {c : Char} {cs : List Char} (h : IsName (c :: cs)) :
    c.toLower ∈ ['i', 'n'] := by
  simp only [IsName, List.map_cons, List.mem_cons, List.cons.injEq, List.not_mem_nil,
    or_false] at h ⊢
  tauto

theorem unsigned?_of_not_isName {cs : List Char} (h : ¬ IsName cs) :
    unsigned? cs = (decimal? cs).map Scientific.toFloat := by
  simp only [IsName, List.mem_cons, List.not_mem_nil, or_false, not_or] at h
  rw [unsigned?, if_neg (by tauto), if_neg (by tauto)]

theorem unsigned?_isSome_iff {cs : List Char} :
    (unsigned? cs).isSome = true ↔ IsName cs ∨ ∃ d : Parts, d.body = cs := by
  by_cases hname : IsName cs
  · refine ⟨fun _ => .inl hname, fun _ => ?_⟩
    simp only [IsName, List.mem_cons, List.not_mem_nil, or_false] at hname
    rw [unsigned?]
    rcases hname with hname | hname | hname <;> rw [hname] <;> rfl
  · rw [unsigned?_of_not_isName hname, Option.isSome_map, decimal?_isSome_iff]
    exact (or_iff_right hname).symm

theorem Parts.not_isName_body (d : Parts) : ¬ IsName d.body := by
  obtain ⟨c, cs, hbody, hc⟩ := d.exists_body_eq
  rw [hbody]
  intro hname
  have hmem := hname.head_mem
  rcases hc with hc | rfl
  · have hlt : c.toNat < 128 := @Literal.toNat_lt_of_digitClass false c hc
    exact of_ascii (P := fun c => c.isDigit = true → c.toLower ∉ ['i', 'n']) (by decide +kernel)
      hlt hc hmem
  · revert hmem
    decide

/-! ## Floats -/

theorem read?_eq (cs : List Char) :
    read? cs = (unsigned? (splitSign cs).2).map fun x => if (splitSign cs).1 then -x else x := by
  unfold read? splitSign
  split <;> simp

/-- The parts of a decimal are read back. -/
theorem Parts.read?_text (d : Parts) : read? d.text = some d.value := by
  have hsplit : splitSign d.text = (d.sign? == some '-', d.body) := by
    refine splitSign_toList_append d.sign_mem fun c hc => ?_
    obtain ⟨c', cs, hbody, hstart⟩ := d.exists_body_eq
    rw [hbody] at hc
    obtain rfl : c' = c := Option.some.inj hc
    rcases hstart with hdigit | rfl
    · exact Grammar.not_sign_of_isDigit hdigit
    · decide
  rw [read?_eq, hsplit, unsigned?_of_not_isName d.not_isName_body, d.decimal?_body]
  rfl

/-- Exactly decimals and names are read. -/
theorem read?_isSome_iff {cs : List Char} :
    (read? cs).isSome = true ↔ (∃ d : Parts, d.text = cs) ∨
      ∃ (sign? : Option Char) (name : List Char), (∀ c ∈ sign?, c ∈ ['+', '-']) ∧ IsName name ∧
        cs = sign?.toList ++ name := by
  constructor
  · intro h
    obtain ⟨sign?, rest, hsign, rfl, hsplit⟩ := exists_splitSign cs
    rw [read?_eq, hsplit, Option.isSome_map, unsigned?_isSome_iff] at h
    rcases h with hname | ⟨d, rfl⟩
    · exact .inr ⟨sign?, rest, hsign, hname, rfl⟩
    · exact .inl ⟨{ d with sign? := sign?, sign_mem := hsign }, rfl⟩
  · rintro (⟨d, rfl⟩ | ⟨sign?, name, hsign, hname, rfl⟩)
    · rw [d.read?_text]
      rfl
    · have hhead : ∀ c ∈ name.head?, c ∉ ['+', '-'] := by
        intro c hc hmem
        obtain ⟨cs, rfl⟩ := List.head?_eq_some_iff.mp hc
        have hlower := hname.head_mem
        simp only [List.mem_cons, List.not_mem_nil, or_false] at hmem
        rcases hmem with rfl | rfl <;> revert hlower <;> decide
      rw [read?_eq, splitSign_toList_append hsign hhead, Option.isSome_map, unsigned?_isSome_iff]
      exact .inl hname

end Fexpr.Decimal
