import Fexpr.Error
import Fexpr.Proofs.Decimal.Reading
import Fexpr.Proofs.Literal.Digits
import Fexpr.Proofs.Text.Quoted

/-!
# Patterns of arities

`Arity.Denotes` says which texts stand for which arity: a mark, nothing at all, or a number of
64 bits, which may have a plus in front. A pattern is trimmed before it is read. It is accepted if
what is left stands for an arity (`Arity.ofPattern_eq_ok_iff`), and otherwise the error has the
pattern with its blanks (`Arity.ofPattern_eq_error_iff`) and shows it (`Error.render_badPattern_inj`).
What an arity is printed as stands for it, so it is read back from between any blanks
(`Arity.ofPattern_pattern_iff`).
-/

namespace Fexpr

/-! ## Trimming -/

namespace Text

/-- `core` is what is left of `cs` without the blanks at both ends. -/
structure Trims (cs core : List Char) : Prop where
  around : ∃ pre post, cs = pre ++ (core ++ post) ∧ ∀ c ∈ pre ++ post, isBlank c = true
  tight : core ≠ [] → Tight core

theorem dropWhile_isBlank_of_head {cs : List Char} (h : ∀ c ∈ cs.head?, isBlank c = false) :
    cs.dropWhile isBlank = cs := by
  cases cs with
  | nil => rfl
  | cons c cs => exact List.dropWhile_cons_of_neg (by simp [h c rfl])

theorem isBlank_of_head?_dropWhile (cs : List Char) {c : Char}
    (h : c ∈ (cs.dropWhile isBlank).head?) : isBlank c = false := by
  have hnot := List.head?_dropWhile_not isBlank cs
  rw [Option.mem_def.mp h] at hnot
  exact hnot

/-- A text is what is left of it without the blanks at its end, and then these blanks. -/
theorem trimEnd_append_blanks (cs : List Char) :
    cs = trimEnd cs ++ (cs.reverse.takeWhile isBlank).reverse := by
  rw [trimEnd, ← List.reverse_append, List.takeWhile_append_dropWhile, List.reverse_reverse]

theorem trims_trim (cs : List Char) : Trims cs (trim cs) := by
  have hend := trimEnd_append_blanks (cs.dropWhile isBlank)
  constructor
  · refine ⟨cs.takeWhile isBlank, ((cs.dropWhile isBlank).reverse.takeWhile isBlank).reverse,
      ?_, List.forall_mem_append.mpr ⟨fun c hc => List.mem_takeWhile_imp hc, fun c hc => ?_⟩⟩
    · rw [trim, ← hend, List.takeWhile_append_dropWhile]
    · exact List.mem_takeWhile_imp (List.mem_reverse.mp hc)
  · intro hne
    refine ⟨hne, fun c hc => ?_, fun c hc => ?_⟩
    · -- The first character that is left is the one at which dropping blanks has stopped.
      apply isBlank_of_head?_dropWhile cs
      rw [hend, List.head?_append, ← trim, Option.mem_def.mp hc]
      rfl
    · rw [trim, trimEnd, List.getLast?_reverse] at hc
      exact isBlank_of_head?_dropWhile _ hc

/-- There is only one such text. -/
theorem Trims.trim_eq {cs core : List Char} (h : Trims cs core) : trim cs = core := by
  obtain ⟨⟨pre, post, rfl, hblank⟩, hcore⟩ := h
  obtain ⟨hpre, hpost⟩ := List.forall_mem_append.mp hblank
  rw [trim, List.dropWhile_append_of_pos hpre]
  by_cases hne : core = []
  · -- All is blank.
    rw [hne, List.nil_append, List.dropWhile_eq_nil_iff.mpr hpost]
    rfl
  · have ht := hcore hne
    have hhead : ∀ c ∈ (core ++ post).head?, isBlank c = false := by
      obtain ⟨d, ds, rfl⟩ := List.exists_cons_of_ne_nil hne
      exact ht.head
    have hlast : ∀ c ∈ core.reverse.head?, isBlank c = false := by
      rw [List.head?_reverse]
      exact ht.last
    rw [dropWhile_isBlank_of_head hhead, trimEnd, List.reverse_append,
      List.dropWhile_append_of_pos fun c hc => hpost c (List.mem_reverse.mp hc),
      dropWhile_isBlank_of_head hlast, List.reverse_reverse]

end Text

/-! ## Numbers -/

namespace Literal

open Decimal (valueOf)

theorem isDigit_of_digit? {c : Char} {d : Nat} (h : digit? 10 c = some d) : c.isDigit = true := by
  obtain ⟨hd, hlt⟩ := Option.filter_eq_some_iff.mp h
  have hlt : d < 10 := of_decide_eq_true hlt
  split_ifs at hd with hdigit hlower hupper
  · exact Bool.and_eq_true_iff.mpr ⟨decide_eq_true hdigit.1, decide_eq_true hdigit.2⟩
  -- A letter has a value of at least ten.
  all_goals
    cases hd
    omega

theorem isDigit_of_digitsFrom? {cs : List Char} {m n : Nat} (h : digitsFrom? 10 m cs = some n) :
    ∀ c ∈ cs, c.isDigit = true := by
  induction cs generalizing m with
  | nil => exact List.forall_mem_nil _
  | cons c cs ih =>
    obtain ⟨d, hd, hrest⟩ := Option.bind_eq_some_iff.mp h
    exact List.forall_mem_cons.mpr ⟨isDigit_of_digit? hd, ih hrest⟩

theorem digitsFrom?_zero_eq {ds : List Char} (h : ∀ c ∈ ds, c.isDigit = true) :
    digitsFrom? 10 0 ds = some (valueOf ds) := by
  have hvalue : ∀ c ∈ ds, digit? 10 c = some (digitValue c) :=
    fun c hc => @digit?_eq false c (h c hc)
  rw [digitsFrom?_eq hvalue, Nat.zero_mul, Nat.zero_add, valueOf]

/-- A plus in front is skipped. -/
theorem word?_toList_append {radix : Nat} {sign? : Option Char} {ds : List Char}
    (hsign : ∀ c ∈ sign?, c = '+') (hds : sign? = none → ds.head? ≠ some '+') :
    word? radix (sign?.toList ++ ds) =
      if ds.isEmpty then none else (digitsFrom? radix 0 ds).filter (· < UInt64.size) := by
  cases sign? with
  | none =>
    rw [Option.toList_none, List.nil_append, word?, if_neg (hds rfl)]
  | some c =>
    obtain rfl := hsign c rfl
    rfl

/-- Every text has a plus in front or is taken to have none. -/
theorem exists_plus (cs : List Char) : ∃ (sign? : Option Char) (ds : List Char),
    cs = sign?.toList ++ ds ∧ (∀ c ∈ sign?, c = '+') ∧ (sign? = none → ds.head? ≠ some '+') := by
  by_cases h : cs.head? = some '+'
  · obtain ⟨ds, rfl⟩ := List.head?_eq_some_iff.mp h
    exact ⟨some '+', ds, rfl, by simp, by simp⟩
  · exact ⟨none, cs, rfl, by simp, fun _ => h⟩

/-- The numbers of 64 bits are those with digits that denote one, after an optional plus. -/
theorem word?_eq_some_iff {cs : List Char} {n : Nat} :
    word? 10 cs = some n ↔ ∃ (sign? : Option Char) (ds : List Char), cs = sign?.toList ++ ds ∧
      (∀ c ∈ sign?, c = '+') ∧ ds ≠ [] ∧ (∀ c ∈ ds, c.isDigit = true) ∧ valueOf ds = n ∧
      n < 2 ^ 64 := by
  constructor
  · intro h
    obtain ⟨sign?, ds, rfl, hsign, hplus⟩ := exists_plus cs
    rw [word?_toList_append hsign hplus] at h
    by_cases hne : ds = []
    · rw [hne] at h
      cases h
    · rw [if_neg (by simpa using hne)] at h
      obtain ⟨hn, hlt⟩ := Option.filter_eq_some_iff.mp h
      have hdigits := isDigit_of_digitsFrom? hn
      rw [digitsFrom?_zero_eq hdigits] at hn
      exact ⟨sign?, ds, rfl, hsign, hne, hdigits, Option.some.inj hn, of_decide_eq_true hlt⟩
  · rintro ⟨sign?, ds, rfl, hsign, hne, hdigits, rfl, hlt⟩
    have hplus : ds.head? ≠ some '+' := fun h => by
      have := hdigits '+' (List.mem_of_mem_head? h)
      cases this
    rw [word?_toList_append hsign fun _ => hplus, if_neg (by simpa using hne),
      digitsFrom?_zero_eq hdigits]
    exact Option.filter_some_pos (decide_eq_true hlt)

end Literal

/-! ## Patterns -/

namespace Arity

open Decimal (valueOf)

/-- The text, without blanks around it, stands for the arity. A plus stands for one or more, and in
front of digits it is a sign. -/
inductive Denotes : List Char → Arity → Prop
  | nothing : Denotes [] any
  | star : Denotes ['*'] any
  | plus : Denotes ['+'] oneOrMore
  | question : Denotes ['?'] zeroOrOne
  | number {sign? : Option Char} {ds : List Char} (hsign : ∀ c ∈ sign?, c = '+') (hne : ds ≠ [])
    (hds : ∀ c ∈ ds, c.isDigit = true) (hsize : valueOf ds < 2 ^ 64) :
    Denotes (sign?.toList ++ ds) (exactly (valueOf ds))

/-- A number that is asked for has 64 bits. -/
def Fits : Arity → Prop
  | exactly n => n < 2 ^ 64
  | _ => True

instance : DecidablePred Fits
  | exactly n => inferInstanceAs (Decidable (n < 2 ^ 64))
  | oneOrMore | zeroOrOne | any => .isTrue trivial

theorem Denotes.fits {cs : List Char} {a : Arity} (h : Denotes cs a) : a.Fits := by
  cases h with
  | number _ _ _ hsize => exact hsize
  | _ => trivial

/-- Where there is a digit, the pattern is a number. -/
theorem ofPattern?_of_isDigit {p : String} {c : Char} (hc : c ∈ Text.trim p.toList)
    (hdigit : c.isDigit = true) :
    ofPattern? p = (Literal.word? 10 (Text.trim p.toList)).map exactly := by
  unfold ofPattern?
  split
  next h => simp [h] at hc
  next h => simp_all
  next h => simp_all
  next h => simp_all
  next => rfl

theorem ofPattern?_eq_some_iff {p : String} {a : Arity} :
    ofPattern? p = some a ↔ Denotes (Text.trim p.toList) a := by
  constructor
  · intro h
    unfold ofPattern? at h
    split at h
    next hcs =>
      cases h
      exact hcs ▸ .nothing
    next hcs =>
      cases h
      exact hcs ▸ .star
    next hcs =>
      cases h
      exact hcs ▸ .plus
    next hcs =>
      cases h
      exact hcs ▸ .question
    next =>
      obtain ⟨n, hn, rfl⟩ := Option.map_eq_some_iff.mp h
      obtain ⟨sign?, ds, hcs, hsign, hne, hds, rfl, hsize⟩ := Literal.word?_eq_some_iff.mp hn
      exact hcs ▸ .number hsign hne hds hsize
  · intro h
    generalize hcs : Text.trim p.toList = cs at h
    cases h with
    | nothing | star | plus | question =>
      simp [ofPattern?, hcs]
    | @number sign? ds hsign hne hds hsize =>
      obtain ⟨c, ds', hcons⟩ := List.exists_cons_of_ne_nil hne
      have hc : c ∈ ds := by simp [hcons]
      rw [ofPattern?_of_isDigit (hcs ▸ List.mem_append_right _ hc) (hds c hc), hcs,
        Literal.word?_eq_some_iff.mpr ⟨sign?, ds, rfl, hsign, hne, hds, rfl, hsize⟩]
      rfl

/-- The patterns of an arity are the texts for it, with blanks around them. -/
theorem ofPattern_eq_ok_iff {p : String} {a : Arity} :
    ofPattern p = .ok a ↔ ∃ core, Text.Trims p.toList core ∧ Denotes core a := by
  have hok : ofPattern p = .ok a ↔ ofPattern? p = some a := by
    rw [ofPattern]
    cases ofPattern? p <;> simp
  rw [hok, ofPattern?_eq_some_iff]
  constructor
  · exact fun h => ⟨_, Text.trims_trim _, h⟩
  · rintro ⟨core, hcore, h⟩
    exact hcore.trim_eq ▸ h

example : ofPattern " +07\t" = .ok (.exactly 7) ∧ ofPattern " +\t" = .ok .oneOrMore := ⟨rfl, rfl⟩

/-- What is no text for an arity is rejected, and the error has all of it. -/
theorem ofPattern_eq_error_iff {p : String} {e : Error} :
    ofPattern p = .error e ↔
      e = .badPattern p ∧ ∀ core a, Text.Trims p.toList core → ¬ Denotes core a := by
  have herror : ofPattern p = .error e ↔ e = .badPattern p ∧ ∀ a, ofPattern p ≠ .ok a := by
    rw [ofPattern]
    cases ofPattern? p with
    | none => simp [eq_comm]
    | some a => simp
  simp only [herror, ne_eq, ofPattern_eq_ok_iff, not_exists, not_and]
  exact and_congr_right fun _ => forall_comm

/-! ## Printed patterns -/

theorem denotes_pattern {a : Arity} (h : a.Fits) : Denotes a.pattern.toList a := by
  cases a with
  | oneOrMore => exact .plus
  | zeroOrOne => exact .question
  | any => exact .star
  | exactly n =>
    have hdigits : ∀ c ∈ Nat.toDigits 10 n, c.isDigit = true := by
      intro c hc
      obtain ⟨d, hd, rfl⟩ := Literal.exists_digitChar (by decide) hc
      exact Literal.digitClass_digitChar false hd
    have hvalue : valueOf (Nat.toDigits 10 n) = n :=
      Literal.ofDigits_toDigits (by decide) (by decide) n
    have hdenotes := @Denotes.number none _ (by simp) Nat.toDigits_ne_nil hdigits
      (hvalue.symm ▸ h)
    rw [hvalue] at hdenotes
    rw [pattern, String.toList_ofList]
    exact hdenotes

theorem Denotes.tight {cs : List Char} {a : Arity} (h : Denotes cs a) (hne : cs ≠ []) :
    Text.Tight cs := by
  refine .of_forall hne ?_
  cases h with
  | nothing | star | plus | question => simp [Text.isBlank]
  | @number sign? ds hsign _ hds _ =>
    refine List.forall_mem_append.mpr ⟨fun c hc => ?_, fun c hc => ?_⟩
    · obtain rfl := hsign c (Option.mem_toList.mp hc)
      rfl
    · exact isBlank_eq_false_of_isSolid (Grammar.solid_isDigit c (hds c hc))

/-- The pattern of an arity is read back, whatever the blanks around it, exactly if its number has
64 bits. -/
theorem ofPattern_pattern_iff (a : Arity) {pre post : String}
    (hblank : ∀ c ∈ pre.toList ++ post.toList, Text.isBlank c = true) :
    ofPattern (pre ++ a.pattern ++ post) = .ok a ↔ a.Fits := by
  rw [ofPattern_eq_ok_iff]
  constructor
  · rintro ⟨core, -, h⟩
    exact h.fits
  · intro h
    refine ⟨a.pattern.toList, ⟨⟨pre.toList, post.toList, ?_, hblank⟩, (denotes_pattern h).tight⟩,
      denotes_pattern h⟩
    simp

end Arity

/-! ## The error of what is no pattern -/

namespace Error

theorem render_badPattern (p : String) :
    (badPattern p).render = "invalid arity pattern " ++ Text.quote p.toList ++
      ", expecting a number, \"+\", \"?\", \"*\" or \"\"" := by
  have hend : ", expecting a number, " ++ "\"+\", \"?\", \"*\" or \"\"" =
      ", expecting a number, \"+\", \"?\", \"*\" or \"\"" := by simp
  rw [← hend, ← String.append_assoc]
  rfl

/-- The message tells the pattern, with the blanks around it. -/
theorem render_badPattern_inj {p p' : String}
    (h : (badPattern p).render = (badPattern p').render) : p = p' := by
  rw [render_badPattern, render_badPattern, String.append_left_inj, String.append_right_inj] at h
  exact String.toList_injective (Text.quote_injective h)

end Error

end Fexpr
