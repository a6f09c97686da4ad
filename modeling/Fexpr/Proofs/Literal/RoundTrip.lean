import Fexpr.Library.Host
import Fexpr.Proofs.Literal.Text
import Mathlib.Data.List.Forall2

/-!
# Values written as literals

An integer or a string that is written as a literal evaluates to itself. The literal may stand alone
in its script, or between blanks and comments (`World.EvaluatesTo`): the grammar finds it, nothing
of it is lost by trimming, and decoding gives back the value (`literals_round_trip`).
-/

namespace Fexpr

open Text (byteSize)
open Grammar
open Form (LiteralKind)
open Literal

variable {κ : Type}

/-! ## Scripts of one literal -/

/-- A literal between gaps is a script. -/
theorem Program.exists_compile_literal {kind : LiteralKind} {text lead trail : List Char}
    (h : kind.matchesWhole text = true) (hlead : Gap lead) (htrail : GapBefore [] trail)
    {source : Source} (hsource : source.chars = lead ++ (text ++ trail)) :
    ∃ p span, compile source = .ok p ∧ p.body = .ok (.atom (.literal ⟨kind, text, span⟩)) := by
  let i : Cursor := ⟨text ++ trail, byteSize lead⟩
  let j : Cursor := ⟨trail, byteSize lead + byteSize text⟩
  let k : Cursor := ⟨[], byteSize lead + byteSize text + byteSize trail⟩
  have hij : i.Across text j := ⟨rfl, rfl⟩
  have hjk : Spaced j k := ⟨trail, ⟨(List.append_nil _).symm, rfl⟩, htrail⟩
  have hclosed : Delimited trail :=
    fun c hc => isSolid_eq_false_of_startsGap (htrail.startsGap_head c hc)
  obtain ⟨us, hlexes⟩ := exists_literal h hij hclosed
  have hvalue : Written (· < maxNesting) 0 .value i k _ _ := .atom (.literal hlexes hij) hjk
  have hstart : Spaced ⟨lead ++ (text ++ trail), 0⟩ i :=
    ⟨lead, ⟨rfl, (Nat.zero_add _).symm⟩, .of_gap hlead hvalue.clear_start⟩
  have hscript : ScriptAt (lead ++ (text ++ trail)) i k _ _ := ⟨hstart, hvalue, rfl⟩
  exact ⟨_, _, compile_eq_ok (hsource.symm ▸ hscript), rfl⟩

namespace World

/-- The text is a script that evaluates to the value and changes nothing, also with gaps around
it. -/
def EvaluatesTo (host : Host κ) (w : World κ) (text : List Char) (v : Value κ) : Prop :=
  ∀ (source : Source) (lead trail : List Char), Gap lead → GapBefore [] trail →
    source.chars = lead ++ (text ++ trail) →
    ∃ p, Program.compile source = .ok p ∧ w.run host p = .reply (.ok v) w

variable (host : Host κ) (w : World κ)

/-- A literal evaluates to its value, and nothing changes. -/
theorem evaluator_literal {source : Source} {l : Form.Literal} {v : Value κ}
    (hv : Form.Literal.value source l = .ok v) (w' : World κ) :
    w.evaluator host source (.atom (.literal l)) w' = .reply (.ok v) w' := by
  rw [evaluator, Form.evalWithin, Form.step, Form.Atom.value, hv]
  rfl

theorem evaluatesTo_of_value {kind : LiteralKind} {text : List Char} {v : Value κ}
    (h : kind.matchesWhole text = true)
    (hv : ∀ source span, Form.Literal.value source ⟨kind, text, span⟩ = .ok v) :
    w.EvaluatesTo host text v := by
  intro source lead trail hlead htrail hsource
  obtain ⟨p, span, hp, hbody⟩ := Program.exists_compile_literal h hlead htrail hsource
  refine ⟨p, hp, ?_⟩
  rw [run, hbody]
  exact w.evaluator_literal host (hv p.source span) w

theorem evaluatesTo_numeral (n : Numeral) {m : Integer} (h : n.Decodes (.ok m)) :
    w.EvaluatesTo host n.text m.value := by
  refine w.evaluatesTo_of_value host (matchesWhole_integer_iff.mpr ⟨n, rfl⟩) fun source span => ?_
  rw [Form.Literal.value_integer, (n.parseInteger_text_iff _).mpr h]
  rfl

theorem evaluatesTo_quoted {cs : List Char} {s : String} (h : Spells cs s.toUTF8.data.toList) :
    w.EvaluatesTo host (quoted cs) (.string s) := by
  refine w.evaluatesTo_of_value host h.matchesWhole fun source span => ?_
  rw [Form.Literal.value]
  dsimp only
  rw [h.parseString_quoted (fromUTF8?_toUTF8 s)]

end World

/-! ## Long strings -/

/-- The text between triple quotes. -/
def Literal.tripleQuoted (cs : List Char) : List Char :=
  ['"', '"', '"'] ++ (cs ++ ['"', '"', '"'])

theorem matchesWhole_tripleQuoted {cs : List Char} (h : '"' ∉ cs) :
    LiteralKind.longString.matchesWhole (tripleQuoted cs) = true := by
  have hacross : Cursor.Across ⟨tripleQuoted cs, 0⟩ (['"', '"', '"'] ++ (cs ++ ['"', '"', '"']))
      ⟨[], 0 + byteSize (tripleQuoted cs)⟩ := ⟨(List.append_nil _).symm, rfl⟩
  obtain ⟨k, hik, hkj⟩ := hacross.split ['"', '"', '"']
  obtain ⟨l, hkl, hlj⟩ := hkj.split cs
  have hbody := (ReadsOne.butNot (· == '"')).star hkl
    (fun c hc => by
      rw [Bool.not_eq_true', beq_eq_false_iff_ne]
      rintro rfl
      exact h hc)
    (fun c hc => by
      rw [hlj.1] at hc
      cases hc
      rfl)
  have hlong : Derives (fun _ => True) 0 (.rule LiteralKind.longString.rule) _ _ :=
    .rule (fun h => nomatch h) (.seq (.seq (Lexes.exactly hik _ _) (hbody (fun _ => True) 0))
      (Lexes.exactly hlj _ _))
  exact matchesWhole_of_derives hlong

theorem World.evaluatesTo_tripleQuoted (host : Host κ) (w : World κ) {s : String}
    (h : '"' ∉ s.toList) : w.EvaluatesTo host (tripleQuoted s.toList) (.string s) := by
  refine w.evaluatesTo_of_value host (matchesWhole_tripleQuoted h) fun source span => ?_
  have hbody : longStringBody (tripleQuoted s.toList) = s.toList := by
    rw [longStringBody, tripleQuoted, unwrap?_eq _ _ rfl, Option.getD_some]
  rw [Form.Literal.value]
  dsimp only
  rw [hbody, String.ofList_toList]

/-! ## Printed integers -/

theorem toString_toList (k : Nat) : (toString k).toList = Nat.toDigits 10 k := by
  rw [Nat.toString_eq_repr, Nat.repr_eq_ofList_toDigits, String.toList_ofList]

/-- The numeral of a number that is printed in decimal. -/
theorem exists_decimal (sign? suffix? : Option Char) (hsign : ∀ c ∈ sign?, c ∈ ['+', '-'])
    (hsuffix : ∀ c ∈ suffix?, c ∈ ['u', 'U']) (k : Nat) :
    ∃ n : Numeral, n.text = sign?.toList ++ (Nat.toDigits 10 k ++ suffix?.toList) ∧
      n.isNegative = (sign? == some '-') ∧ n.isUnsigned = suffix?.isSome ∧ n.magnitude = k := by
  have hne : Nat.toDigits 10 k ≠ [] := Nat.toDigits_ne_nil
  obtain ⟨n, htext, hnegative, hunsigned, hmagnitude⟩ :=
    exists_printed none sign? suffix? (by rintro c ⟨⟩) hsign hsuffix hne
      (fun c hc => Nat.isDigit_of_mem_toDigits (by decide) (by decide) hc)
      (fun _ cs h => eq_nil_of_toDigits_zero (by decide) (by decide) h)
  exact ⟨n, htext, hnegative, hunsigned,
    hmagnitude.trans (ofDigits_toDigits (by decide) (by decide) k)⟩

section Integers

variable (host : Host κ) (w : World κ)

theorem World.evaluatesTo_signed (n : Int64) :
    w.EvaluatesTo host (toString n).toList (.int n) := by
  have hprint : toString n = n.toInt.repr := Int.toString_eq_repr
  rw [hprint, Int.repr_eq_if]
  by_cases hn : 0 ≤ n.toInt
  · obtain ⟨m, htext, hnegative, hunsigned, hmagnitude⟩ :=
      exists_decimal none none (by rintro c ⟨⟩) (by rintro c ⟨⟩) n.toInt.toNat
    rw [if_pos hn, Nat.repr_eq_ofList_toDigits, String.toList_ofList]
    have hvalue : n.toInt = m.value := by
      rw [Numeral.value, hnegative, hmagnitude]
      exact (Int.toNat_of_nonneg hn).symm
    have heval := w.evaluatesTo_numeral host m (.signed hunsigned hvalue)
    rw [htext, Option.toList_none, List.nil_append, List.append_nil] at heval
    exact heval
  · obtain ⟨m, htext, hnegative, hunsigned, hmagnitude⟩ :=
      exists_decimal (some '-') none (by rintro c ⟨⟩; decide) (by rintro c ⟨⟩) (-n.toInt).toNat
    rw [if_neg hn, Nat.repr_eq_ofList_toDigits, String.toList_append, String.toList_ofList,
      String.toList_ofList]
    have hvalue : n.toInt = m.value := by
      rw [Numeral.value, hnegative, hmagnitude]
      show n.toInt = -((-n.toInt).toNat : Int)
      omega
    have heval := w.evaluatesTo_numeral host m (.signed hunsigned hvalue)
    rw [htext, Option.toList_none, List.append_nil] at heval
    exact heval

theorem World.evaluatesTo_unsigned (n : UInt64) :
    w.EvaluatesTo host ((toString n).toList ++ ['u']) (.uint n) := by
  obtain ⟨m, htext, hnegative, hunsigned, hmagnitude⟩ :=
    exists_decimal none (some 'u') (by rintro c ⟨⟩) (by rintro c ⟨⟩; decide) n.toNat
  have heval := w.evaluatesTo_numeral host m
    (.unsigned hunsigned hnegative hmagnitude.symm)
  rw [htext, ← toString_toList] at heval
  exact heval

theorem World.evaluatesTo_hexadecimal (n : UInt64) {hex : List Char}
    (hhex : Hexadecimal 0 n.toNat hex) :
    w.EvaluatesTo host ('0' :: 'x' :: (hex ++ ['u'])) (.uint n) := by
  have hne : hex ≠ [] := by
    rintro rfl
    exact Nat.toDigits_ne_nil (List.append_eq_nil_iff.mp hhex.symm).2
  obtain ⟨m, htext, hnegative, hunsigned, hmagnitude⟩ :=
    exists_printed (some 'x') none (some 'u') (by rintro c ⟨⟩; decide) (by rintro c ⟨⟩)
      (by rintro c ⟨⟩; decide) hne hhex.isHexDigit (by rintro ⟨⟩)
  have heval := w.evaluatesTo_numeral host m
    (.unsigned hunsigned hnegative (hmagnitude.trans hhex.ofDigits).symm)
  rw [htext] at heval
  exact heval

end Integers

/-! ## Printed strings -/

/-- A character of a string, with a backslash only where it has to be. -/
def Literal.escaped (c : Char) : List Char :=
  if c = '\\' then ['\\', '\\']
  else if c = '"' then ['\\', '"']
  else if c = '\n' then ['\\', 'n']
  else [c]

theorem isPiece_escaped (c : Char) : IsPiece (escaped c) (String.utf8EncodeChar c) := by
  have hescape : ∀ {d : Char} {b : UInt8}, String.utf8EncodeChar c = [b] →
      d ∈ ['\'', '"', '\\', 'v', 't', 'r', 'n', 'f', 'b', 'a'] → escapedByte? d = some b →
      IsPiece ['\\', d] (String.utf8EncodeChar c) := by
    intro d b hc hd hb
    rw [hc]
    exact .escape hd hb
  unfold escaped
  split
  next h => exact hescape (h ▸ rfl) (by decide) rfl
  next hbackslash =>
    split
    next h => exact hescape (h ▸ rfl) (by decide) rfl
    next hquote =>
      split
      next h => exact hescape (h ▸ rfl) (by decide) rfl
      next hnewline => exact .plain (by simp [hbackslash, hquote, hnewline])

/-- Literals give back what was written. Signed integers in decimal, unsigned ones in decimal or
hexadecimal with their suffix, and strings with escapes only where there has to be one, or with all
characters given by their codes, or with all bytes of their encoding given one by one, or as they
are between triple quotes, evaluate to themselves in every world, with any gaps around them. -/
theorem literals_round_trip (host : Host κ) (w : World κ) :
    (∀ n : Int64, w.EvaluatesTo host (toString n).toList (.int n)) ∧
    (∀ n : UInt64, w.EvaluatesTo host ((toString n).toList ++ ['u']) (.uint n)) ∧
    (∀ (n : UInt64) (hex : List Char), Hexadecimal 0 n.toNat hex →
      w.EvaluatesTo host ('0' :: 'x' :: (hex ++ ['u'])) (.uint n)) ∧
    (∀ s : String, w.EvaluatesTo host (quoted (s.toList.flatMap escaped)) (.string s)) ∧
    (∀ (s : String) (codes : List (List Char)),
      List.Forall₂ (fun c ds => Hexadecimal 8 c.toNat ds) s.toList codes →
      w.EvaluatesTo host (quoted (codes.flatMap ('\\' :: 'U' :: ·))) (.string s)) ∧
    (∀ (s : String) (codes : List (List Char)),
      List.Forall₂ (fun b ds => Hexadecimal 2 b.toNat ds) s.toUTF8.data.toList codes →
      w.EvaluatesTo host (quoted (codes.flatMap ('\\' :: 'x' :: ·))) (.string s)) ∧
    ∀ s : String, '"' ∉ s.toList → w.EvaluatesTo host (tripleQuoted s.toList) (.string s) := by
  refine ⟨w.evaluatesTo_signed host, w.evaluatesTo_unsigned host,
    fun n hex hhex => w.evaluatesTo_hexadecimal host n hhex, fun s => ?_, fun s codes hcodes => ?_,
    fun s codes hcodes => ?_, fun s hs => w.evaluatesTo_tripleQuoted host hs⟩
  · refine w.evaluatesTo_quoted host ?_
    rw [toUTF8_toList]
    exact .forall₂ (List.forall₂_same.mpr fun c _ => isPiece_escaped c)
  · refine w.evaluatesTo_quoted host ?_
    rw [toUTF8_toList]
    exact .forall₂ (hcodes.imp fun _ _ hds => .uChar hds)
  · refine w.evaluatesTo_quoted host ?_
    have hspells := Spells.forall₂ (hcodes.imp fun _ _ hds => IsPiece.hexByte hds)
    rwa [List.flatMap_singleton'] at hspells

/-- A world where nothing is bound. -/
def World.bare : World Builtin := ⟨Context.new 0 .empty 8 .absent, .fresh, 0⟩

theorem literals_round_trip_commented :
    (∃ p, Program.compile ⟨"s", "; a\n 0xfFu ; b"⟩ = .ok p ∧
      World.bare.run Library.host p = .reply (.ok (.uint 255)) .bare) ∧
    (∃ p, Program.compile ⟨"s", "; a\n \"\\U0001F600\" ; b"⟩ = .ok p ∧
      World.bare.run Library.host p = .reply (.ok (.string "😀")) .bare) ∧
    (∃ p, Program.compile ⟨"s", "; a\n \"\\xC3\\xa9\" ; b"⟩ = .ok p ∧
      World.bare.run Library.host p = .reply (.ok (.string "é")) .bare) ∧
    ∃ p, Program.compile ⟨"s", "; a\n \"\"\" ;\n\\\"\"\" ; b"⟩ = .ok p ∧
      World.bare.run Library.host p = .reply (.ok (.string " ;\n\\")) .bare := by
  have hlead : Gap [';', ' ', 'a', '\n', ' '] :=
    @Gap.comment [' ', 'a'] _ _ (by simp [isLineEnd]) rfl (.blank rfl .nil)
  have htrail : GapBefore [] [' ', ';', ' ', 'b'] := .blank rfl (.last rfl (by simp [isLineEnd]))
  have hcode : List.Forall₂ (fun c ds => Hexadecimal 8 c.toNat ds) "😀".toList
      ["0001F600".toList] := by
    rw [show "😀".toList = ['😀'] by decide +kernel]
    exact .cons (by decide) .nil
  have hcodes : List.Forall₂ (fun b ds => Hexadecimal 2 b.toNat ds) "é".toUTF8.data.toList
      ["C3".toList, "a9".toList] := by
    rw [show "é".toUTF8.data.toList = [0xC3, 0xA9] by decide +kernel]
    exact .cons (by decide) (.cons (by decide) .nil)
  obtain ⟨-, -, hhex, -, huChars, hbytes, hlong⟩ := literals_round_trip Library.host World.bare
  exact ⟨hhex 255 ['f', 'F'] (by decide) _ _ _ hlead htrail (by decide),
    huChars _ _ hcode _ _ _ hlead htrail (by decide),
    hbytes _ _ hcodes _ _ _ hlead htrail (by decide),
    hlong " ;\n\\" (by decide) _ _ _ hlead htrail (by decide)⟩

end Fexpr
