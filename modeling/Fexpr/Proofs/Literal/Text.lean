import Fexpr.Literal.Text
import Fexpr.Proofs.Literal.Digits

/-!
# Decoding strings

A string is decoded piece by piece, as the grammar matches it. `IsPiece` says of a piece of text
that the grammar takes it for one piece of a string, and which bytes it is decoded to; there is one
lemma for each way to write a piece. Pieces in a row make a string (`Spells`), and it is decoded to
a text if their bytes are its encoding.
-/

namespace Fexpr

open Grammar
open Form (LiteralKind)

namespace Literal

/-- The text is a piece of a string, whatever follows it, and stands for the bytes. -/
structure IsPiece (cs : List Char) (bs : List UInt8) : Prop where
  lexes : ∀ {i j : Cursor}, i.Across cs j → ∃ ts, Lexes .piece i j ts
  bytes_append : ∀ rest, bytes .plain (cs ++ rest) = (bytes .plain rest).map (bs ++ ·)

/-! ## Hexadecimal escapes -/

theorem lexes_times {i j : Cursor} {ds : List Char} (hds : ∀ c ∈ ds, isHexDigit c = true)
    (hij : i.Across ds j) : Lexes (.times ds.length (.char isHexDigit)) i j [] := by
  intro mayOpen n
  induction ds generalizing i with
  | nil =>
    obtain rfl := hij.eq_of_nil
    exact .empty
  | cons d ds ih =>
    obtain ⟨hd, hds⟩ := List.forall_mem_cons.mp hds
    obtain ⟨l, hil, hlj⟩ := hij.split [d]
    exact .seq (.charAcross hil hd) (ih hds hlj)

/-- The digits of an escape are read up to the last one, and the code is then complete. -/
theorem bytes_hex {letter : Char} {piece : List UInt8} {ds : List Char} {code : Nat}
    (hne : ds ≠ []) (hds : ∀ c ∈ ds, isHexDigit c = true)
    (hpiece : hexBytes letter
      (code * 16 ^ ds.length + Nat.ofDigits 16 (ds.reverse.map digitValue)) = .ok piece)
    (rest : List Char) :
    bytes (.hex letter ds.length code) (ds ++ rest) = (bytes .plain rest).map (piece ++ ·) := by
  induction ds generalizing code with
  | nil => exact absurd rfl hne
  | cons d ds ih =>
    obtain ⟨hd, hds⟩ := List.forall_mem_cons.mp hds
    have hdigit : digit? 16 d = some (digitValue d) := @digit?_eq true d hd
    rw [ofDigits_reverse_cons] at hpiece
    rw [List.cons_append, bytes, hdigit]
    dsimp only
    cases ds with
    | nil =>
      rw [List.length_nil, Nat.pow_zero, Nat.mul_one, List.reverse_nil, List.map_nil,
        Nat.ofDigits_nil, Nat.add_zero] at hpiece
      rw [List.length_singleton, if_pos (Nat.le_refl 1), hpiece, List.nil_append]
    | cons e ds =>
      rw [List.length_cons, if_neg (by simp), Nat.add_sub_cancel]
      exact ih (List.cons_ne_nil e ds) hds hpiece

/-- A mark and hexadecimal digits after a backslash. -/
theorem bytes_mark {letter : Char} {width code : Nat} {ds : List Char} {piece : List UInt8}
    (hmark : escapedByte? letter = none) (hletter : hexWidth? letter = some width)
    (hds : Hexadecimal width code ds) (hwidth : 0 < width) (hcode : code < 16 ^ width)
    (hpiece : hexBytes letter code = .ok piece) (rest : List Char) :
    bytes .plain ('\\' :: letter :: ds ++ rest) = (bytes .plain rest).map (piece ++ ·) := by
  have hlength := hds.length hwidth hcode
  have hne : ds ≠ [] := List.ne_nil_of_length_pos (hlength ▸ hwidth)
  rw [List.cons_append, List.cons_append, bytes, if_pos rfl, bytes, hmark, hletter]
  dsimp only
  rw [← hlength]
  refine bytes_hex hne hds.isHexDigit ?_ rest
  rw [Nat.zero_mul, Nat.zero_add, hds.ofDigits]
  exact hpiece

theorem lexes_mark {letter : Char} {width code : Nat} {ds : List Char}
    (hds : Hexadecimal width code ds) (hwidth : 0 < width) (hcode : code < 16 ^ width)
    {i j : Cursor} (hij : i.Across ('\\' :: letter :: ds) j) :
    Lexes (.one '\\' ++ .one letter ++ .times width (.char isHexDigit)) i j [] := by
  intro mayOpen n
  obtain ⟨k, hik, hkj⟩ := hij.split ['\\']
  obtain ⟨l, hkl, hlj⟩ := hkj.split [letter]
  have hdigits := lexes_times hds.isHexDigit hlj
  rw [hds.length hwidth hcode] at hdigits
  exact .seq (.seq (.charAcross (f := (· == '\\')) hik rfl)
    (.charAcross (f := (· == letter)) hkl (beq_self_eq_true letter))) (hdigits mayOpen n)

namespace IsPiece

variable {c : Char} {ds : List Char}

/-! ## The kinds of pieces -/

/-- A character that stands for itself. -/
theorem plain (hc : c ∉ ['\\', '\n', '"']) : IsPiece [c] (String.utf8EncodeChar c) := by
  have hbackslash : c ≠ '\\' := fun h => hc (h ▸ List.mem_cons_self)
  refine ⟨fun {i j} hij => ?_, fun rest => ?_⟩
  · have huChar : Fails (.rule .uChar) i.rest := hij.1 ▸ uChar_fails hbackslash j.rest
    have hescape : Fails (.rule .escape) i.rest := hij.1 ▸ escape_fails hbackslash j.rest
    have hbyte : Fails (.rule .hexByte) i.rest := hij.1 ▸ hexByte_fails hbackslash j.rest
    have hread := (ReadsOne.butNot (['\\', '\n', '"'].contains ·)).reads hij
      (by rwa [Bool.not_eq_true', ← Bool.not_eq_true, List.contains_iff_mem])
    exact ⟨[], fun mayOpen n => .altRight (huChar mayOpen n i.offset)
      (.altRight (hescape mayOpen n i.offset) (.altRight (hbyte mayOpen n i.offset)
        (hread mayOpen n)))⟩
  · rw [List.singleton_append, bytes, if_neg hbackslash]

/-- A character after a backslash. -/
theorem escape {b : UInt8} (hc : c ∈ ['\'', '"', '\\', 'v', 't', 'r', 'n', 'f', 'b', 'a'])
    (hb : escapedByte? c = some b) : IsPiece ['\\', c] [b] where
  lexes := by
    intro i j hij
    obtain ⟨k, hik, hkj⟩ := hij.split ['\\']
    have huChar : Fails (.rule .uChar) i.rest := by
      rw [hij.1]
      refine uChar_fails_mark ?_ ?_ j.rest
      · rintro rfl
        cases hb
      · rintro rfl
        cases hb
    exact ⟨_, fun mayOpen n => .altRight (huChar mayOpen n i.offset) (.altLeft
      (.rule (fun h => nomatch h) (.seq (.charAcross (f := (· == '\\')) hik rfl)
        (.charAcross hkj (List.contains_iff_mem.mpr hc)))))⟩
  bytes_append := by
    intro rest
    rw [List.cons_append, List.singleton_append, bytes, if_pos rfl, bytes, hb]
    rfl

/-- A character by its code. -/
theorem uChar (hds : Hexadecimal 8 c.toNat ds) :
    IsPiece ('\\' :: 'U' :: ds) (String.utf8EncodeChar c) := by
  have hcode : c.toNat < 16 ^ 8 := c.val.toNat_lt
  refine ⟨fun {i j} hij => ?_, bytes_mark rfl rfl hds (by decide) hcode ?_⟩
  · have hread := lexes_mark hds (by decide) hcode hij
    have hfail : Fails (.one '\\' ++ .one 'u' ++ .times 4 (.char isHexDigit)) i.rest := by
      rw [hij.1]
      exact .seq (mark_fails rfl _)
    exact ⟨_, fun mayOpen n => .altLeft (.rule (fun h => nomatch h)
      (.altRight (hfail mayOpen n i.offset) (hread mayOpen n)))⟩
  · have hvalid : c.toNat.isValidChar := c.valid
    rw [hexBytes, if_neg (by decide), if_pos hvalid, Char.ofNat_toNat]

/-- A byte. -/
theorem hexByte {b : UInt8} (hds : Hexadecimal 2 b.toNat ds) :
    IsPiece ('\\' :: 'x' :: ds) [b] := by
  have hcode : b.toNat < 16 ^ 2 := b.toNat_lt
  refine ⟨fun {i j} hij => ?_, bytes_mark rfl rfl hds (by decide) hcode ?_⟩
  · have hread := lexes_mark hds (by decide) hcode hij
    have huChar : Fails (.rule .uChar) i.rest :=
      hij.1 ▸ uChar_fails_mark (by decide) (by decide) _
    have hescape : Fails (.rule .escape) i.rest := by
      rw [hij.1]
      exact .rule (mark_fails (by decide) _)
    exact ⟨_, fun mayOpen n => .altRight (huChar mayOpen n i.offset)
      (.altRight (hescape mayOpen n i.offset)
        (.altLeft (.rule (fun h => nomatch h) (hread mayOpen n))))⟩
  · rw [hexBytes, if_pos rfl, UInt8.ofNat_toNat]

end IsPiece

/-! ## Pieces in a row -/

/-- The text is made of pieces of a string that stand for the bytes. -/
inductive Spells : List Char → List UInt8 → Prop
  | nil : Spells [] []
  | cons {cs rest : List Char} {bs bs' : List UInt8} (hp : IsPiece cs bs) (h : Spells rest bs') :
    Spells (cs ++ rest) (bs ++ bs')

/-- The text between quotes. -/
def quoted (cs : List Char) : List Char := '"' :: (cs ++ ['"'])

/-- A mark in front and the same mark behind. -/
theorem unwrap?_eq (mark cs : List Char) (hmark : mark.reverse = mark) :
    unwrap? mark (mark ++ (cs ++ mark)) = some cs := by
  have hfront : mark.isPrefixOf? (mark ++ (cs ++ mark)) = some (cs ++ mark) :=
    List.isPrefixOf?_eq_some_iff_append_eq.mpr rfl
  have hback : mark.isPrefixOf? (mark ++ cs.reverse) = some cs.reverse :=
    List.isPrefixOf?_eq_some_iff_append_eq.mpr rfl
  rw [unwrap?, hfront, Option.bind_some, List.reverse_append, hmark, hback, Option.map_some,
    List.reverse_reverse]

namespace Spells

variable {cs : List Char} {bs : List UInt8}

/-- Each of the pieces may be written in its own way. -/
theorem forall₂ {α β : Type} {as : List α} {ws : List β} {f : β → List Char} {g : α → List UInt8}
    (h : List.Forall₂ (fun a w => IsPiece (f w) (g a)) as ws) :
    Spells (ws.flatMap f) (as.flatMap g) := by
  induction h with
  | nil => exact .nil
  | cons hp _ ih =>
    rw [List.flatMap_cons, List.flatMap_cons]
    exact .cons hp ih

theorem bytes_eq (h : Spells cs bs) : bytes .plain cs = .ok bs := by
  induction h with
  | nil => rw [bytes]
  | cons hp _ ih =>
    rw [hp.bytes_append, ih]
    rfl

theorem exists_lexes (h : Spells cs bs) {i j : Cursor} (hij : i.Across cs j)
    (hj : j.rest.head? = some '"') : ∃ ts, Lexes (.star .piece) i j ts := by
  induction h generalizing i with
  | nil =>
    obtain rfl := hij.eq_of_nil
    obtain ⟨rest, hrest⟩ := List.head?_eq_some_iff.mp hj
    have hfail : Fails .piece i.rest := hrest ▸ piece_fails_quote rest
    exact ⟨[], fun mayOpen n => .starEnd (hfail mayOpen n i.offset)⟩
  | @cons cs rest _ _ hp _ ih =>
    obtain ⟨l, hil, hlj⟩ := hij.split cs
    obtain ⟨ts, hts⟩ := hp.lexes hil
    obtain ⟨us, hus⟩ := ih hlj
    exact ⟨ts ++ us, fun mayOpen n => .starMore (hts mayOpen n) (hus mayOpen n)⟩

/-- Pieces between quotes are a string. -/
theorem matchesWhole (h : Spells cs bs) : LiteralKind.string.matchesWhole (quoted cs) = true := by
  have hacross : Cursor.Across ⟨quoted cs, 0⟩ (['"'] ++ (cs ++ ['"']))
      ⟨[], 0 + Text.byteSize (quoted cs)⟩ := ⟨(List.append_nil _).symm, rfl⟩
  obtain ⟨k, hik, hkj⟩ := hacross.split ['"']
  obtain ⟨l, hkl, hlj⟩ := hkj.split cs
  obtain ⟨ts, hts⟩ := h.exists_lexes hkl (by rw [hlj.1]; rfl)
  have hstring : Derives (fun _ => True) 0 (.rule LiteralKind.string.rule) _ _ :=
    .rule (fun h => nomatch h) (.seq (.seq (.charAcross (f := (· == '"')) hik rfl)
      (hts (fun _ => True) 0)) (.charAcross (f := (· == '"')) hlj rfl))
  exact matchesWhole_of_derives hstring

/-- They are decoded to the text that the bytes encode. -/
theorem parseString_quoted (h : Spells cs bs) {s : String}
    (hs : String.fromUTF8? ⟨bs.toArray⟩ = some s) : parseString (quoted cs) = .ok s := by
  have hinside : unwrap? ['"'] (quoted cs) = some cs := unwrap?_eq ['"'] cs rfl
  rw [parseString, hinside, Option.getD_some, h.bytes_eq]
  dsimp only
  rw [hs]

end Spells

/-! ## Encodings -/

theorem toUTF8_toList (s : String) :
    s.toUTF8.data.toList = s.toList.flatMap String.utf8EncodeChar := by
  have hencode : s.toByteArray = s.toList.utf8Encode := by
    rw [← String.toByteArray_ofList, String.ofList_toList]
  rw [String.toUTF8, hencode, List.utf8Encode, List.data_toByteArray]

theorem fromUTF8?_toUTF8 (s : String) :
    String.fromUTF8? ⟨s.toUTF8.data.toList.toArray⟩ = some s := by
  rw [Array.toArray_toList]
  exact dif_pos s.isValidUTF8

end Literal

end Fexpr
