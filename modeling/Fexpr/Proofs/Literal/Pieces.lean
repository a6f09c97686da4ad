import Fexpr.Proofs.Grammar.Matching
import Fexpr.Proofs.Literal.Text

/-!
# The pieces of a string

The grammar and the decoder each go through a string on their own. A `Piece` is what both of them
take for one piece: the grammar logs a token for it, unless it is a character that stands for
itself, and the decoder is between pieces again after it. So the tokens of a string give the pieces
that the decoder reads, and what comes out of decoding is a matter of the pieces alone
(`Piece.Decodes`, `strings_decoded`).

The decoder is followed character by character (`Mode.step`, `bytes_cons`). It never has a code in
hand that does not fit in 32 bits (`Mode.lt_of_after`).
-/

namespace Fexpr

open Grammar
open Form (LiteralKind)
open Text (byteSize)

namespace Literal

/-! ## The reader of a string, step by step -/

namespace Mode

/-- The bytes that are complete with a character, and where the reader of a string stands after
it. -/
def step : Mode → Char → Except Error (List UInt8 × Mode)
  | plain, c => if c = '\\' then .ok ([], escaped) else .ok (String.utf8EncodeChar c, plain)
  | escaped, c =>
    match escapedByte? c, hexWidth? c with
    | some b, _ => .ok ([b], plain)
    | none, some width => .ok ([], hex c width 0)
    | none, none => .error (.invalidEscape c)
  | hex letter left code, c =>
    match digit? 16 c with
    | none => .error (.invalidEscape letter)
    | some d =>
      if left ≤ 1 then (hexBytes letter (code * 16 + d)).map (·, plain)
      else .ok ([], hex letter (left - 1) (code * 16 + d))

/-- Where the reader of a string stands after a text. -/
def after : Mode → List Char → Except Error Mode
  | m, [] => .ok m
  | m, c :: cs => (m.step c).bind fun r => after r.2 cs

end Mode

theorem map_nil_append (r : Except Error (List UInt8)) : r.map ([] ++ ·) = r := by
  cases r <;> rfl

/-- Decoding goes on from where the reader stands after the first character. -/
theorem bytes_cons (m : Mode) (c : Char) (cs : List Char) :
    bytes m (c :: cs) = (m.step c).bind fun r => (bytes r.2 cs).map (r.1 ++ ·) := by
  cases m with
  | plain =>
    rw [bytes, Mode.step]
    by_cases hc : c = '\\'
    · rw [if_pos hc, if_pos hc]
      exact (map_nil_append _).symm
    · rw [if_neg hc, if_neg hc]
      rfl
  | escaped =>
    rw [bytes, Mode.step]
    cases escapedByte? c with
    | some b => rfl
    | none =>
      cases hexWidth? c with
      | some width => exact (map_nil_append _).symm
      | none => rfl
  | hex letter left code =>
    rw [bytes, Mode.step]
    cases digit? 16 c with
    | none => rfl
    | some d =>
      dsimp only
      by_cases hleft : left ≤ 1
      · rw [if_pos hleft, if_pos hleft]
        cases hexBytes letter (code * 16 + d) <;> rfl
      · rw [if_neg hleft, if_neg hleft]
        exact (map_nil_append _).symm

/-- The texts of the pieces that the reader of a string takes one after another, up to the one in
which it fails. `seen` is what it has read of the present piece. -/
def cuts : Mode → List Char → List Char → List (List Char)
  | _, seen, [] => if seen.isEmpty then [] else [seen]
  | m, seen, c :: cs =>
    match m.step c with
    | .error _ => [seen ++ [c]]
    | .ok (_, .plain) => (seen ++ [c]) :: cuts .plain [] cs
    | .ok (_, m') => cuts m' (seen ++ [c]) cs

/-- The reader takes the text as the rest of one piece, with this outcome. -/
inductive Mode.Takes : Mode → List Char → Except Error (List UInt8) → Prop
  | last {m c bs} (h : m.step c = .ok (bs, .plain)) : Takes m [c] (.ok bs)
  | failure {m c e} (h : m.step c = .error e) : Takes m [c] (.error e)
  | more {m m' c cs r} (h : m.step c = .ok ([], m')) (hm : m' ≠ .plain) (hcs : Takes m' cs r) :
    Takes m (c :: cs) r

namespace Mode.Takes

variable {m : Mode} {cs : List Char} {r : Except Error (List UInt8)}

theorem bytes_append (h : m.Takes cs r) (rest : List Char) :
    bytes m (cs ++ rest) = r.bind fun bs => (bytes .plain rest).map (bs ++ ·) := by
  induction h with
  | last h =>
    rw [List.singleton_append, bytes_cons, h]
    rfl
  | failure h =>
    rw [List.singleton_append, bytes_cons, h]
    rfl
  | @more m m' c cs r h _ _ ih =>
    rw [List.cons_append, bytes_cons, h, ← ih]
    exact map_nil_append _

theorem cuts_append (h : m.Takes cs r) (seen rest : List Char) :
    cuts m seen (cs ++ rest) = (seen ++ cs) :: if r.isOk then cuts .plain [] rest else [] := by
  induction h generalizing seen with
  | last h =>
    rw [List.singleton_append, cuts, h]
    rfl
  | failure h =>
    rw [List.singleton_append, cuts, h]
    rfl
  | @more m m' c cs r h hm _ ih =>
    have hmore : cuts m seen (c :: (cs ++ rest)) = cuts m' (seen ++ [c]) (cs ++ rest) := by
      rw [cuts, h]
      cases m' with
      | plain => exact absurd rfl hm
      | escaped => rfl
      | hex letter left code => rfl
    rw [List.cons_append, hmore, ih, List.append_assoc, List.singleton_append]

end Mode.Takes

/-! ## Codes fit in 32 bits -/

theorem lt_of_digit? {radix d : Nat} {c : Char} (h : digit? radix c = some d) : d < radix := by
  have hfilter := (Option.filter_eq_some_iff.mp h).2
  simpa using hfilter

namespace Mode

/-- The code in hand has at most the digits that have been read, of eight. -/
def Bounded : Mode → Prop
  | hex _ left code => 1 ≤ left ∧ left ≤ 8 ∧ code < 16 ^ (8 - left)
  | _ => True

/-- There are at most eight digits. -/
theorem bounded_of_hexWidth? {c : Char} {width : Nat} (h : hexWidth? c = some width) :
    (hex c width 0).Bounded := by
  have hwidth : width = 2 ∨ width = 4 ∨ width = 8 := by
    rw [hexWidth?.eq_def] at h
    split at h <;> simp_all
  show 1 ≤ width ∧ width ≤ 8 ∧ 0 < 16 ^ (8 - width)
  exact ⟨by omega, by omega, Nat.pow_pos (by decide)⟩

/-- With one more digit the code has one digit more. -/
theorem mul_add_lt {left code d : Nat} (hleft : 1 ≤ left ∧ left ≤ 8)
    (hcode : code < 16 ^ (8 - left)) (hd : d < 16) : code * 16 + d < 16 ^ (8 - (left - 1)) := by
  have hpow : 16 ^ (8 - (left - 1)) = 16 ^ (8 - left) * 16 := by
    rw [← Nat.pow_succ]
    congr 1
    omega
  omega

theorem Bounded.step {m m' : Mode} {c : Char} {bs : List UInt8} (hm : m.Bounded)
    (h : m.step c = .ok (bs, m')) : m'.Bounded := by
  cases m with
  | plain =>
    rw [Mode.step] at h
    split at h <;> cases h <;> trivial
  | escaped =>
    rw [Mode.step] at h
    split at h
    · cases h
      trivial
    next width _ hwidth =>
      cases h
      exact bounded_of_hexWidth? hwidth
    · cases h
  | hex letter left code =>
    obtain ⟨hpos, hle, hcode⟩ := hm
    rw [Mode.step] at h
    split at h
    · cases h
    next d hd =>
      by_cases hleft : left ≤ 1
      · rw [if_pos hleft] at h
        cases hpiece : hexBytes letter (code * 16 + d) with
        | error e =>
          rw [hpiece] at h
          cases h
        | ok piece =>
          rw [hpiece] at h
          cases h
          trivial
      · rw [if_neg hleft] at h
        cases h
        exact ⟨by omega, by omega, mul_add_lt ⟨hpos, hle⟩ hcode (lt_of_digit? hd)⟩

theorem Bounded.after {m m' : Mode} {cs : List Char} (hm : m.Bounded) (h : m.after cs = .ok m') :
    m'.Bounded := by
  induction cs generalizing m with
  | nil =>
    cases h
    exact hm
  | cons c cs ih =>
    rw [Mode.after] at h
    cases hstep : m.step c with
    | error e =>
      rw [hstep] at h
      cases h
    | ok r =>
      rw [hstep] at h
      exact ih (hm.step hstep) h

/-- Whatever has been read, the next digit does not make the code too large. -/
theorem lt_of_after {cs : List Char} {letter c : Char} {left code d : Nat}
    (h : plain.after cs = .ok (hex letter left code)) (hd : digit? 16 c = some d) :
    code * 16 + d < 2 ^ 32 := by
  have hplain : plain.Bounded := trivial
  obtain ⟨hpos, hle, hcode⟩ := hplain.after h
  have hlt := mul_add_lt ⟨hpos, hle⟩ hcode (lt_of_digit? hd)
  have hpow : 16 ^ (8 - (left - 1)) ≤ 16 ^ 8 := Nat.pow_le_pow_right (by decide) (by omega)
  omega

end Mode

/-! ## Pieces -/

/-- The letters of one-letter escapes, and the bytes that they stand for. -/
def escapes : List (Char × UInt8) :=
  [('n', 0x0A), ('r', 0x0D), ('t', 0x09), ('b', 0x08), ('f', 0x0C), ('v', 0x0B), ('a', 0x07),
    ('\\', 0x5C), ('"', 0x22), ('\'', 0x27)]

/-- A piece of a string. -/
inductive Piece where
  /-- A character that stands for itself. -/
  | raw (c : Char) (hc : c ∉ ['\\', '\n', '"'])
  /-- A letter that stands for a byte. -/
  | escape (letter : Char) (byte : UInt8) (hmem : (letter, byte) ∈ escapes)
  /-- The two digits of a byte. -/
  | hexByte (ds : List Char) (hlength : ds.length = 2) (hds : ∀ d ∈ ds, isHexDigit d = true)
  /-- The digits of a character's code, as many as the letter says. -/
  | uChar (letter : Char) (ds : List Char) (hwidth : (letter, ds.length) ∈ [('u', 4), ('U', 8)])
    (hds : ∀ d ∈ ds, isHexDigit d = true)

/-- The number that hexadecimal digits denote. -/
def hexValue (ds : List Char) : Nat := Nat.ofDigits 16 (ds.reverse.map digitValue)

/-- Whether the number is not the code of a character: it is a surrogate or too large. -/
def isNoCode (code : Nat) : Bool := (0xD800 ≤ code && code ≤ 0xDFFF) || 0x10FFFF < code

namespace Piece

/-- How a piece is written. -/
def text : Piece → List Char
  | raw c _ => [c]
  | escape letter _ _ => ['\\', letter]
  | hexByte ds _ _ => '\\' :: 'x' :: ds
  | uChar letter ds _ _ => '\\' :: letter :: ds

/-- The rule that matches a piece; there is none for a character that stands for itself. -/
def rule? : Piece → Option Rule
  | raw _ _ => none
  | escape _ _ _ => some .escape
  | hexByte _ _ _ => some .hexByte
  | uChar _ _ _ _ => some .uChar

/-- The code that a piece gives in place of a character, if it is not the code of one. -/
def invalidCode? : Piece → Option Nat
  | uChar _ ds _ _ => (some (hexValue ds)).filter isNoCode
  | _ => none

/-- The bytes of a piece. -/
def bytes : Piece → List UInt8
  | raw c _ => String.utf8EncodeChar c
  | escape _ byte _ => [byte]
  | hexByte ds _ _ => [UInt8.ofNat (hexValue ds)]
  | uChar _ ds _ _ => String.utf8EncodeChar (Char.ofNat (hexValue ds))

/-- The token of a piece at an offset. -/
def token? (k : Nat) (p : Piece) : Option Token :=
  p.rule?.map fun r => ⟨r, ⟨k, k + byteSize p.text⟩⟩

/-- The tokens of pieces in a row, from an offset on. -/
def tokens : Nat → List Piece → List Token
  | _, [] => []
  | k, p :: ps => (p.token? k).toList ++ tokens (k + byteSize p.text) ps

/-- The pieces up to the first one with an invalid code. -/
def upToInvalid : List Piece → List Piece
  | [] => []
  | p :: ps => p :: if p.invalidCode?.isSome then [] else upToInvalid ps

/-- What comes out of decoding a string with these pieces. -/
inductive Decodes (ps : List Piece) : Except Error String → Prop
  | invalidCodePoint {code} (h : ps.findSome? invalidCode? = some code) :
    Decodes ps (.error (.invalidCodePoint code))
  | invalidUtf8 (h : ps.findSome? invalidCode? = none)
    (hbytes : ∀ s : String, s.toUTF8.data.toList ≠ ps.flatMap bytes) :
    Decodes ps (.error .invalidUtf8)
  | text {s : String} (h : ps.findSome? invalidCode? = none)
    (hbytes : s.toUTF8.data.toList = ps.flatMap bytes) : Decodes ps (.ok s)

theorem upToInvalid_eq {ps : List Piece} (h : ps.findSome? invalidCode? = none) :
    upToInvalid ps = ps := by
  induction ps with
  | nil => rfl
  | cons p ps ih =>
    rw [List.findSome?_eq_none_iff, List.forall_mem_cons] at h
    rw [upToInvalid, h.1, ih (List.findSome?_eq_none_iff.mpr h.2)]
    rfl

end Piece

/-! ## The grammar reads pieces -/

section Reading

variable {mayOpen : Nat → Prop} {n : Nat} {i j : Cursor} {ts : List Tree}

theorem across_of_mark {f : Char → Bool}
    (h : Derives mayOpen n (.one '\\' ++ .char f) i (.success j ts)) :
    ∃ c, i.Across ['\\', c] j ∧ f c = true ∧ ts = [] := by
  cases h with
  | seq hb hc =>
    obtain ⟨b, hik, hb', rfl⟩ := hb.of_char
    obtain ⟨c, hkj, hc', rfl⟩ := hc.of_char
    obtain rfl : b = '\\' := beq_iff_eq.mp hb'
    exact ⟨c, hik.trans hkj, hc', rfl⟩

theorem across_of_times {f : Char → Bool} {k : Nat}
    (h : Derives mayOpen n (.times k (.char f)) i (.success j ts)) :
    ∃ ds, i.Across ds j ∧ ds.length = k ∧ (∀ d ∈ ds, f d = true) ∧ ts = [] := by
  induction k generalizing i ts with
  | zero =>
    cases h
    exact ⟨[], .refl _, rfl, by simp, rfl⟩
  | succ k ih =>
    cases h with
    | seq hd hds =>
      obtain ⟨d, hik, hfd, rfl⟩ := hd.of_char
      obtain ⟨ds, hkj, hlength, hall, rfl⟩ := ih hds
      exact ⟨d :: ds, hik.trans hkj, by rw [List.length_cons, hlength],
        List.forall_mem_cons.mpr ⟨hfd, hall⟩, rfl⟩

/-- A letter after a backslash, and digits. -/
theorem across_of_hex {letter : Char} {k : Nat}
    (h : Derives mayOpen n (.one '\\' ++ .one letter ++ .times k (.char isHexDigit)) i
      (.success j ts)) :
    ∃ ds, i.Across ('\\' :: letter :: ds) j ∧ ds.length = k ∧
      (∀ d ∈ ds, isHexDigit d = true) ∧ ts = [] := by
  cases h with
  | seq hmark hds =>
    obtain ⟨c, hik, hc, rfl⟩ := across_of_mark hmark
    obtain rfl : c = letter := beq_iff_eq.mp hc
    obtain ⟨ds, hkj, hlength, hall, rfl⟩ := across_of_times hds
    exact ⟨ds, hik.trans hkj, hlength, hall, rfl⟩

/-- The tree of a piece, if it has one, is a single node. -/
def leaf (t : Token) : Tree := .node t.rule t.span []

theorem leaf_token {p : Piece} {r : Rule} (hr : p.rule? = some r) (hij : i.Across p.text j) :
    [Tree.node r ⟨i.offset, j.offset⟩ []] = (p.token? i.offset).toList.map leaf := by
  rw [Piece.token?, hr, hij.2]
  rfl

theorem exists_piece (h : Derives mayOpen n .piece i (.success j ts)) :
    ∃ p : Piece, i.Across p.text j ∧ ts = (p.token? i.offset).toList.map leaf := by
  cases h with
  | altLeft huChar =>
    cases huChar with
    | rule _ hr =>
    cases hr with
    | altLeft h =>
      obtain ⟨ds, hij, hlength, hds, rfl⟩ := across_of_hex h
      have hwidth : ('u', ds.length) ∈ [('u', 4), ('U', 8)] := by simp [hlength]
      exact ⟨.uChar 'u' ds hwidth hds, hij, leaf_token rfl hij⟩
    | altRight _ h =>
      obtain ⟨ds, hij, hlength, hds, rfl⟩ := across_of_hex h
      have hwidth : ('U', ds.length) ∈ [('u', 4), ('U', 8)] := by simp [hlength]
      exact ⟨.uChar 'U' ds hwidth hds, hij, leaf_token rfl hij⟩
  | altRight _ h =>
  cases h with
  | altLeft hescape =>
    cases hescape with
    | rule _ hr =>
      obtain ⟨c, hij, hc, rfl⟩ := across_of_mark hr
      have hletters : ∀ c ∈ ['\'', '"', '\\', 'v', 't', 'r', 'n', 'f', 'b', 'a'],
          ∃ e ∈ escapes, e.1 = c := by simp [escapes]
      obtain ⟨e, he, rfl⟩ := hletters c (List.contains_iff_mem.mp hc)
      exact ⟨.escape e.1 e.2 he, hij, leaf_token rfl hij⟩
  | altRight _ h =>
  cases h with
  | altLeft hbyte =>
    cases hbyte with
    | rule _ hr =>
      obtain ⟨ds, hij, hlength, hds, rfl⟩ := across_of_hex hr
      exact ⟨.hexByte ds hlength hds, hij, leaf_token rfl hij⟩
  | altRight _ hplain =>
    obtain ⟨c, hij, hc, rfl⟩ := (ReadsOne.butNot _).of_derives hplain
    exact ⟨.raw c (by simpa using hc), hij, rfl⟩

/-- A string has pieces between its quotes, and for each of them that has a rule a node. -/
theorem exists_pieces (h : Derives mayOpen n (.rule .stringLiteral) i (.success j ts)) :
    ∃ ps : List Piece, i.Across (quoted (ps.flatMap Piece.text)) j ∧
      ts = [.node .stringLiteral ⟨i.offset, j.offset⟩
        ((Piece.tokens (i.offset + 1) ps).map leaf)] := by
  cases h with
  | rule _ hr =>
  cases hr with
  | seq hopen hclose =>
  cases hopen with
  | @seq _ _ _ _ k _ _ _ hopen hstar =>
    obtain ⟨c, hopen, hquote, rfl⟩ := hopen.of_char
    obtain rfl : c = '"' := beq_iff_eq.mp hquote
    obtain ⟨d, hclose, hquote', rfl⟩ := hclose.of_char
    obtain rfl : d = '"' := beq_iff_eq.mp hquote'
    have hpieces := Derives.star_induction (p := .piece) (P := fun k l us =>
      ∃ ps : List Piece, k.Across (ps.flatMap Piece.text) l ∧
        us = (Piece.tokens k.offset ps).map leaf) ?_ ?_ hstar
    · obtain ⟨ps, hps, rfl⟩ := hpieces
      have hoffset : k.offset = i.offset + 1 := hopen.2
      refine ⟨ps, hopen.trans (hps.trans hclose), ?_⟩
      rw [hoffset, List.nil_append, List.append_nil]
    · intro k _
      exact ⟨[], .refl k, rfl⟩
    · rintro k l m ts us hpiece - ⟨ps, hps, rfl⟩
      obtain ⟨p, hp, rfl⟩ := exists_piece hpiece
      refine ⟨p :: ps, hp.trans hps, ?_⟩
      rw [Piece.tokens, List.map_append, ← hp.2]

end Reading

/-! ## The decoder reads pieces -/

/-- The digits of an escape are taken up to the last one, and the code is then complete. -/
theorem Mode.takes_hex {letter : Char} {ds : List Char} {code : Nat} (hne : ds ≠ [])
    (hds : ∀ d ∈ ds, isHexDigit d = true) :
    (Mode.hex letter ds.length code).Takes ds
      (hexBytes letter (code * 16 ^ ds.length + hexValue ds)) := by
  induction ds generalizing code with
  | nil => exact absurd rfl hne
  | cons d ds ih =>
    obtain ⟨hd, hds⟩ := List.forall_mem_cons.mp hds
    have hdigit : digit? 16 d = some (digitValue d) := @digit?_eq true d hd
    rw [hexValue, ofDigits_reverse_cons, ← hexValue]
    cases ds with
    | nil =>
      have hcode : (code * 16 + digitValue d) * 16 ^ ([] : List Char).length + hexValue [] =
          code * 16 + digitValue d := by simp [hexValue]
      have hstep : (Mode.hex letter [d].length code).step d =
          (hexBytes letter (code * 16 + digitValue d)).map (·, .plain) := by
        rw [Mode.step, hdigit]
        rfl
      rw [hcode]
      cases hpiece : hexBytes letter (code * 16 + digitValue d) with
      | error e => exact .failure (by rw [hstep, hpiece]; rfl)
      | ok piece => exact .last (by rw [hstep, hpiece]; rfl)
    | cons e ds =>
      have hstep : (Mode.hex letter (d :: e :: ds).length code).step d =
          .ok ([], .hex letter (e :: ds).length (code * 16 + digitValue d)) := by
        rw [Mode.step, hdigit]
        rfl
      exact .more hstep (fun h => nomatch h) (ih (List.cons_ne_nil e ds) hds)

/-- A backslash, a letter and as many digits as the letter says are taken for one piece. -/
theorem Mode.takes_mark {letter : Char} {ds : List Char} (hmark : escapedByte? letter = none)
    (hwidth : hexWidth? letter = some ds.length) (hne : ds ≠ [])
    (hds : ∀ d ∈ ds, isHexDigit d = true) :
    Mode.plain.Takes ('\\' :: letter :: ds) (hexBytes letter (hexValue ds)) := by
  have hletter : Mode.escaped.step letter = .ok ([], .hex letter ds.length 0) := by
    rw [Mode.step, hmark, hwidth]
  have hdigits := @Mode.takes_hex letter ds 0 hne hds
  rw [Nat.zero_mul, Nat.zero_add] at hdigits
  exact .more rfl (fun h => nomatch h) (.more hletter (fun h => nomatch h) hdigits)

theorem fromUTF8?_eq_some_iff {bs : List UInt8} {s : String} :
    String.fromUTF8? ⟨bs.toArray⟩ = some s ↔ s.toUTF8.data.toList = bs := by
  constructor
  · intro h
    rw [String.fromUTF8?] at h
    split at h
    · cases h
      rfl
    · cases h
  · rintro rfl
    exact fromUTF8?_toUTF8 s

theorem isNoCode_iff {code : Nat} : isNoCode code = true ↔ ¬ code.isValidChar := by
  simp only [isNoCode, Nat.isValidChar, Bool.or_eq_true, Bool.and_eq_true, decide_eq_true_eq]
  omega

namespace Piece

/-- What comes out of reading one piece. -/
def outcome (p : Piece) : Except Error (List UInt8) :=
  p.invalidCode?.elim (.ok p.bytes) fun code => .error (.invalidCodePoint code)

theorem takes (p : Piece) : Mode.plain.Takes p.text p.outcome := by
  cases p with
  | raw c hc =>
    have hbackslash : c ≠ '\\' := fun h => hc (h ▸ List.mem_cons_self)
    exact .last (if_neg hbackslash)
  | escape letter byte hmem =>
    have hbyte : escapedByte? letter = some byte := by
      simp only [escapes, List.mem_cons, Prod.mk.injEq, List.not_mem_nil, or_false] at hmem
      rcases hmem with ⟨rfl, rfl⟩ | ⟨rfl, rfl⟩ | ⟨rfl, rfl⟩ | ⟨rfl, rfl⟩ | ⟨rfl, rfl⟩ | ⟨rfl, rfl⟩ |
        ⟨rfl, rfl⟩ | ⟨rfl, rfl⟩ | ⟨rfl, rfl⟩ | ⟨rfl, rfl⟩ <;> rfl
    have hletter : Mode.escaped.step letter = .ok ([byte], .plain) := by
      rw [Mode.step, hbyte]
    exact .more rfl (fun h => nomatch h) (.last hletter)
  | hexByte ds hlength hds =>
    have hne : ds ≠ [] := List.ne_nil_of_length_pos (by omega)
    exact Mode.takes_mark rfl (by rw [hlength]; rfl) hne hds
  | uChar letter ds hwidth hds =>
    have hletter : escapedByte? letter = none ∧ hexWidth? letter = some ds.length ∧ letter ≠ 'x' ∧
        0 < ds.length := by
      simp only [List.mem_cons, Prod.mk.injEq, List.not_mem_nil, or_false] at hwidth
      rcases hwidth with ⟨rfl, hlength⟩ | ⟨rfl, hlength⟩ <;> rw [hlength] <;> decide
    obtain ⟨hmark, hlength, hx, hpos⟩ := hletter
    have houtcome : (uChar letter ds hwidth hds).outcome = hexBytes letter (hexValue ds) := by
      rw [hexBytes, if_neg hx, outcome, invalidCode?]
      by_cases hcode : isNoCode (hexValue ds) = true
      · rw [Option.filter_some_pos hcode, if_neg (isNoCode_iff.mp hcode)]
        rfl
      · rw [Option.filter_some_neg (Bool.eq_false_iff.mpr hcode),
          if_pos (not_not.mp (mt isNoCode_iff.mpr hcode))]
        rfl
    rw [houtcome]
    exact Mode.takes_mark hmark hlength (List.ne_nil_of_length_pos hpos) hds

/-- Pieces in a row are decoded to their bytes, unless one of them gives an invalid code. -/
theorem bytes_texts (ps : List Piece) :
    Literal.bytes .plain (ps.flatMap text) =
      (ps.findSome? invalidCode?).elim (.ok (ps.flatMap bytes))
        fun code => .error (.invalidCodePoint code) := by
  induction ps with
  | nil => rfl
  | cons p ps ih =>
    rw [List.flatMap_cons, p.takes.bytes_append, ih, outcome, List.findSome?_cons,
      List.flatMap_cons]
    cases p.invalidCode? with
    | some code => rfl
    | none => cases ps.findSome? invalidCode? <;> rfl

/-- They are read one by one, up to the first one that gives an invalid code. -/
theorem cuts_texts (ps : List Piece) :
    cuts .plain [] (ps.flatMap text) = (upToInvalid ps).map text := by
  induction ps with
  | nil => rfl
  | cons p ps ih =>
    rw [List.flatMap_cons, p.takes.cuts_append, ih, outcome, upToInvalid, List.map_cons]
    cases p.invalidCode? <;> rfl

theorem parseString_quoted_iff (ps : List Piece) (r : Except Error String) :
    parseString (quoted (ps.flatMap text)) = r ↔ Decodes ps r := by
  have hinside : unwrap? ['"'] (quoted (ps.flatMap text)) = some (ps.flatMap text) :=
    unwrap?_eq ['"'] _ rfl
  rw [parseString, hinside, Option.getD_some, bytes_texts]
  -- An invalid code point counts before invalid bytes. The three results exclude one another.
  cases hcode : ps.findSome? invalidCode? with
  | some code =>
    rw [Option.elim_some]
    constructor
    · rintro rfl
      exact .invalidCodePoint hcode
    · intro h
      cases h with
      | invalidCodePoint h => rw [Option.some.inj (hcode.symm.trans h)]
      | invalidUtf8 h _ => cases hcode.symm.trans h
      | text h _ => cases hcode.symm.trans h
  | none =>
    rw [Option.elim_none]
    dsimp only
    cases hs : String.fromUTF8? ⟨(ps.flatMap bytes).toArray⟩ with
    | some s =>
      constructor
      · rintro rfl
        exact .text hcode (fromUTF8?_eq_some_iff.mp hs)
      · intro h
        cases h with
        | invalidCodePoint h => cases hcode.symm.trans h
        | invalidUtf8 _ hno => exact absurd (fromUTF8?_eq_some_iff.mp hs) (hno s)
        | text _ hbytes =>
          rw [Option.some.inj (hs.symm.trans (fromUTF8?_eq_some_iff.mpr hbytes))]
    | none =>
      constructor
      · rintro rfl
        refine .invalidUtf8 hcode fun s hbytes => ?_
        cases hs.symm.trans (fromUTF8?_eq_some_iff.mpr hbytes)
      · intro h
        cases h with
        | invalidCodePoint h => cases hcode.symm.trans h
        | invalidUtf8 _ _ => rfl
        | text _ hbytes => cases hs.symm.trans (fromUTF8?_eq_some_iff.mpr hbytes)

end Piece

/-! ## The tokens of a string -/

namespace Piece

theorem byteSize_text_pos (p : Piece) : 0 < byteSize p.text := by
  cases p <;> simp [text, Char.utf8Size_pos]

theorem tokens_nonempty {k : Nat} {ps : List Piece} :
    ∀ t ∈ tokens k ps, t.span.start ≠ t.span.stop := by
  induction ps generalizing k with
  | nil => simp [tokens]
  | cons p ps ih =>
    intro t ht
    rcases List.mem_append.mp ht with ht | ht
    · obtain ⟨r, -, rfl⟩ := Option.map_eq_some_iff.mp (Option.mem_toList.mp ht)
      have hpos := p.byteSize_text_pos
      show k ≠ k + byteSize p.text
      omega
    · exact ih t ht

end Piece

theorem logged_leaves {ts : List Token} (h : ∀ t ∈ ts, t.span.start ≠ t.span.stop) :
    Tree.logged (ts.map leaf) = ts := by
  induction ts with
  | nil => exact Tree.logged_nil
  | cons t ts ih =>
    obtain ⟨ht, hts⟩ := List.forall_mem_cons.mp h
    have hleaf : Tree.logged [leaf t] = Tree.logged [] ++ [t] := Tree.logged_node ht
    rw [List.map_cons, ← List.singleton_append, Tree.logged_append, ih hts, hleaf, Tree.logged_nil,
      List.nil_append, List.singleton_append]

theorem prunes_leaves {ts : List Token} (h : ∀ t ∈ ts, t.span.start ≠ t.span.stop) :
    Tree.prunes (ts.map leaf) = ts.map leaf := by
  induction ts with
  | nil => exact Tree.prunes_nil
  | cons t ts ih =>
    obtain ⟨ht, hts⟩ := List.forall_mem_cons.mp h
    have hleaf : Tree.prunes [leaf t] = [.node t.rule t.span (Tree.prunes [])] :=
      Tree.prunes_node ht
    rw [List.map_cons, ← List.singleton_append, Tree.prunes_append, ih hts, hleaf, Tree.prunes_nil,
      leaf]

/-- What a match in full logs: the tokens of the pieces, and last the one of the string. -/
theorem exists_pieces_of_run {text : List Char} {s : Peg.State}
    (h : stringLiteral.run (.start text) = .ok s) (hrest : s.rest = []) :
    ∃ ps : List Piece, text = quoted (ps.flatMap Piece.text) ∧
      s.log.reverse = Piece.tokens 1 ps ++ [⟨.stringLiteral, ⟨0, byteSize text⟩⟩] := by
  have hfollows : Follows (fun _ => True) 0 (.rule .stringLiteral) stringLiteral :=
    follows_stringLiteral
  obtain ⟨ts, hts, hlog⟩ := (hfollows (.start text)).1 s h
  obtain ⟨ps, hij, rfl⟩ := exists_pieces hts
  have htext : text = quoted (ps.flatMap Piece.text) := by
    have hall : text = quoted (ps.flatMap Piece.text) ++ s.rest := hij.1
    rwa [hrest, List.append_nil] at hall
  have hstop : s.offset = byteSize text := by
    have hoffset : s.offset = 0 + byteSize (quoted (ps.flatMap Piece.text)) := hij.2
    rwa [Nat.zero_add, ← htext] at hoffset
  refine ⟨ps, htext, ?_⟩
  have hne : 0 ≠ s.offset := by
    rw [hstop, htext, quoted, Text.byteSize_cons]
    have hpos := Char.utf8Size_pos '"'
    omega
  have hlogged := logged_leaves (@Piece.tokens_nonempty 1 ps)
  have hnode : Tree.logged [.node .stringLiteral ⟨0, s.offset⟩ ((Piece.tokens 1 ps).map leaf)] =
      Piece.tokens 1 ps ++ [⟨.stringLiteral, ⟨0, s.offset⟩⟩] := by
    rw [Tree.logged_node hne, hlogged]
  have hstart : (Peg.State.start text).log = [] := rfl
  rw [hlog, hstart, List.append_nil, List.reverse_reverse, ← hstop]
  exact hnode

end Literal

/-! ## Strings in scripts -/

open Literal

theorem Form.Literal.value_string {κ : Type} (source : Source) (text : List Char)
    (span : Text.Span) :
    (Form.Literal.value source ⟨.string, text, span⟩ : Reply κ) =
      ((parseString text).map Value.string).mapError
        fun e => .failed (.badString e) ⟨source, span, none⟩ := by
  rw [Form.Literal.value]
  dsimp only
  cases parseString text <;> rfl

/-- The node of a string has the nodes of its pieces below it. -/
theorem exists_pieces_of_node {source : Source} {p : Program}
    (hp : Program.compile source = .ok p) :
    ∃ root, p.tree? = some root ∧ ∀ u ∈ root.nodes, u.rule = .stringLiteral →
      ∃ ps : List Piece, u.children = (Piece.tokens (u.span.start + 1) ps).map leaf ∧
        Form.literalOf source.chars u =
          .ok ⟨.string, quoted (ps.flatMap Piece.text), u.span⟩ := by
  obtain ⟨root, hroot, hnodes⟩ := Program.exists_match_of_literal .string hp
  refine ⟨root, hroot, fun u hu hrule => ?_⟩
  obtain ⟨n, k, l, ts, hmatch, rfl, hread⟩ := hnodes u hu hrule
  obtain ⟨ps, hkl, hnode⟩ := exists_pieces hmatch
  simp only [nodeAt, List.cons.injEq, Tree.node.injEq, and_true, true_and] at hnode
  obtain ⟨-, rfl⟩ := hnode
  exact ⟨ps, prunes_leaves Piece.tokens_nonempty, hread _ hkl⟩

/-- Grammar and decoder agree on short strings. A text that is matched in full is made of pieces:
these are what the tokens say, and what the decoder reads one by one, up to the first one that gives
an invalid code. What comes out of decoding is given by the pieces, and it never is that an escape
is invalid. No code that the decoder computes exceeds 32 bits, whatever it reads. In a script every
node of a string has its pieces below it, and evaluates to what comes out of decoding them; if that
fails, the error says so at the place of the string. -/
theorem strings_decoded :
    (∀ (text : List Char) (s : Peg.State), stringLiteral.run (.start text) = .ok s → s.rest = [] →
      ∃ ps : List Piece, text = quoted (ps.flatMap Piece.text) ∧
        s.log.reverse = Piece.tokens 1 ps ++ [⟨.stringLiteral, ⟨0, byteSize text⟩⟩] ∧
        cuts .plain [] ((unwrap? ['"'] text).getD text) =
          (Piece.upToInvalid ps).map Piece.text ∧
        (ps.findSome? Piece.invalidCode? = none → Piece.upToInvalid ps = ps) ∧
        (∀ r, parseString text = r ↔ Piece.Decodes ps r) ∧
        ∀ c, parseString text ≠ .error (.invalidEscape c)) ∧
    (∀ (cs : List Char) (letter c : Char) (left code d : Nat),
      Mode.plain.after cs = .ok (.hex letter left code) → digit? 16 c = some d →
        code * 16 + d < 2 ^ 32) ∧
    ∀ (κ : Type) (source : Source) (p : Program), Program.compile source = .ok p →
      ∃ root, p.tree? = some root ∧ ∀ u ∈ root.nodes, u.rule = .stringLiteral →
        ∃ (ps : List Piece) (r : _),
          u.children = (Piece.tokens (u.span.start + 1) ps).map leaf ∧
          Form.literalOf source.chars u =
            .ok ⟨.string, quoted (ps.flatMap Piece.text), u.span⟩ ∧
          Piece.Decodes ps r ∧
          (Form.Literal.value source ⟨.string, quoted (ps.flatMap Piece.text), u.span⟩ : Reply κ) =
            (r.map Value.string).mapError
              fun e => .failed (.badString e) ⟨source, u.span, none⟩ := by
  refine ⟨fun text s h hrest => ?_, fun cs letter c left code d h hd => Mode.lt_of_after h hd, ?_⟩
  · obtain ⟨ps, rfl, hlog⟩ := exists_pieces_of_run h hrest
    have hinside : unwrap? ['"'] (quoted (ps.flatMap Piece.text)) =
        some (ps.flatMap Piece.text) := unwrap?_eq ['"'] _ rfl
    refine ⟨ps, rfl, hlog, ?_, Piece.upToInvalid_eq, Piece.parseString_quoted_iff ps,
      fun c hc => ?_⟩
    · rw [hinside, Option.getD_some]
      exact Piece.cuts_texts ps
    · cases (Piece.parseString_quoted_iff ps _).mp hc
  · intro κ source p hp
    obtain ⟨root, hroot, hread⟩ := exists_pieces_of_node hp
    refine ⟨root, hroot, fun u hu hrule => ?_⟩
    obtain ⟨ps, hchildren, hliteral⟩ := hread u hu hrule
    exact ⟨ps, _, hchildren, hliteral, (Piece.parseString_quoted_iff ps _).mp rfl,
      Form.Literal.value_string source _ u.span⟩

/-- A string with a piece of each kind; the code in it is a surrogate, and the bytes around it are
no encoding. -/
def Literal.surrogate : List Char := "\"é\\n\\xC3\\uD800\\x80\"".toList

/-- The string as an operand. -/
def Source.surrogate : Source := ⟨"script", "(f \"é\\n\\xC3\\uD800\\x80\" ; c\n)"⟩

/-- The decoder stops at the surrogate, the last but one of the pieces; the largest code that can be
written has 32 bits. -/
theorem strings_decoded_surrogate :
    (∃ (s : Peg.State) (ps : List Piece), stringLiteral.run (.start Literal.surrogate) = .ok s ∧
      s.rest = [] ∧ Literal.surrogate = quoted (ps.flatMap Piece.text) ∧
      Piece.tokens 1 ps ++ [⟨.stringLiteral, ⟨0, 20⟩⟩] =
        [⟨.escape, ⟨3, 5⟩⟩, ⟨.hexByte, ⟨5, 9⟩⟩, ⟨.uChar, ⟨9, 15⟩⟩, ⟨.hexByte, ⟨15, 19⟩⟩,
          ⟨.stringLiteral, ⟨0, 20⟩⟩] ∧
      (Piece.upToInvalid ps).map Piece.text =
        ["é", "\\n", "\\xC3", "\\uD800"].map String.toList ∧
      Piece.Decodes ps (.error (.invalidCodePoint 0xD800))) ∧
    (Mode.plain.after "\\UFFFFFFF".toList = .ok (.hex 'U' 1 0xFFFFFFF) ∧
      digit? 16 'F' = some 15 ∧ 0xFFFFFFF * 16 + 15 < 2 ^ 32) ∧
    ∃ (p : Program) (root u : Tree) (ps : List Piece), Program.compile .surrogate = .ok p ∧
      p.tree? = some root ∧ u ∈ root.nodes ∧ u.rule = .stringLiteral ∧
      u.children.length = 4 ∧
      u.children = (Piece.tokens (u.span.start + 1) ps).map leaf := by
  obtain ⟨hwhole, hcode, hscript⟩ := strings_decoded
  refine ⟨?_, ?_, ?_⟩
  · have hrun : (stringLiteral.run (.start Literal.surrogate)).toOption.map
        (fun s => (s.rest, s.log.reverse)) =
        some ([], [⟨.escape, ⟨3, 5⟩⟩, ⟨.hexByte, ⟨5, 9⟩⟩, ⟨.uChar, ⟨9, 15⟩⟩, ⟨.hexByte, ⟨15, 19⟩⟩,
          ⟨.stringLiteral, ⟨0, 20⟩⟩]) := by
      decide +kernel
    obtain ⟨s, hs, hlog⟩ := Option.map_eq_some_iff.mp hrun
    obtain ⟨hrest, hlog⟩ := Prod.mk.inj hlog
    have hs : stringLiteral.run (.start Literal.surrogate) = .ok s := by
      cases h : stringLiteral.run (.start Literal.surrogate) with
      | error g =>
        rw [h] at hs
        cases hs
      | ok t =>
        rw [h] at hs
        rw [Option.some.inj hs]
    obtain ⟨ps, htext, htokens, hcuts, -, hdecodes, -⟩ := hwhole _ s hs hrest
    refine ⟨s, ps, hs, hrest, htext, ?_, ?_, ?_⟩
    · rw [← hlog, htokens]
      rfl
    · rw [← hcuts]
      decide +kernel
    · rw [← hdecodes]
      decide +kernel
  · have hafter : Mode.plain.after "\\UFFFFFFF".toList = .ok (.hex 'U' 1 0xFFFFFFF) := by
      rfl
    have hdigit : digit? 16 'F' = some 15 := rfl
    exact ⟨hafter, hdigit, hcode _ _ _ _ _ _ hafter hdigit⟩
  · have hread : (((Program.compile .surrogate).toOption.bind Program.tree?).bind
        fun t => t.nodes.find? (·.rule == .stringLiteral)).map (fun u => u.children.length) =
        some 4 := by
      decide +kernel
    obtain ⟨p, root, u, hp, htree, hu, hrule, hlength⟩ := Program.exists_node_of_find? hread
    obtain ⟨root', htree', hnodes⟩ := hscript Unit .surrogate p hp
    cases htree.symm.trans htree'
    obtain ⟨ps, -, hchildren, -, -, -⟩ := hnodes u hu hrule
    exact ⟨p, root, u, ps, hp, htree, hu, hrule, hlength, hchildren⟩

end Fexpr
