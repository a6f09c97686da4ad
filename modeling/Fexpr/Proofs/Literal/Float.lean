import Fexpr.Literal.Float
import Fexpr.Proofs.Decimal.Reading
import Fexpr.Proofs.Literal.RoundTrip

/-!
# Decoding floats

A `Floating` has the parts of a float literal, in one of the three shapes that the grammar knows.
The texts of such literals are what the grammar takes for floats (`matchesWhole_float_iff`). Without
its underscores the text is that of a decimal (`Floating.filter_text`), so that it is read, and
decoding a float cannot fail. No text is both a float and an integer
(`not_matchesWhole_float_and_integer`).
-/

namespace Fexpr

open Grammar
open Form (LiteralKind)

namespace Literal

/-! ## The parts of a float -/

/-- Decimal digits with underscores between them. Each further digit comes with the number of
underscores before it. -/
structure Digits where
  /-- The first digit. -/
  first : Char
  /-- The further digits. -/
  more : List (Nat × Char)
  first_isDigit : first.isDigit = true
  more_isDigit : ∀ d ∈ more, d.2.isDigit = true

namespace Digits

variable (ds : Digits)

def text : List Char := ds.first :: spread ds.more

/-- The digits without underscores. -/
def plain : List Char := ds.first :: ds.more.map Prod.snd

theorem plain_isDigit : ∀ c ∈ ds.plain, c.isDigit = true :=
  @digitClass_of_mem false _ _ ds.first_isDigit ds.more_isDigit

theorem filter_text : ds.text.filter (· ≠ '_') = ds.plain :=
  @filter_cons_spread false _ _ ds.first_isDigit ds.more_isDigit

end Digits

/-- The exponent of a float. -/
structure Exponent where
  /-- The mark. -/
  mark : Char
  /-- The sign. -/
  sign? : Option Char
  /-- The digits. -/
  digits : Digits
  mark_mem : mark ∈ ['e', 'E']
  sign_mem : ∀ c ∈ sign?, c ∈ ['+', '-']

namespace Exponent

variable (e : Exponent)

def text : List Char := e.mark :: (e.sign?.toList ++ e.digits.text)

/-- The exponent without underscores, as a power of ten. -/
def power : Decimal.Power :=
  ⟨e.mark, e.sign?, e.digits.plain, e.mark_mem, e.sign_mem, List.cons_ne_nil _ _,
    e.digits.plain_isDigit⟩

end Exponent

theorem filter_sign {sign? : Option Char} (h : ∀ c ∈ sign?, c ∈ ['+', '-']) :
    sign?.toList.filter (· ≠ '_') = sign?.toList := by
  refine List.filter_eq_self.mpr fun c hc => ?_
  have hmem := h c (Option.mem_toList.mp hc)
  simp only [List.mem_cons, List.not_mem_nil, or_false] at hmem
  rcases hmem with rfl | rfl <;> rfl

theorem Exponent.filter_text (e : Exponent) : e.text.filter (· ≠ '_') = e.power.text := by
  have hmark : e.mark ≠ '_' := by
    intro h
    have hmem := e.mark_mem
    rw [h] at hmem
    revert hmem
    decide
  rw [text, List.filter_cons_of_pos (by simp [hmark]), List.filter_append, filter_sign e.sign_mem,
    e.digits.filter_text]
  rfl

/-- What stands behind the sign of a float: digits and a point, digits and an exponent, or a point
and digits. -/
inductive Shape
  | pointed (whole : Digits) (places? : Option Digits) (exponent? : Option Exponent)
  | raised (whole : Digits) (exponent : Exponent)
  | leading (places : Digits) (exponent? : Option Exponent)

namespace Shape

def text : Shape → List Char
  | pointed whole places? exponent? =>
    whole.text ++ '.' :: (places?.elim [] Digits.text ++ exponent?.elim [] Exponent.text)
  | raised whole exponent => whole.text ++ exponent.text
  | leading places exponent? => '.' :: (places.text ++ exponent?.elim [] Exponent.text)

end Shape

/-- The parts of a float literal. -/
structure Floating where
  /-- The sign. -/
  sign? : Option Char
  /-- What stands behind it. -/
  shape : Shape
  sign_mem : ∀ c ∈ sign?, c ∈ ['+', '-']

namespace Floating

def text (f : Floating) : List Char := f.sign?.toList ++ f.shape.text

/-- The float without underscores, as a decimal. -/
def parts : Floating → Decimal.Parts
  | ⟨sign?, .pointed whole places? exponent?, sign_mem⟩ =>
    ⟨sign?, whole.plain, some (places?.elim [] Digits.plain), exponent?.map Exponent.power,
      sign_mem, whole.plain_isDigit, by
        cases places? with
        | none => exact List.forall_mem_nil _
        | some places => exact places.plain_isDigit, List.cons_ne_nil _ _⟩
  | ⟨sign?, .raised whole exponent, sign_mem⟩ =>
    ⟨sign?, whole.plain, none, some exponent.power, sign_mem, whole.plain_isDigit,
      List.forall_mem_nil _, List.cons_ne_nil _ _⟩
  | ⟨sign?, .leading places exponent?, sign_mem⟩ =>
    ⟨sign?, [], some places.plain, exponent?.map Exponent.power, sign_mem, List.forall_mem_nil _,
      places.plain_isDigit, List.cons_ne_nil _ _⟩

end Floating

/-! ## Decoding -/

theorem filter_elim_exponent (exponent? : Option Exponent) :
    (exponent?.elim [] Exponent.text).filter (· ≠ '_') =
      (exponent?.map Exponent.power).elim [] Decimal.Power.text := by
  cases exponent? with
  | none => rfl
  | some e => exact e.filter_text

/-- Without underscores a float is a decimal. -/
theorem Floating.filter_text (f : Floating) : f.text.filter (· ≠ '_') = f.parts.text := by
  obtain ⟨sign?, shape, sign_mem⟩ := f
  have hpoint : ∀ cs : List Char,
      ('.' :: cs).filter (· ≠ '_') = '.' :: cs.filter (· ≠ '_') :=
    fun cs => List.filter_cons_of_pos rfl
  rw [text, List.filter_append, filter_sign sign_mem]
  cases shape with
  | pointed whole places? exponent? =>
    have hplaces : (places?.elim [] Digits.text).filter (· ≠ '_') =
        places?.elim [] Digits.plain := by
      cases places? with
      | none => rfl
      | some places => exact places.filter_text
    rw [Shape.text, List.filter_append, whole.filter_text, hpoint, List.filter_append, hplaces,
      filter_elim_exponent]
    rfl
  | raised whole exponent =>
    rw [Shape.text, List.filter_append, whole.filter_text, exponent.filter_text]
    rfl
  | leading places exponent? =>
    rw [Shape.text, hpoint, List.filter_append, places.filter_text, filter_elim_exponent]
    rfl

theorem Floating.parseFloat_text (f : Floating) : parseFloat f.text = .ok f.parts.value := by
  rw [parseFloat, f.filter_text, f.parts.read?_text]

end Literal

namespace Grammar

open Literal (Digits Exponent Shape Floating)

/-! ## Reading floats -/

section Reading

variable {mayOpen : Nat → Prop} {n : Nat} {i j : Cursor} {ts : List Tree}

theorem exists_digits (h : Derives mayOpen n .digits i (.success j ts)) :
    ∃ ds : Digits, i.Across ds.text j := by
  obtain ⟨c, more, hij, hc, hmore⟩ := exists_digitsOf h
  exact ⟨⟨c, more, hc, hmore⟩, hij⟩

theorem exists_exponent (h : Derives mayOpen n (.rule .exponent) i (.success j ts)) :
    ∃ e : Exponent, i.Across e.text j := by
  cases h with
  | rule _ hr =>
  cases hr with
  | seq hfront hdigits =>
  cases hfront with
  | seq hmark hsign =>
    obtain ⟨mark, hmark, hmark_mem, -⟩ := hmark.of_char
    obtain ⟨sign?, hsign, hsign_mem⟩ := exists_of_opt_oneOf hsign
    obtain ⟨ds, hdigits⟩ := exists_digits hdigits
    exact ⟨⟨mark, sign?, ds, List.contains_iff_mem.mp hmark_mem, hsign_mem⟩,
      hmark.trans (hsign.trans hdigits)⟩

/-- What may be left out is read or is not there. -/
theorem exists_of_opt {α : Type} {text : α → List Char} {p : Clause}
    (hp : ∀ {j ts}, Derives mayOpen n p i (.success j ts) → ∃ a, i.Across (text a) j)
    (h : Derives mayOpen n (.opt p) i (.success j ts)) :
    ∃ a? : Option α, i.Across (a?.elim [] text) j := by
  cases h with
  | opt ha =>
    obtain ⟨a, ha⟩ := hp ha
    exact ⟨some a, ha⟩
  | optNone _ => exact ⟨none, .refl i⟩

/-- What the grammar takes for a float has the parts of one. -/
theorem exists_floating (h : Derives mayOpen n (.rule .floatLiteral) i (.success j ts)) :
    ∃ f : Floating, i.Across f.text j := by
  cases h with
  | rule _ hr =>
  cases hr with
  | seq hsign hshape =>
  obtain ⟨sign?, hsign, hsign_mem⟩ := exists_of_opt_oneOf hsign
  suffices hshape : ∃ shape : Shape, Cursor.Across _ shape.text j by
    obtain ⟨shape, hshape⟩ := hshape
    exact ⟨⟨sign?, shape, hsign_mem⟩, hsign.trans hshape⟩
  -- The three shapes of the grammar are those of `Shape`, in the same order.
  cases hshape with
  | altLeft hpointed =>
    cases hpointed with
    | seq hpointed hexponent =>
    cases hpointed with
    | seq hpointed hplaces =>
    cases hpointed with
    | seq hwhole hpoint =>
      obtain ⟨whole, hwhole⟩ := exists_digits hwhole
      obtain ⟨c, hpoint, hc, -⟩ := hpoint.of_char
      obtain rfl : c = '.' := beq_iff_eq.mp hc
      obtain ⟨places?, hplaces⟩ := exists_of_opt exists_digits hplaces
      obtain ⟨exponent?, hexponent⟩ := exists_of_opt exists_exponent hexponent
      exact ⟨.pointed whole places? exponent?,
        hwhole.trans (hpoint.trans (hplaces.trans hexponent))⟩
  | altRight _ hshape =>
    cases hshape with
    | altLeft hraised =>
      cases hraised with
      | seq hwhole hexponent =>
        obtain ⟨whole, hwhole⟩ := exists_digits hwhole
        obtain ⟨exponent, hexponent⟩ := exists_exponent hexponent
        exact ⟨.raised whole exponent, hwhole.trans hexponent⟩
    | altRight _ hleading =>
      cases hleading with
      | seq hleading hexponent =>
      cases hleading with
      | seq hpoint hplaces =>
        obtain ⟨c, hpoint, hc, -⟩ := hpoint.of_char
        obtain rfl : c = '.' := beq_iff_eq.mp hc
        obtain ⟨places, hplaces⟩ := exists_digits hplaces
        obtain ⟨exponent?, hexponent⟩ := exists_of_opt exists_exponent hexponent
        exact ⟨.leading places exponent?, hpoint.trans (hplaces.trans hexponent)⟩

end Reading

/-! ## Floats are read -/

section Lexing

variable {i j : Cursor}

/-- The character ends the digits of a float: it is a point, marks an exponent or closes the
float. -/
def EndsRun (c : Char) : Prop := c ∈ ['.', 'e', 'E'] ∨ isSolid c = false

theorem EndsRun.not_digit {c : Char} (hc : EndsRun c) : c ≠ '_' ∧ c.isDigit = false := by
  rcases hc with hc | hc
  · simp only [List.mem_cons, List.not_mem_nil, or_false] at hc
    rcases hc with rfl | rfl | rfl <;> decide
  · refine ⟨?_, solid_isDigit.eq_false hc⟩
    rintro rfl
    cases hc

theorem lexes_digits (ds : Digits) (hij : i.Across ds.text j)
    (hj : ∀ c ∈ j.rest.head?, EndsRun c) : Lexes .digits i j [] :=
  lexes_digitsOf rfl ds.first_isDigit ds.more_isDigit hij fun c hc => (hj c hc).not_digit

theorem digits_fails {cs : List Char} (h : ∀ c ∈ cs.head?, EndsRun c) : Fails .digits cs :=
  .seq ((ReadsOne.char _).fails fun c hc => (h c hc).not_digit.2)

theorem exists_lexes_exponent (e : Exponent) (hij : i.Across e.text j) (hj : Delimited j.rest) :
    ∃ ts, Lexes (.rule .exponent) i j ts := by
  obtain ⟨k, hik, hkj⟩ := hij.split [e.mark]
  obtain ⟨l, hkl, hlj⟩ := hkj.split e.sign?.toList
  have hsign : Lexes (.opt .sign) k l [] := by
    refine lexes_opt_oneOf hkl e.sign_mem fun _ c hc => ?_
    rw [hlj.1] at hc
    cases hc
    exact not_sign_of_isDigit e.digits.first_isDigit
  have hdigits := lexes_digits e.digits hlj fun c hc => .inr (hj c hc)
  exact ⟨_, fun mayOpen n => .rule (fun h => absurd h (by decide))
    (.seq (.seq (.charAcross hik (List.contains_iff_mem.mpr e.mark_mem)) (hsign mayOpen n))
      (hdigits mayOpen n))⟩

/-- The exponent of a float or what closes it. -/
theorem endsRun_of_exponent {exponent? : Option Exponent}
    (hij : i.Across (exponent?.elim [] Exponent.text) j) (hj : Delimited j.rest) :
    ∀ c ∈ i.rest.head?, EndsRun c := by
  intro c hc
  rw [hij.1] at hc
  cases exponent? with
  | none => exact .inr (hj c hc)
  | some e =>
    cases hc
    exact .inl (List.mem_cons_of_mem '.' e.mark_mem)

theorem exists_lexes_opt_exponent {exponent? : Option Exponent}
    (hij : i.Across (exponent?.elim [] Exponent.text) j) (hj : Delimited j.rest) :
    ∃ ts, Lexes (.opt (.rule .exponent)) i j ts := by
  cases exponent? with
  | none =>
    obtain rfl := hij.eq_of_nil
    have hfail := exponent_fails (hj.fails solid_exponentMark)
    exact ⟨[], fun mayOpen n => .optNone (hfail mayOpen n i.offset)⟩
  | some e =>
    obtain ⟨ts, hts⟩ := exists_lexes_exponent e hij hj
    exact ⟨ts, fun mayOpen n => .opt (hts mayOpen n)⟩

theorem lexes_opt_digits {places? : Option Digits} (hij : i.Across (places?.elim [] Digits.text) j)
    (hj : ∀ c ∈ j.rest.head?, EndsRun c) : Lexes (.opt .digits) i j [] := by
  intro mayOpen n
  cases places? with
  | none =>
    obtain rfl := hij.eq_of_nil
    exact .optNone (digits_fails hj mayOpen n i.offset)
  | some places => exact .opt (lexes_digits places hij hj mayOpen n)

/-- Each shape is read by the alternative that is meant for it. -/
theorem exists_lexes_shape (shape : Shape) (hij : i.Across shape.text j) (hj : Delimited j.rest) :
    ∃ ts, Lexes
      (.digits ++ .one '.' ++ .opt .digits ++ .opt (.rule .exponent)
        <|> .digits ++ .rule .exponent
        <|> .one '.' ++ .digits ++ .opt (.rule .exponent)) i j ts := by
  cases shape with
  | pointed whole places? exponent? =>
    obtain ⟨k, hik, hkj⟩ := hij.split whole.text
    obtain ⟨l, hkl, hlj⟩ := hkj.split ['.']
    obtain ⟨m, hlm, hmj⟩ := hlj.split (places?.elim [] Digits.text)
    have hwhole := lexes_digits whole hik fun c hc => by
      rw [hkl.1] at hc
      cases hc
      exact .inl List.mem_cons_self
    have hplaces := lexes_opt_digits hlm (endsRun_of_exponent hmj hj)
    obtain ⟨ts, hexponent⟩ := exists_lexes_opt_exponent hmj hj
    exact ⟨_, fun mayOpen n => .altLeft (.seq (.seq (.seq (hwhole mayOpen n)
      (.charAcross (f := (· == '.')) hkl rfl)) (hplaces mayOpen n)) (hexponent mayOpen n))⟩
  | raised whole exponent =>
    obtain ⟨k, hik, hkj⟩ := hij.split whole.text
    have hmark := @endsRun_of_exponent k j (some exponent) hkj hj
    have hwhole := lexes_digits whole hik hmark
    -- The first alternative takes the digits too, and fails at the mark.
    have hpoint : Fails (.one '.') k.rest := by
      rw [hkj.1]
      refine .char (beq_eq_false_iff_ne.mpr fun h => ?_)
      have hmem := exponent.mark_mem
      rw [h] at hmem
      revert hmem
      decide
    obtain ⟨ts, hexponent⟩ := exists_lexes_exponent exponent hkj hj
    exact ⟨_, fun mayOpen n => .altRight
      (.seqLeft (.seqLeft (.seqRight (hwhole mayOpen n) (hpoint mayOpen n k.offset))))
      (.altLeft (.seq (hwhole mayOpen n) (hexponent mayOpen n)))⟩
  | leading places exponent? =>
    obtain ⟨k, hik, hkj⟩ := hij.split ['.']
    obtain ⟨l, hkl, hlj⟩ := hkj.split places.text
    have hnone : Fails .digits i.rest := digits_fails fun c hc => by
      rw [hik.1] at hc
      cases hc
      exact .inl List.mem_cons_self
    have hplaces := lexes_digits places hkl (endsRun_of_exponent hlj hj)
    obtain ⟨ts, hexponent⟩ := exists_lexes_opt_exponent hlj hj
    exact ⟨_, fun mayOpen n => .altRight
      (.seqLeft (.seqLeft (.seqLeft (hnone mayOpen n i.offset))))
      (.altRight (.seqLeft (hnone mayOpen n i.offset))
        (.seq (.seq (.charAcross (f := (· == '.')) hik rfl) (hplaces mayOpen n))
          (hexponent mayOpen n)))⟩

end Lexing

end Grammar

namespace Literal

/-- Behind the sign there is a digit or the point. -/
theorem Shape.exists_text_eq (shape : Shape) :
    ∃ c cs, shape.text = c :: cs ∧ c ∉ ['+', '-'] := by
  cases shape with
  | pointed whole _ _ => exact ⟨whole.first, _, rfl, not_sign_of_isDigit whole.first_isDigit⟩
  | raised whole _ => exact ⟨whole.first, _, rfl, not_sign_of_isDigit whole.first_isDigit⟩
  | leading _ _ => exact ⟨'.', _, rfl, by decide⟩

/-- A float is read in any text in which it is closed. -/
theorem Floating.exists_lexes (f : Floating) {i j : Cursor} (hij : i.Across f.text j)
    (hj : Delimited j.rest) : ∃ ts, Lexes (.rule .floatLiteral) i j ts := by
  obtain ⟨k, hik, hkj⟩ := hij.split f.sign?.toList
  have hsign : Lexes (.opt .sign) i k [] := by
    refine lexes_opt_oneOf hik f.sign_mem fun _ c hc => ?_
    obtain ⟨d, cs, hshape, hd⟩ := f.shape.exists_text_eq
    rw [hkj.1, hshape] at hc
    cases hc
    exact hd
  obtain ⟨ts, hshape⟩ := exists_lexes_shape f.shape hkj hj
  exact ⟨_, fun mayOpen n => .rule (fun h => absurd h (by decide))
    (.seq (hsign mayOpen n) (hshape mayOpen n))⟩

end Literal

open Literal

theorem matchesWhole_float_iff {text : List Char} :
    LiteralKind.float.matchesWhole text = true ↔ ∃ f : Floating, f.text = text :=
  matchesWhole_iff_exists exists_floating Floating.exists_lexes

/-- No text is both an integer and a float: where the digits of an integer end there is neither a
point nor an exponent. -/
theorem not_matchesWhole_float_and_integer (text : List Char) :
    ¬ (LiteralKind.float.matchesWhole text = true ∧
      LiteralKind.integer.matchesWhole text = true) := by
  rintro ⟨hfloat, hinteger⟩
  obtain ⟨ts, hfloat⟩ := derives_of_matchesWhole hfloat (fun _ => True) 0
  obtain ⟨us, hinteger⟩ := derives_of_matchesWhole hinteger (fun _ => True) 0
  have hfail := floatLiteral_fails_of_integerLiteral hinteger (by rintro c ⟨⟩)
  cases hfloat.unique hfail

/-! ## Floats in scripts -/

theorem Form.Literal.value_floating {κ : Type} (source : Source) (f : Floating) (span : Text.Span) :
    (Form.Literal.value source ⟨.float, f.text, span⟩ : Reply κ) = .ok (.float f.parts.value) := by
  rw [Form.Literal.value]
  dsimp only
  rw [f.parseFloat_text]

/-- The node of a float is read as one. -/
theorem exists_floating_of_node {source : Source} {p : Program}
    (hp : Program.compile source = .ok p) :
    ∃ root, p.tree? = some root ∧ ∀ u ∈ root.nodes, u.rule = .floatLiteral →
      ∃ f : Floating, Form.literalOf source.chars u = .ok ⟨.float, f.text, u.span⟩ := by
  obtain ⟨root, hroot, hnodes⟩ := Program.exists_match_of_literal .float hp
  refine ⟨root, hroot, fun u hu hrule => ?_⟩
  obtain ⟨n, k, l, ts, hmatch, -, hread⟩ := hnodes u hu hrule
  obtain ⟨f, hf⟩ := exists_floating hmatch
  exact ⟨f, hread f.text hf⟩

/-- Decoding a float never fails. The texts that are matched in full are those of float literals.
Without its underscores such a text is one of a decimal, which are, apart from names, the only texts
that are read as floats; so it is decoded, to the float nearest to the decimal. No text is matched
in full both as a float and as an integer. In a script every node of a float is read as a float
literal, and evaluating it gives its float, in every world and whatever the procedures are. -/
theorem floats_decoded :
    (∀ text, LiteralKind.float.matchesWhole text = true ↔ ∃ f : Floating, f.text = text) ∧
    (∀ f : Floating, f.text.filter (· ≠ '_') = f.parts.text ∧
      parseFloat f.text = .ok f.parts.value) ∧
    (∀ cs, (Decimal.read? cs).isSome = true ↔ (∃ d : Decimal.Parts, d.text = cs) ∨
      ∃ (sign? : Option Char) (name : List Char), (∀ c ∈ sign?, c ∈ ['+', '-']) ∧
        Decimal.IsName name ∧ cs = sign?.toList ++ name) ∧
    (∀ text, ¬ (LiteralKind.float.matchesWhole text = true ∧
      LiteralKind.integer.matchesWhole text = true)) ∧
    ∀ (source : Source) (p : Program), Program.compile source = .ok p →
      ∃ root, p.tree? = some root ∧ ∀ u ∈ root.nodes, u.rule = .floatLiteral →
        ∃ f : Floating, Form.literalOf source.chars u = .ok ⟨.float, f.text, u.span⟩ ∧
          ∀ (κ : Type) (host : Host κ) (w w' : World κ),
            w.evaluator host source (.atom (.literal ⟨.float, f.text, u.span⟩)) w' =
              .reply (.ok (.float f.parts.value)) w' := by
  refine ⟨fun text => matchesWhole_float_iff, fun f => ⟨f.filter_text, f.parseFloat_text⟩,
    fun cs => Decimal.read?_isSome_iff, not_matchesWhole_float_and_integer, ?_⟩
  intro source p hp
  obtain ⟨root, hroot, hread⟩ := exists_floating_of_node hp
  refine ⟨root, hroot, fun u hu hrule => ?_⟩
  obtain ⟨f, hf⟩ := hread u hu hrule
  refine ⟨f, hf, fun κ host w w' => ?_⟩
  exact w.evaluator_literal host (Form.Literal.value_floating source f u.span) w'

/-- A float without places, with separators in its digits and in its exponent, among operands. -/
def Source.hundreds : Source := ⟨"script", "(f -1_0.e+0__2 ; c\n)"⟩

/-- Without the separators it is a decimal, and it is decoded to the float of that. -/
theorem floats_decoded_hundreds :
    ∃ (p : Program) (root u : Tree) (f : Floating), Program.compile .hundreds = .ok p ∧
      p.tree? = some root ∧ u ∈ root.nodes ∧ u.rule = .floatLiteral ∧
      Form.literalOf Source.hundreds.chars u = .ok ⟨.float, f.text, u.span⟩ ∧
      f.text = "-1_0.e+0__2".toList ∧ f.parts.text = "-10.e+02".toList ∧
      parseFloat f.text = .ok f.parts.value := by
  have hread : (((Program.compile .hundreds).toOption.bind Program.tree?).bind
      fun t => t.nodes.find? (·.rule == .floatLiteral)).map
      (fun u => (Form.literalOf Source.hundreds.chars u).toOption.map Form.Literal.text) =
      some (some "-1_0.e+0__2".toList) := by
    decide +kernel
  obtain ⟨p, root, u, hp, htree, hu, hrule, htext⟩ := Program.exists_node_of_find? hread
  obtain ⟨-, hfloats, -, -, hscripts⟩ := floats_decoded
  obtain ⟨root', htree', hnodes⟩ := hscripts .hundreds p hp
  cases htree.symm.trans htree'
  obtain ⟨f, hf, -⟩ := hnodes u hu hrule
  rw [hf] at htext
  have htext : f.text = "-1_0.e+0__2".toList := Option.some.inj htext
  obtain ⟨hplain, hparse⟩ := hfloats f
  refine ⟨p, root, u, f, hp, htree, hu, hrule, hf, htext, ?_, hparse⟩
  rw [← hplain, htext]
  decide +kernel

end Fexpr
