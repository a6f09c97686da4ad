import Fexpr.Proofs.Grammar.Literal

/-!
# Scripts as they are written

The grammar says what a script is by trying alternatives in order. `Written` says it by looking at
the text: which lexemes stand at a place, and what must not follow them. It hands out the trees of
the match and the form that they stand for.

The two agree (`written_of_derives`, `Written.derives`), so what is to be known about a script can
be read off its text, without following the choices of the grammar.
-/

namespace Fexpr.Grammar

open Text (byteSize)

/-! ## Lexemes in a row -/

/-- A node between two places. -/
def nodeAt (r : Rule) (i j : Cursor) (children : List Tree) : Tree :=
  .node r ⟨i.offset, j.offset⟩ children

/-- The node of the gap between two places. -/
def gapNode (i j : Cursor) : Tree := nodeAt .spacing i j []

/-- The node of a name from `i` to `j`, with the gap up to `k`. -/
def nameNode (i j k : Cursor) : Tree := nodeAt .identifier i k [gapNode j k]

/-- The name `w` between two places. -/
def nameForm (w : List Char) (i j : Cursor) : Form.Name :=
  ⟨String.ofList w, ⟨i.offset, j.offset⟩⟩

/-- Whether a step of a path follows. -/
def attributeAhead : List Char → Bool
  | c :: d :: _ => c == '.' && isNameStart d
  | _ => false

theorem attributeAhead_iff {cs : List Char} :
    attributeAhead cs = true ↔ ∃ d, isNameStart d = true ∧ ['.', d] <+: cs := by
  constructor
  · intro h
    cases cs with
    | nil => cases h
    | cons c cs =>
      cases cs with
      | nil => cases h
      | cons d ds =>
        obtain ⟨hc, hd⟩ := Bool.and_eq_true_iff.mp h
        exact ⟨d, hd, ds, by rw [beq_iff_eq.mp hc]; rfl⟩
  · rintro ⟨d, hd, ds, rfl⟩
    exact Bool.and_eq_true_iff.mpr ⟨rfl, hd⟩

/-- One or more steps of a path. The last name ends at the second place, and the gap after it at the
third. -/
inductive AttributesAt : Cursor → Cursor → Cursor → List Tree → List Form.Attribute → Prop
  | last {i j k l : Cursor} {w : List Char} (hdot : i.Across ['.'] j) (hname : NameAt w j k l)
    (hend : attributeAhead l.rest = false) :
    AttributesAt i k l [nodeAt .attr i l [nameNode j k l]]
      [⟨String.ofList w, ⟨i.offset, k.offset⟩⟩]
  | more {i j k l m o : Cursor} {w : List Char} {ts : List Tree} {as : List Form.Attribute}
    (hdot : i.Across ['.'] j) (hname : NameAt w j k l) (h : AttributesAt l m o ts as) :
    AttributesAt i m o (nodeAt .attr i l [nameNode j k l] :: ts)
      (⟨String.ofList w, ⟨i.offset, k.offset⟩⟩ :: as)

/-- An atom. It ends at the second place, and the gap that is part of it at the third. -/
inductive AtomAt : Cursor → Cursor → Cursor → Tree → Form.Atom → Prop
  | literal {i j : Cursor} {kind : Form.LiteralKind} {us : List Tree} {text : List Char}
    (h : Lexes (.rule .literal) i j [nodeAt .literal i j [nodeAt kind.rule i j us]])
    (htext : i.Across text j) :
    AtomAt i j j (nodeAt .literal i j [nodeAt kind.rule i j us])
      (.literal ⟨kind, text, ⟨i.offset, j.offset⟩⟩)
  | name {i j k : Cursor} {w : List Char} (h : NameAt w i j k) (hnil : w ≠ ['n', 'i', 'l'])
    (hend : attributeAhead k.rest = false) :
    AtomAt i j k (nameNode i j k) (.name (nameForm w i j))
  | path {i j k l m : Cursor} {w : List Char} {ts : List Tree} {as : List Form.Attribute}
    (h : NameAt w i j k) (hnil : w ≠ ['n', 'i', 'l']) (hattrs : AttributesAt k l m ts as) :
    AtomAt i l m (nodeAt .identifierAttr i m (nameNode i j k :: ts))
      (.path (nameForm w i j) as ⟨i.offset, l.offset⟩)

/-- An option and the gap after it. -/
inductive OptionAt : Cursor → Cursor → Tree → Form.Item → Prop
  | mk {i j k l m o p : Cursor} {w : List Char} {t : Tree} {a : Form.Atom}
    (hmark : i.Across ['#', ':'] j) (hkey : NameAt w j k l) (hvalue : AtomAt l m o t a)
    (hgap : Spaced o p) :
    OptionAt i p (nodeAt .option i p [nameNode j k l, t, gapNode o p]) (.option (nameForm w j k) a)

/-- One or more options. -/
inductive OptionsAt : Cursor → Cursor → List Tree → List Form.Item → Prop
  | last {i j : Cursor} {t : Tree} {item : Form.Item} (h : OptionAt i j t item)
    (hend : ¬ ['#', ':'] <+: j.rest) : OptionsAt i j [t] [item]
  | more {i j k : Cursor} {t : Tree} {item : Form.Item} {ts : List Tree} {items : List Form.Item}
    (h : OptionAt i j t item) (hs : OptionsAt j k ts items) : OptionsAt i k (t :: ts) (item :: items)

/-- The parts of a script that hold each other: a value, or what stands in a call behind its
operator. -/
inductive Part where
  | value
  | row

/-- What is written between two places where `n` calls are open. -/
inductive Written (mayOpen : Nat → Prop) :
    Nat → Part → Cursor → Cursor → List Tree → List Form.Item → Prop
  | atom {n : Nat} {i j k l : Cursor} {t : Tree} {a : Form.Atom} (ha : AtomAt i j k t a)
    (hgap : Spaced k l) :
    Written mayOpen n .value i l [nodeAt .value i l [t, gapNode k l]] [.operand (.atom a)]
  | call {n : Nat} {i j k l m o p q : Cursor} {w : List Char} {ts : List Tree}
    {items : List Form.Item} (ho : mayOpen n) (hopen : i.Across ['('] j) (hgap : Spaced j k)
    (hop : NameAt w k l m) (hrow : Written mayOpen (n + 1) .row m o ts items)
    (hclose : o.Across [')'] p) (hgap' : Spaced p q) :
    Written mayOpen n .value i q
      [nodeAt .value i q [nodeAt .expression i q
        (nodeAt .lpar i k [gapNode i i, gapNode j k] :: nodeAt .operator k m [nameNode k l m] ::
          (ts ++ [nodeAt .rpar o q [gapNode o o, gapNode p q]])), gapNode q q]]
      [.operand (.call (nameForm w k l) items ⟨i.offset, p.offset⟩)]
  | nil {n : Nat} {i : Cursor} (h : i.rest.head? = some ')') : Written mayOpen n .row i i [] []
  | operand {n : Nat} {i j k : Cursor} {ts us : List Tree} {items items' : List Form.Item}
    (h : Written mayOpen n .value i j ts items) (hrow : Written mayOpen n .row j k us items') :
    Written mayOpen n .row i k (ts ++ us) (items ++ items')
  | options {n : Nat} {i j k : Cursor} {ts us : List Tree} {items items' : List Form.Item}
    (h : OptionsAt i j ts items) (hrow : Written mayOpen n .row j k us items') :
    Written mayOpen n .row i k (nodeAt .optionList i j ts :: us) (items ++ items')

/-! ## What comes first -/

theorem exists_nameAt {i : Cursor} {c : Char} {cs : List Char} (hi : i.rest = c :: cs)
    (hc : isNameStart c = true) : ∃ w j k, NameAt w i j k := by
  obtain ⟨k, hk⟩ := exists_spaced ⟨cs.dropWhile isNameChar,
    i.offset + byteSize (c :: cs.takeWhile isNameChar)⟩
  refine ⟨c :: cs.takeWhile isNameChar, _, k, ?_, ⟨?_, rfl⟩, ?_, hk⟩
  · refine Bool.and_eq_true_iff.mpr ⟨hc, List.all_eq_true.mpr fun d hd => ?_⟩
    exact List.mem_takeWhile_imp hd
  · rw [hi, List.cons_append, List.takeWhile_append_dropWhile]
  · exact fun d hd => eq_false_of_mem_head?_dropWhile hd

theorem NameAt.exists_head {i j k : Cursor} {w : List Char} (h : NameAt w i j k) :
    ∃ c cs, i.rest = c :: cs ∧ isNameStart c = true := by
  obtain ⟨hword, hij, -, -⟩ := h
  cases w with
  | nil => cases hword
  | cons c cs => exact ⟨c, cs ++ j.rest, hij.1, (Bool.and_eq_true_iff.mp hword).1⟩

/-- The characters that atoms start with. -/
def startsAtom (c : Char) : Bool := isNameStart c || startsLiteral c

/-- A class without some characters. -/
theorem not_mem_of_class {f : Char → Bool} {cs : List Char} (h : cs.any f = false) {c : Char}
    (hc : f c = true) : c ∉ cs := by
  intro hmem
  rw [List.any_eq_true.mpr ⟨c, hmem, hc⟩] at h
  cases h

theorem startsAtom_not_mem {c : Char} (hc : startsAtom c = true) :
    c ∉ [' ', '\t', '\r', '\n', ';', '(', ')'] := not_mem_of_class (by decide) hc

theorem startsGap_eq_false_of_startsAtom {c : Char} (hc : startsAtom c = true) :
    startsGap c = false := by
  have hmem := startsAtom_not_mem hc
  simp_all [startsGap, isGapBlank]

theorem isDigit_eq_false_of_isAlpha {c : Char} (hc : c.isAlpha = true) : c.isDigit = false := by
  have hrange := toNat_of_isAlpha hc
  refine Bool.eq_false_iff.mpr fun hdigit => ?_
  have hmax : c.toNat ≤ 57 := by
    obtain ⟨-, hmax⟩ := Bool.and_eq_true_iff.mp hdigit
    exact UInt32.le_iff_toNat_le.mp (of_decide_eq_true hmax)
  omega

theorem startsNumber_eq_false_of_isNameStart {c : Char} (hc : isNameStart c = true) :
    startsNumber c = false := by
  have hmem : c ∉ ['+', '-', '.'] := not_mem_of_class (by decide) hc
  have hdigit : c.isDigit = false := by
    simp only [isNameStart, Bool.or_eq_true, beq_iff_eq] at hc
    rcases hc with ((hc | rfl) | rfl) | rfl
    · exact isDigit_eq_false_of_isAlpha hc
    · rfl
    · rfl
    · rfl
  simp_all [startsNumber]

section Heads

variable {mayOpen : Nat → Prop} {n : Nat} {i j k : Cursor} {w : List Char}

/-- Where a name stands, no literal does, unless the name is that of the absent value. -/
theorem NameAt.literal_fails (h : NameAt w i j k) (hnil : w ≠ ['n', 'i', 'l']) :
    Fails (.rule .literal) i.rest := by
  obtain ⟨c, cs, hi, hc⟩ := h.exists_head
  have hnumber : ∀ d ∈ i.rest.head?, startsNumber d = false := by
    rw [hi]
    intro d hd
    cases hd
    exact startsNumber_eq_false_of_isNameStart hc
  have hother : ∀ d, isNameStart d = false → i.rest.head? ≠ some d := by
    intro d hd hhead
    rw [hi] at hhead
    cases hhead
    rw [hc] at hd
    cases hd
  have hno : Fails (.rule .nilLiteral) i.rest := by
    by_cases hpre : ['n', 'i', 'l'] <+: i.rest
    · obtain ⟨rest, hrest⟩ := hpre
      -- The name goes on behind these three characters.
      have hmore : ∃ d ds, rest = d :: ds ∧ isNameChar d = true := by
        rcases List.append_eq_append_iff.mp (hrest.trans h.across.1) with
          ⟨as, hw, hrest⟩ | ⟨bs, hn, hj⟩
        · cases as with
          | nil => exact absurd hw (by simpa using hnil)
          | cons d as =>
            refine ⟨d, as ++ j.rest, hrest, ?_⟩
            have hword := h.word
            simp only [hw, List.cons_append, List.nil_append, isWord, List.all_cons,
              Bool.and_eq_true] at hword
            exact hword.2.2.2.1
        · cases bs with
          | nil => exact absurd hn.symm (by simpa using hnil)
          | cons d bs =>
            have hstop := h.stop d (by rw [hj]; rfl)
            have hd : d ∈ ['n', 'i', 'l'] := by
              rw [hn]
              simp
            rw [List.all_eq_true.mp (by decide : ['n', 'i', 'l'].all isNameChar = true) d hd] at hstop
            cases hstop
      obtain ⟨d, ds, rfl, hd⟩ := hmore
      intro m n' l
      rw [← hrest]
      have hread : Lexes (.exactly ['n', 'i', 'l']) ⟨['n', 'i', 'l'] ++ d :: ds, l⟩
          ⟨d :: ds, l + byteSize ['n', 'i', 'l']⟩ [] := .exactly ⟨rfl, rfl⟩
      have hnext : ∀ l, Lexes (.char isWordChar <|> .one '-') ⟨d :: ds, l⟩
          ⟨ds, l + byteSize [d]⟩ [] := fun l => readsOne_nameChar.reads ⟨rfl, rfl⟩ hd
      exact .ruleNone (fun h => nomatch h) (.seqRight (hread _ _) (.notAhead (hnext _ _ _)))
    · exact nilLiteral_fails hpre
  exact .rule (.alt (floatLiteral_fails hnumber)
    (.alt (longStringLiteral_fails_head (hother '"' rfl))
      (.alt (boolLiteral_fails (hother '#' rfl)) (.alt (stringLiteral_fails (hother '"' rfl))
        (.alt hno (integerLiteral_fails hnumber))))))

/-- No literal starts like an option. -/
theorem literal_fails_mark (cs : List Char) : Fails (.rule .literal) ('#' :: ':' :: cs) := by
  have hnumber : ∀ c ∈ ('#' :: ':' :: cs).head?, startsNumber c = false := by
    intro c hc
    cases hc
    rfl
  have hbool : Fails (.rule .boolLiteral) ('#' :: ':' :: cs) := by
    refine .rule (.seq (.alt (.exactly ?_) (.exactly ?_)))
    · rintro ⟨ds, hds⟩
      simp at hds
    · rintro ⟨ds, hds⟩
      simp at hds
  refine .rule (.alt (floatLiteral_fails hnumber) (.alt (longStringLiteral_fails_head (by simp))
    (.alt hbool (.alt (stringLiteral_fails (by simp)) (.alt (nilLiteral_fails ?_)
      (integerLiteral_fails hnumber))))))
  rintro ⟨ds, hds⟩
  simp at hds

theorem AtomAt.exists_head {t : Tree} {a : Form.Atom} (h : AtomAt i j k t a) :
    (∃ c cs, i.rest = c :: cs ∧ startsAtom c = true) ∧ ¬ ['#', ':'] <+: i.rest := by
  have hname : ∀ {w j k}, NameAt w i j k →
      (∃ c cs, i.rest = c :: cs ∧ startsAtom c = true) ∧ ¬ ['#', ':'] <+: i.rest := by
    intro w j k hname
    obtain ⟨c, cs, hi, hc⟩ := hname.exists_head
    refine ⟨⟨c, cs, hi, by rw [startsAtom, hc, Bool.true_or]⟩, ?_⟩
    rintro ⟨ds, hds⟩
    obtain rfl : '#' = c := (List.cons.inj (hds.trans hi)).1
    cases hc
  cases h with
  | literal h _ =>
    constructor
    · by_contra hnone
      refine (literal_fails fun c hc => Bool.eq_false_iff.mpr fun hstart => hnone ?_).elim
        (h (fun _ => True) 0)
      obtain ⟨cs, hcs⟩ := List.head?_eq_some_iff.mp hc
      exact ⟨c, cs, hcs, by rw [startsAtom, hstart, Bool.or_true]⟩
    · rintro ⟨ds, hds⟩
      exact (hds ▸ literal_fails_mark ds : Fails _ i.rest).elim (h (fun _ => True) 0)
  | name h _ _ => exact hname h
  | path h _ _ => exact hname h

/-- A value starts with a parenthesis or as an atom does. -/
theorem Written.exists_head {ts : List Tree} {items : List Form.Item}
    (h : Written mayOpen n .value i j ts items) :
    (∃ c cs, i.rest = c :: cs ∧ (c = '(' ∨ startsAtom c = true)) ∧ ¬ ['#', ':'] <+: i.rest := by
  cases h with
  | atom ha _ =>
    obtain ⟨⟨c, cs, hi, hc⟩, hmark⟩ := ha.exists_head
    exact ⟨⟨c, cs, hi, .inr hc⟩, hmark⟩
  | call _ hopen _ _ _ _ _ =>
    refine ⟨⟨'(', _, hopen.1, .inl rfl⟩, ?_⟩
    rw [hopen.1]
    rintro ⟨ds, hds⟩
    simp at hds

theorem NameAt.clear_start (h : NameAt w i j k) : i.Clear := by
  obtain ⟨c, cs, hi, hc⟩ := h.exists_head
  intro d hd
  rw [hi] at hd
  cases hd
  exact startsGap_eq_false_of_startsAtom (by rw [startsAtom, hc, Bool.true_or])

theorem Written.clear_start {ts : List Tree} {items : List Form.Item}
    (h : Written mayOpen n .value i j ts items) : i.Clear := by
  obtain ⟨⟨c, cs, hi, hc⟩, -⟩ := h.exists_head
  intro d hd
  rw [hi] at hd
  cases hd
  rcases hc with rfl | hc
  · rfl
  · exact startsGap_eq_false_of_startsAtom hc

/-- No literal starts like a step of a path. -/
theorem literal_fails_step {cs : List Char} (h : attributeAhead cs = true) :
    Fails (.rule .literal) cs := by
  obtain ⟨d, hd, ds, rfl⟩ := attributeAhead_iff.mp h
  have hdigit : d.isDigit = false :=
    (Bool.or_eq_false_iff.mp (startsNumber_eq_false_of_isNameStart hd)).1
  have hfloat : Fails (.rule .floatLiteral) ('.' :: d :: ds) := by
    have hdigits : Fails .digits ('.' :: d :: ds) := .seq (.char rfl)
    have hpoint : Fails (.one '.' ++ .digits) ('.' :: d :: ds) :=
      fun m n k => .seqRight (.char rfl) (.seqLeft (.charOther hdigit))
    exact .rule (.seqSkip (.opt (.char rfl))
      (.alt (.seq (.seq (.seq hdigits))) (.alt (.seq hdigits) (.seq hpoint))))
  have hinteger : Fails (.rule .integerLiteral) ('.' :: d :: ds) :=
    .rule (.seq (.seqSkip (.opt (.char rfl))
      (.alt (.seq (.seq (.char rfl))) (.rule (.alt (.seq (.char rfl)) (.char rfl))))))
  refine .rule (.alt hfloat (.alt (longStringLiteral_fails_head (by simp))
    (.alt (boolLiteral_fails (by simp)) (.alt (stringLiteral_fails (by simp))
      (.alt (nilLiteral_fails ?_) hinteger)))))
  rintro ⟨ds, hds⟩
  simp at hds

theorem attributeAhead_eq_false_of_head {c : Char} {cs : List Char} (hi : i.rest = c :: cs)
    (hc : c ≠ '.') : attributeAhead i.rest = false := by
  rw [hi]
  cases cs with
  | nil => rfl
  | cons d ds => rw [attributeAhead, beq_eq_false_iff_ne.mpr hc, Bool.false_and]

/-- No value starts like a step of a path. -/
theorem Written.attributeAhead_eq_false {ts : List Tree} {items : List Form.Item}
    (h : Written mayOpen n .value i j ts items) : attributeAhead i.rest = false := by
  have hname : ∀ {w j k}, NameAt w i j k → attributeAhead i.rest = false := by
    intro w j k hname
    obtain ⟨c, cs, hi, hc⟩ := hname.exists_head
    refine attributeAhead_eq_false_of_head hi ?_
    rintro rfl
    cases hc
  cases h with
  | atom ha _ =>
    cases ha with
    | literal h _ =>
      refine Bool.eq_false_iff.mpr fun hahead => ?_
      exact (literal_fails_step hahead).elim (h mayOpen n)
    | name h _ _ => exact hname h
    | path h _ _ => exact hname h
  | call _ hopen _ _ _ _ _ => exact attributeAhead_eq_false_of_head hopen.1 (by decide)

end Heads

/-! ## What is written matches -/

/-- The clause that a part is to match. -/
def Part.clause : Part → Clause
  | value => .rule .value
  | row => .star (.rule .optionList <|> .rule .value)

theorem Derives.star_of_plus {mayOpen : Nat → Prop} {n : Nat} {p : Clause} {i j : Cursor}
    {ts : List Tree} (h : Derives mayOpen n (.plus p) i (.success j ts)) :
    Derives mayOpen n (.star p) i (.success j ts) := by
  cases h with
  | plus hp hs => exact .starMore hp hs

theorem attr_fails {cs : List Char} (h : attributeAhead cs = false) : Fails (.rule .attr) cs := by
  intro m n k
  refine .ruleNone (fun h => nomatch h) ?_
  cases cs with
  | nil => exact .seqLeft .charEnd
  | cons c cs =>
    by_cases hc : c = '.'
    · subst hc
      have hname : Fails (.rule .identifier) cs := by
        refine identifier_fails fun d hd => ?_
        obtain ⟨ds, rfl⟩ := List.head?_eq_some_iff.mp hd
        exact h
      exact .seqRight (.char rfl) (hname _ _ _)
    · exact .seqLeft (.charOther (beq_eq_false_iff_ne.mpr hc))

theorem option_fails {cs : List Char} (h : ¬ ['#', ':'] <+: cs) : Fails (.rule .option) cs := by
  refine .rule (.seq (.seq (.seq ?_)))
  intro m n k
  cases cs with
  | nil => exact .seqLeft .charEnd
  | cons c cs =>
    by_cases hc : c = '#'
    · subst hc
      refine .seqRight (.char rfl) ((ReadsOne.char (· == ':')).fails (fun d hd => ?_) _ _ _)
      refine beq_eq_false_iff_ne.mpr fun hcolon => h ?_
      obtain ⟨ds, rfl⟩ := List.head?_eq_some_iff.mp hd
      exact ⟨ds, by rw [hcolon]; rfl⟩
    · exact .seqLeft (.charOther (beq_eq_false_iff_ne.mpr hc))

/-- No call starts where there is neither a gap nor a parenthesis. -/
theorem expression_fails {cs : List Char} (hgap : ∀ c ∈ cs.head?, startsGap c = false)
    (hpar : cs.head? ≠ some '(') : Fails (.rule .expression) cs := by
  have hskip : Skips (.rule .spacing) cs :=
    fun m n k => ⟨_, Spaced.lexes (.refl (i := ⟨cs, k⟩) hgap) m n⟩
  have hopen : Fails (.one '(') cs := by
    refine (ReadsOne.char _).fails fun c hc => beq_eq_false_iff_ne.mpr ?_
    rintro rfl
    exact hpar hc
  exact .rule (.seq (.seq (.seq (.rule (.seq (.seqSkip hskip hopen))))))

/-- No value starts with a closing parenthesis. -/
theorem value_fails (cs : List Char) : Fails (.rule .value) (')' :: cs) := by
  have hname : Fails (.rule .identifier) (')' :: cs) :=
    identifier_fails fun c hc => by cases hc; rfl
  have hliteral : Fails (.rule .literal) (')' :: cs) := literal_fails fun c hc => by cases hc; rfl
  have hcall : Fails (.rule .expression) (')' :: cs) :=
    expression_fails (fun c hc => by cases hc; rfl) (by simp)
  exact .rule (.seq (.alt hcall (.alt hliteral (.alt (.rule (.seq hname)) hname))))

section Matching

variable {i j k : Cursor} {t : Tree} {ts : List Tree}

theorem AttributesAt.lexes {as : List Form.Attribute} (h : AttributesAt i j k ts as) :
    Lexes (.plus (.rule .attr)) i k ts := by
  intro m n
  induction h with
  | last hdot hname hend =>
    exact .plus (.rule (fun h => nomatch h) (.seq (.charAcross hdot rfl) (hname.lexes m _)))
      (.starEnd (attr_fails hend m n _))
  | more hdot hname _ ih =>
    exact .plus (.rule (fun h => nomatch h) (.seq (.charAcross hdot rfl) (hname.lexes m _)))
      ih.star_of_plus

theorem AtomAt.lexes {a : Form.Atom} (h : AtomAt i j k t a) :
    Lexes (.rule .literal <|> .rule .identifierAttr <|> .rule .identifier) i k [t] := by
  intro m n
  cases h with
  | literal h _ => exact .altLeft (h m n)
  | name h hnil hend =>
    refine .altRight (h.literal_fails hnil m n i.offset) (.altRight ?_ (h.lexes m n))
    exact .ruleNone (fun h => nomatch h)
      (.seqRight (h.lexes m _) (.plusNone (attr_fails hend m _ k.offset)))
  | path h hnil hattrs =>
    exact .altRight (h.literal_fails hnil m n i.offset)
      (.altLeft (.rule (fun h => nomatch h) (.seq (h.lexes m _) (hattrs.lexes m _))))

theorem OptionAt.lexes {item : Form.Item} (h : OptionAt i j t item) :
    Lexes (.rule .option) i j [t] := by
  intro m n
  cases h with
  | mk hmark hkey hvalue hgap =>
    obtain ⟨l, hil, hlj⟩ := hmark.split ['#']
    exact .rule (fun h => nomatch h) (.seq (.seq (.seq (.seq (.charAcross hil rfl)
      (.charAcross hlj rfl)) (hkey.lexes m _)) (hvalue.lexes m _)) (hgap.lexes m _))

theorem OptionsAt.lexes {items : List Form.Item} (h : OptionsAt i j ts items) :
    Lexes (.plus (.rule .option)) i j ts := by
  intro m n
  induction h with
  | last h hend => exact .plus (h.lexes m n) (.starEnd (option_fails hend m n _))
  | more h _ ih => exact .plus (h.lexes m n) ih.star_of_plus

/-- What is written matches the clause of its part, by the trees that are handed out. -/
theorem Written.derives {mayOpen : Nat → Prop} {n : Nat} {part : Part} {items : List Form.Item}
    (h : Written mayOpen n part i j ts items) :
    Derives mayOpen n part.clause i (.success j ts) := by
  induction h with
  | @atom n i j k l t a ha hgap =>
    obtain ⟨⟨c, cs, hi, hc⟩, -⟩ := ha.exists_head
    have hcall : Fails (.rule .expression) i.rest := by
      rw [hi]
      refine expression_fails (fun d hd => ?_) fun hd => ?_
      · cases hd
        exact startsGap_eq_false_of_startsAtom hc
      · cases hd
        cases hc
    exact .rule (fun h => nomatch h)
      (.seq (.altRight (hcall _ _ i.offset) (ha.lexes _ _)) (hgap.lexes _ _))
  | @call n i j k l m o p q w ts items ho hopen hgap hop hrow hclose hgap' ih =>
    have hnogap : Spaced i i := .refl fun c hc => by
      rw [hopen.1] at hc
      cases hc
      rfl
    have hnogap' : Spaced o o := .refl fun c hc => by
      rw [hclose.1] at hc
      cases hc
      rfl
    have hlpar : Derives mayOpen (n + 1) (.rule .lpar) i (.success k _) :=
      .rule (fun h => nomatch h)
        (.seq (.seq (hnogap.lexes _ _) (.charAcross hopen rfl)) (hgap.lexes _ _))
    have hoperator : Derives mayOpen (n + 1) (.rule .operator) k (.success m _) :=
      .rule (fun h => nomatch h) (hop.lexes _ _)
    have hrpar : Derives mayOpen (n + 1) (.rule .rpar) o (.success q _) :=
      .rule (fun h => nomatch h)
        (.seq (.seq (hnogap'.lexes _ _) (.charAcross hclose rfl)) (hgap'.lexes _ _))
    have hcall : Derives mayOpen n (.rule .expression) i (.success q _) :=
      .rule (fun _ => ho) (.seq (.seq (.seq hlpar hoperator) ih) hrpar)
    -- The gap behind a call is part of its closing parenthesis, so that none is left for the value.
    have hend : Spaced q q := .refl hgap'.clear
    exact .rule (fun h => nomatch h) (.seq (.altLeft hcall) (hend.lexes _ _))
  | @nil n i h =>
    obtain ⟨cs, hcs⟩ := List.head?_eq_some_iff.mp h
    have hfail : Fails (.rule .optionList <|> .rule .value) i.rest := by
      rw [hcs]
      refine .alt (.rule (.plus (option_fails ?_))) (value_fails cs)
      rintro ⟨ds, hds⟩
      simp at hds
    exact .starEnd (hfail _ _ i.offset)
  | @operand n i j k ts us items items' h _ ihv ihr =>
    have hoption : Fails (.rule .optionList) i.rest :=
      .rule (.plus (option_fails h.exists_head.2))
    exact .starMore (.altRight (hoption _ _ i.offset) ihv) ihr
  | options h _ ihr =>
    exact .starMore (.altLeft (.rule (fun h => nomatch h) (h.lexes _ _))) ihr

end Matching

/-! ## What matches is written -/

section Reading

variable {mayOpen : Nat → Prop} {n : Nat} {i j k : Cursor} {ts : List Tree}

theorem attributeAhead_eq_false (h : Derives mayOpen n (.rule .attr) i .failure) :
    attributeAhead i.rest = false := by
  refine Bool.eq_false_iff.mpr fun hahead => ?_
  obtain ⟨d, hd, ds, hds⟩ := attributeAhead_iff.mp hahead
  obtain ⟨l, hdot⟩ : ∃ l : Cursor, i.Across ['.'] l := ⟨⟨d :: ds, _⟩, hds.symm, rfl⟩
  have hl : l.rest = d :: ds := List.append_cancel_left (hdot.1.symm.trans hds.symm)
  obtain ⟨w, j, k, hname⟩ := exists_nameAt hl hd
  have hattr : Derives mayOpen n (.rule .attr) i (.success k _) :=
    .rule (fun h => nomatch h) (.seq (.charAcross hdot rfl) (hname.lexes _ _))
  cases h.unique hattr

theorem exists_of_attr (h : Derives mayOpen n (.rule .attr) i (.success k ts)) :
    ∃ w l m, i.Across ['.'] l ∧ NameAt w l m k ∧ ts = [nodeAt .attr i k [nameNode l m k]] := by
  cases h with
  | rule _ hr =>
  cases hr with
  | seq hdot hkey =>
    obtain ⟨c, hc, hpoint, rfl⟩ := hdot.of_char
    obtain rfl : c = '.' := beq_iff_eq.mp hpoint
    obtain ⟨w, m, hname, rfl⟩ := nameAt_of_derives hkey
    exact ⟨w, _, m, hc, hname, rfl⟩

theorem attributesAt_of_derives (h : Derives mayOpen n (.plus (.rule .attr)) i (.success k ts)) :
    ∃ j as, AttributesAt i j k ts as := by
  cases h with
  | @plus _ _ _ l _ _ us hattr hs =>
    obtain ⟨w, p, m, hdot, hname, rfl⟩ := exists_of_attr hattr
    -- After a step there are no more of them, or at least one.
    have hrest : (l = k ∧ us = [] ∧ attributeAhead l.rest = false) ∨
        ∃ j as, AttributesAt l j k us as := by
      refine Derives.star_induction (P := fun l k us =>
        (l = k ∧ us = [] ∧ attributeAhead l.rest = false) ∨ ∃ j as, AttributesAt l j k us as)
        ?_ ?_ hs
      · intro l hfail
        exact .inl ⟨rfl, rfl, attributeAhead_eq_false hfail⟩
      · intro l l' k ts us hattr _ ih
        obtain ⟨w, p, m, hdot, hname, rfl⟩ := exists_of_attr hattr
        rcases ih with ⟨rfl, rfl, hend⟩ | ⟨j, as, has⟩
        · exact .inr ⟨m, _, .last hdot hname hend⟩
        · exact .inr ⟨j, _, .more hdot hname has⟩
    rcases hrest with ⟨rfl, rfl, hend⟩ | ⟨j, as, has⟩
    · exact ⟨m, _, .last hdot hname hend⟩
    · exact ⟨j, _, .more hdot hname has⟩

theorem atomAt_of_derives
    (h : Derives mayOpen n (.rule .literal <|> .rule .identifierAttr <|> .rule .identifier) i
      (.success k ts)) : ∃ j t a, AtomAt i j k t a ∧ ts = [t] := by
  cases h with
  | altLeft hliteral =>
    obtain ⟨kind, us, -, rfl⟩ := exists_kind_of_literal hliteral
    obtain ⟨text, htext⟩ := hliteral.across
    exact ⟨k, _, _, .literal (fun m n' => hliteral.anywhere .literal n') htext, rfl⟩
  | altRight hliteral h =>
    -- A name that is read here is not that of the absent value, which is a literal.
    have hnil : ∀ {w j k}, NameAt w i j k → w ≠ ['n', 'i', 'l'] := by
      rintro w j k hname rfl
      have hword : Derives mayOpen n (.rule .nilLiteral) i (.success j _) :=
        nilLiteral_iff.mpr ⟨hname.across, hname.stop, rfl⟩
      have hrest : i = ⟨'n' :: (['i', 'l'] ++ j.rest), i.offset⟩ := by
        rw [← List.cons_append, ← hname.across.1]
      rw [hrest] at hword hliteral
      cases hliteral.unique (literal_of_nilLiteral hword)
    cases h with
    | altLeft hpath =>
      cases hpath with
      | rule _ hr =>
      cases hr with
      | seq hbase hattrs =>
        obtain ⟨w, j, hname, rfl⟩ := nameAt_of_derives hbase
        obtain ⟨l, as, has⟩ := attributesAt_of_derives hattrs
        exact ⟨l, _, _, .path hname (hnil hname) has, rfl⟩
    | altRight hpath hword =>
      obtain ⟨w, j, hname, rfl⟩ := nameAt_of_derives hword
      refine ⟨j, _, _, .name hname (hnil hname) ?_, rfl⟩
      cases hpath with
      | ruleNone _ hr =>
      cases hr with
      | seqLeft hfail => cases hfail.unique (hname.lexes _ _)
      | seqRight hok hfail =>
        cases hok.unique (hname.lexes _ _)
        cases hfail with
        | plusNone hattr => exact attributeAhead_eq_false hattr

theorem optionAt_of_derives (h : Derives mayOpen n (.rule .option) i (.success k ts)) :
    ∃ t item, OptionAt i k t item ∧ ts = [t] := by
  cases h with
  | rule _ hr =>
  cases hr with
  | seq hr hspacing =>
  cases hr with
  | seq hr hatom =>
  cases hr with
  | seq hmark hword =>
  cases hmark with
  | seq hhash hcolon =>
    obtain ⟨c, hc, hceq, rfl⟩ := hhash.of_char
    obtain ⟨d, hd, hdeq, rfl⟩ := hcolon.of_char
    obtain rfl : c = '#' := beq_iff_eq.mp hceq
    obtain rfl : d = ':' := beq_iff_eq.mp hdeq
    obtain ⟨w, l, hkey, rfl⟩ := nameAt_of_derives hword
    obtain ⟨m, t, a, hvalue, rfl⟩ := atomAt_of_derives hatom
    obtain ⟨hgap, rfl⟩ := spaced_of_derives hspacing
    exact ⟨_, _, .mk (hc.trans hd) hkey hvalue hgap, rfl⟩

theorem OptionAt.clear {t : Tree} {item : Form.Item} (h : OptionAt i j t item) : j.Clear := by
  cases h with
  | mk _ _ _ hgap => exact hgap.clear

theorem OptionsAt.clear {items : List Form.Item} (h : OptionsAt i j ts items) : j.Clear := by
  induction h with
  | last h _ => exact h.clear
  | more _ _ ih => exact ih

theorem Written.clear {items : List Form.Item}
    (h : Written mayOpen n .value i j ts items) : j.Clear := by
  cases h with
  | atom _ hgap => exact hgap.clear
  | call _ _ _ _ _ _ hgap => exact hgap.clear

theorem optionsAt_of_derives (h : Derives mayOpen n (.plus (.rule .option)) i (.success k ts))
    (hend : ¬ ['#', ':'] <+: k.rest) : ∃ items, OptionsAt i k ts items := by
  cases h with
  | @plus _ _ _ l _ _ us hoption hs =>
    obtain ⟨t, item, hitem, rfl⟩ := optionAt_of_derives hoption
    have hrest : (l = k ∧ us = []) ∨ ∃ items, OptionsAt l k us items := by
      refine Derives.star_induction (P := fun l k us => ¬ ['#', ':'] <+: k.rest →
        (l = k ∧ us = []) ∨ ∃ items, OptionsAt l k us items) ?_ ?_ hs hend
      · exact fun l _ _ => .inl ⟨rfl, rfl⟩
      · intro l l' k ts us hoption _ ih hend
        obtain ⟨t, item, hitem, rfl⟩ := optionAt_of_derives hoption
        rcases ih hend with ⟨rfl, rfl⟩ | ⟨items, hitems⟩
        · exact .inr ⟨_, .last hitem hend⟩
        · exact .inr ⟨_, .more hitem hitems⟩
    rcases hrest with ⟨rfl, rfl⟩ | ⟨items, hitems⟩
    · exact ⟨_, .last hitem hend⟩
    · exact ⟨_, .more hitem hitems⟩

/-- A repetition ends where there is no further round. -/
theorem Derives.fails_of_star {p : Clause} (h : Derives mayOpen n (.star p) i (.success j ts)) :
    Derives mayOpen n p j .failure :=
  Derives.star_induction (P := fun _ j _ => Derives mayOpen n p j .failure) (fun _ hp => hp)
    (fun _ _ _ _ _ _ _ ih => ih) h

/-- No value starts like an option. -/
theorem value_fails_mark (cs : List Char) : Fails (.rule .value) ('#' :: ':' :: cs) := by
  have hname : Fails (.rule .identifier) ('#' :: ':' :: cs) :=
    identifier_fails fun c hc => by cases hc; rfl
  have hcall : Fails (.rule .expression) ('#' :: ':' :: cs) :=
    expression_fails (fun c hc => by cases hc; rfl) (by simp)
  exact .rule (.seq (.alt hcall (.alt (literal_fails_mark cs) (.alt (.rule (.seq hname)) hname))))

/-- Behind a list of options in a call there is no further option: the list would have it. -/
theorem not_mark_of_row (hoptions : Derives mayOpen n (.rule .optionList) i (.success j ts))
    {us : List Tree} (hrow : Derives mayOpen n Part.row.clause j (.success k us))
    (hk : k.rest.head? = some ')') : ¬ ['#', ':'] <+: j.rest := by
  intro hmark
  cases hoptions with
  | rule _ hr =>
  cases hr with
  | plus _ hs =>
  have hnone := hs.fails_of_star
  obtain ⟨ds, hds⟩ := hmark
  cases hrow with
  | starEnd _ =>
    rw [← hds] at hk
    cases hk
  | starMore hitem _ =>
    cases hitem with
    | altLeft hmore =>
      cases hmore with
      | rule _ hr =>
      cases hr with
      | plus hoption _ => cases hoption.unique hnone
    | altRight _ hvalue => exact (hds ▸ value_fails_mark ds : Fails _ j.rest).elim hvalue

/-- The row of a call is written, if its values are. -/
theorem row_of_derives {N : Nat}
    (hvalue : ∀ {i k ts}, i.rest.length < N → i.Clear →
      Derives mayOpen n (.rule .value) i (.success k ts) →
      ∃ f, Written mayOpen n .value i k ts [.operand f])
    (h : Derives mayOpen n Part.row.clause i (.success k ts)) (hlt : i.rest.length < N)
    (hgap : i.Clear) (hk : k.rest.head? = some ')') :
    ∃ items, Written mayOpen n .row i k ts items := by
  refine Derives.star_induction (P := fun i k ts => i.rest.length < N → i.Clear →
    k.rest.head? = some ')' → ∃ items, Written mayOpen n .row i k ts items) ?_ ?_ h hlt hgap hk
  · exact fun i _ _ _ hi => ⟨[], .nil hi⟩
  · intro i j k ts us hitem hrow ih hlt hgap hk
    have hlen := Cursor.length_le_of_derives hitem
    cases hitem with
    | altLeft hoptions =>
      have hend := not_mark_of_row hoptions hrow hk
      cases hoptions with
      | rule _ hr =>
        obtain ⟨items, hitems⟩ := optionsAt_of_derives hr hend
        obtain ⟨items', hrest⟩ := ih (by omega) hitems.clear hk
        exact ⟨_, .options hitems hrest⟩
    | altRight _ hv =>
      obtain ⟨f, hf⟩ := hvalue hlt hgap hv
      obtain ⟨items', hrest⟩ := ih (by omega) hf.clear hk
      exact ⟨_, .operand hf hrest⟩

theorem clear_of_option (h : Derives mayOpen n (.rule .option) i (.success j ts)) : j.Clear := by
  obtain ⟨t, item, hitem, -⟩ := optionAt_of_derives h
  exact hitem.clear

theorem clear_of_value (h : Derives mayOpen n (.rule .value) i (.success j ts)) : j.Clear := by
  cases h with
  | rule _ hr =>
  cases hr with
  | seq _ hspacing => exact (spaced_of_derives hspacing).1.clear

/-- The row of a call takes all gaps along. -/
theorem clear_of_row (h : Derives mayOpen n Part.row.clause i (.success j ts)) (hi : i.Clear) :
    j.Clear := by
  refine Derives.star_induction (P := fun i j _ => i.Clear → j.Clear) (fun _ _ hi => hi) ?_ h hi
  intro i l j ts us hitem _ ih _
  cases hitem with
  | altLeft hoptions =>
    cases hoptions with
    | rule _ hr =>
    cases hr with
    | plus hoption hs =>
      refine ih (Derives.star_induction (P := fun i j _ => i.Clear → j.Clear) (fun _ _ hi => hi)
        ?_ hs (clear_of_option hoption))
      exact fun _ _ _ _ _ hoption _ ih _ => ih (clear_of_option hoption)
  | altRight _ hvalue => exact ih (clear_of_value hvalue)

/-- A parenthesis, before which there is no gap, takes the gap behind it along. -/
theorem exists_of_parenthesis {c : Char} (hi : i.Clear)
    (h : Derives mayOpen n (.rule .spacing ++ .one c ++ .rule .spacing) i (.success k ts)) :
    ∃ j, i.Across [c] j ∧ Spaced j k ∧ ts = [gapNode i i, gapNode j k] := by
  cases h with
  | seq hr hspacing' =>
  cases hr with
  | seq hspacing hone =>
    obtain ⟨hsp, rfl⟩ := spaced_of_derives hspacing
    obtain ⟨hsp', rfl⟩ := spaced_of_derives hspacing'
    obtain ⟨d, hd, hdc, rfl⟩ := hone.of_char
    obtain rfl : d = c := beq_iff_eq.mp hdc
    obtain rfl := hsp.eq hi
    exact ⟨_, hd, hsp', rfl⟩

/-- A value that matches where there is no gap is written there. -/
theorem written_of_derives (hi : i.Clear)
    (h : Derives mayOpen n (.rule .value) i (.success k ts)) :
    ∃ f, Written mayOpen n .value i k ts [.operand f] := by
  -- The values in a call are shorter than the call, and they are reached through rows and lists of
  -- options. So the induction is on the length of the text.
  induction hN : i.rest.length using Nat.strong_induction_on generalizing n i k ts with
  | h N ih =>
  cases h with
  | rule _ hr =>
  cases hr with
  | seq hform hspacing =>
  obtain ⟨hsp, rfl⟩ := spaced_of_derives hspacing
  cases hform with
  | altRight _ hatom =>
    obtain ⟨j, t, a, ha, rfl⟩ := atomAt_of_derives hatom
    exact ⟨_, .atom ha hsp⟩
  | altLeft hcall =>
  cases hcall with
  | rule ho hr =>
  cases hr with
  | seq hr hrpar =>
  cases hr with
  | seq hr hrow =>
  cases hr with
  | seq hlpar hoperator =>
  cases hlpar with
  | rule _ hlpar =>
  cases hoperator with
  | rule _ hname =>
  cases hrpar with
  | rule _ hrpar =>
    obtain ⟨j, hopen, hgap, rfl⟩ := exists_of_parenthesis hi hlpar
    obtain ⟨w, l, hop, rfl⟩ := nameAt_of_derives hname
    obtain ⟨p, hclose, hgap', rfl⟩ :=
      exists_of_parenthesis (clear_of_row hrow hop.spaced.clear) hrpar
    obtain rfl := hsp.eq hgap'.clear
    have hlt := hopen.length_lt (List.cons_ne_nil _ _)
    have hle := Cursor.length_le_of_derives hname
    have hle' := Cursor.length_le_of_derives (hgap.lexes mayOpen n)
    obtain ⟨items, hrow⟩ := row_of_derives (N := N) (fun hlt hi h => ih _ hlt hi h rfl) hrow
      (by omega) hop.spaced.clear (by rw [hclose.1]; rfl)
    exact ⟨_, .call (ho rfl) hopen hgap hop hrow hclose hgap'⟩

end Reading

end Fexpr.Grammar
