import Fexpr.Proofs.Grammar.Lexical

/-!
# Numerals and what follows them

Where a numeral ends is decided by the text after it. A clause is `Firm` if this is all that the
text after it decides: a match that does not read on stays the same if the text is closed there, by
a blank, a comment, a parenthesis or its end. Floats and integers are firm, and so is their failure:
a text that is no float does not become one by being closed.

Firm clauses are put together from firm clauses. Only a sequence needs care, since its first part
may read on where the second one fails (`Yields`).
-/

namespace Fexpr.Grammar

open Text (isBlank)

/-! ## Closed texts -/


/-- A character that is neither blank, nor starts a comment, nor closes a call. -/
def isSolid (c : Char) : Bool := !isBlank c && c != ';' && c != ')'

/-- The class has only solid characters. -/
def Solid (f : Char → Bool) : Prop := ∀ c, f c = true → isSolid c = true

/-- The text does not start with a solid character. -/
def Delimited (cs : List Char) : Prop := ∀ c ∈ cs.head?, isSolid c = false

theorem Solid.eq_false {f : Char → Bool} {c : Char} (hf : Solid f) (hc : isSolid c = false) :
    f c = false := by
  cases hfc : f c with
  | false => rfl
  | true => rw [hf c hfc] at hc; cases hc

/-- The endings are the same, but for what follows the text that was read. -/
inductive Ending.Swapped (y y' : List Char) : Ending → Ending → Prop
  | failure : Swapped y y' .failure .failure
  | success (x : List Char) (k : Nat) (ts : List Tree) :
    Swapped y y' (.success ⟨x ++ y, k⟩ ts) (.success ⟨x ++ y', k⟩ ts)

/-- The ending is a match that goes on into the text `y`. -/
def Ending.Passes (y : List Char) : Ending → Prop
  | failure => False
  | success stop _ => stop.rest.length < y.length

/-- Unless it reads on into what follows a text, the clause ends as it does where the text is closed
instead. -/
structure Firm (c : Clause) : Prop where
  swap : ∀ {mayOpen n z y y' k e}, Delimited y' → Derives mayOpen n c ⟨z ++ y, k⟩ e →
    ¬ e.Passes y → ∃ e', Derives mayOpen n c ⟨z ++ y', k⟩ e' ∧ Ending.Swapped y y' e e'

/-- Where `p` reads on into what follows a text and `q` fails there, the two fail where the text is
closed instead. -/
structure Yields (p q : Clause) : Prop where
  fails : ∀ {mayOpen n z y y' k j ts}, Delimited y' →
    Derives mayOpen n p ⟨z ++ y, k⟩ (.success j ts) → j.rest.length < y.length →
    Derives mayOpen n q j .failure → Derives mayOpen n (.seq p q) ⟨z ++ y', k⟩ .failure

/-- Where `p` reads on into what follows a text, it fails where the text is closed instead, or it
stops before the end of the text and leaves something that satisfies `T`. -/
structure Stops (T : List Char → Prop) (p : Clause) : Prop where
  stops : ∀ {mayOpen n z y y' k j ts}, Delimited y' →
    Derives mayOpen n p ⟨z ++ y, k⟩ (.success j ts) → j.rest.length < y.length →
    Derives mayOpen n p ⟨z ++ y', k⟩ .failure ∨
      ∃ x l us, Derives mayOpen n p ⟨z ++ y', k⟩ (.success ⟨x ++ y', l⟩ us) ∧ T x

/-! ## Putting firm clauses together -/

theorem Cursor.length_le_of_derives {mayOpen : Nat → Prop} {n : Nat} {c : Clause} {i j : Cursor}
    {ts : List Tree} (h : Derives mayOpen n c i (.success j ts)) :
    j.rest.length ≤ i.rest.length := by
  obtain ⟨cs, hcs⟩ := h.across
  rw [hcs.1, List.length_append]
  omega

namespace Firm

variable {p q : Clause} {f : Char → Bool} {r : Rule}

theorem char (hf : Solid f) : Firm (.char f) := by
  constructor
  intro mayOpen n z y y' k e hy' h hpass
  have hborder : Derives mayOpen n (.char f) ⟨y', k⟩ .failure := by
    cases y' with
    | nil => exact .charEnd
    | cons d y' => exact .charOther (hf.eq_false (hy' d rfl))
  cases z with
  | nil =>
    cases y with
    | nil =>
      cases h
      exact ⟨_, hborder, .failure⟩
    | cons d y =>
      cases h with
      | char _ => exact absurd (Nat.lt_succ_self y.length) hpass
      | charOther _ => exact ⟨_, hborder, .failure⟩
  | cons c z =>
    cases h with
    | char hc => exact ⟨_, .char hc, .success z _ []⟩
    | charOther hc => exact ⟨_, .charOther hc, .failure⟩

theorem seq (hp : Firm p) (hq : Firm q) (hpq : Yields p q) : Firm (.seq p q) := by
  constructor
  intro mayOpen n z y y' k e hy' h hpass
  cases h with
  | seq hp₁ hq₁ =>
    have hlen := Cursor.length_le_of_derives hq₁
    obtain ⟨_, hp', hswap⟩ := hp.swap hy' hp₁ (fun h => hpass (Nat.lt_of_le_of_lt hlen h))
    cases hswap with
    | success x l ts =>
      obtain ⟨_, hq', hswap⟩ := hq.swap hy' hq₁ hpass
      cases hswap with
      | success x' l' us => exact ⟨_, .seq hp' hq', .success x' l' _⟩
  | seqLeft hp₁ =>
    obtain ⟨_, hp', hswap⟩ := hp.swap hy' hp₁ id
    cases hswap
    exact ⟨_, .seqLeft hp', .failure⟩
  | @seqRight _ _ _ _ j _ hp₁ hq₁ =>
    by_cases hlt : j.rest.length < y.length
    · exact ⟨_, hpq.fails hy' hp₁ hlt hq₁, .failure⟩
    · obtain ⟨_, hp', hswap⟩ := hp.swap hy' hp₁ hlt
      cases hswap with
      | success x l ts =>
        obtain ⟨_, hq', hswap⟩ := hq.swap hy' hq₁ id
        cases hswap
        exact ⟨_, .seqRight hp' hq', .failure⟩

theorem alt (hp : Firm p) (hq : Firm q) : Firm (.alt p q) := by
  constructor
  intro mayOpen n z y y' k e hy' h hpass
  cases h with
  | altLeft hp₁ =>
    obtain ⟨_, hp', hswap⟩ := hp.swap hy' hp₁ hpass
    cases hswap with
    | success x l => exact ⟨_, .altLeft hp', .success x l _⟩
  | altRight hp₁ hq₁ =>
    obtain ⟨_, hp', hswap⟩ := hp.swap hy' hp₁ id
    cases hswap
    obtain ⟨e', hq', hswap⟩ := hq.swap hy' hq₁ hpass
    exact ⟨e', .altRight hp' hq', hswap⟩

theorem opt (hp : Firm p) : Firm (.opt p) := by
  constructor
  intro mayOpen n z y y' k e hy' h hpass
  cases h with
  | opt hp₁ =>
    obtain ⟨_, hp', hswap⟩ := hp.swap hy' hp₁ hpass
    cases hswap with
    | success x l => exact ⟨_, .opt hp', .success x l _⟩
  | optNone hp₁ =>
    obtain ⟨_, hp', hswap⟩ := hp.swap hy' hp₁ id
    cases hswap
    exact ⟨_, .optNone hp', .success z k []⟩

theorem star (hp : Firm p) : Firm (.star p) := by
  constructor
  intro mayOpen n z y y' k e hy' h hpass
  have hall : ∀ {i j us}, Derives mayOpen n (.star p) i (.success j us) → ∀ z k, i = ⟨z ++ y, k⟩ →
      ¬ j.rest.length < y.length →
      ∃ e', Derives mayOpen n (.star p) ⟨z ++ y', k⟩ e' ∧
        Ending.Swapped y y' (.success j us) e' := by
    intro i j us h
    refine Derives.star_induction (P := fun i j us => ∀ z k, i = ⟨z ++ y, k⟩ →
      ¬ j.rest.length < y.length → ∃ e', Derives mayOpen n (.star p) ⟨z ++ y', k⟩ e' ∧
        Ending.Swapped y y' (.success j us) e') ?_ ?_ h
    · rintro _ hp₁ z k rfl -
      obtain ⟨_, hp', hswap⟩ := hp.swap hy' hp₁ id
      cases hswap
      exact ⟨_, .starEnd hp', .success z k []⟩
    · rintro _ l j ts us hp₁ hs ih z k rfl hpass
      have hlen := Cursor.length_le_of_derives hs
      obtain ⟨_, hp', hswap⟩ := hp.swap hy' hp₁ (fun h => hpass (Nat.lt_of_le_of_lt hlen h))
      cases hswap with
      | success x m =>
        obtain ⟨_, hs', hswap⟩ := ih x m rfl hpass
        cases hswap with
        | success x' m' => exact ⟨_, .starMore hp' hs', .success x' m' _⟩
  cases e with
  | failure => cases h
  | success j us => exact hall h z k rfl hpass

theorem rule (h : Firm (.of r)) : Firm (.rule r) := by
  constructor
  intro mayOpen n z y y' k e hy' hd hpass
  cases hd with
  | rule ho hr =>
    obtain ⟨_, hr', hswap⟩ := h.swap hy' hr hpass
    cases hswap with
    | success x l ts => exact ⟨_, .rule ho hr', .success x l _⟩
  | ruleNone ho hr =>
    obtain ⟨_, hr', hswap⟩ := h.swap hy' hr id
    cases hswap
    exact ⟨_, .ruleNone ho hr', .failure⟩
  | ruleShut ho => exact ⟨_, .ruleShut ho, .failure⟩

end Firm

section Closing

variable {c : Clause} {mayOpen : Nat → Prop} {n k l : Nat} {x y y' z : List Char} {ts : List Tree}

theorem Ending.Swapped.eq_success {e : Ending}
    (h : Ending.Swapped y y' (.success ⟨z ++ y, l⟩ ts) e) : e = .success ⟨z ++ y', l⟩ ts := by
  generalize hj : (⟨z ++ y, l⟩ : Cursor) = j at h
  cases h with
  | success x k us =>
    simp only [Cursor.mk.injEq, List.append_cancel_right_eq] at hj
    obtain ⟨rfl, rfl⟩ := hj
    rfl

/-- A match that stops before what follows the text stays. -/
theorem Firm.change (hc : Firm c) (hy' : Delimited y')
    (h : Derives mayOpen n c ⟨x ++ y, k⟩ (.success ⟨z ++ y, l⟩ ts)) :
    Derives mayOpen n c ⟨x ++ y', k⟩ (.success ⟨z ++ y', l⟩ ts) := by
  have hpass : ¬ (z ++ y).length < y.length := by
    rw [List.length_append]
    omega
  obtain ⟨e, he, hswap⟩ := hc.swap hy' h hpass
  rwa [hswap.eq_success] at he

theorem Firm.failure (hc : Firm c) (hy' : Delimited y')
    (h : Derives mayOpen n c ⟨x ++ y, k⟩ .failure) :
    Derives mayOpen n c ⟨x ++ y', k⟩ .failure := by
  obtain ⟨_, he, hswap⟩ := hc.swap hy' h id
  cases hswap
  exact he

end Closing

theorem Delimited.fails {f : Char → Bool} {y : List Char} (hy : Delimited y) (hf : Solid f) :
    Fails (.char f) y := by
  cases y with
  | nil => exact .charEnd
  | cons c y => exact .char (hf.eq_false (hy c rfl))

namespace Stops

variable {T : List Char → Prop} {p q : Clause} {f : Char → Bool}

theorem char (hf : Solid f) : Stops (fun _ => False) (.char f) := by
  constructor
  intro mayOpen n z y y' k j ts hy' h hlt
  cases z with
  | nil => exact .inl (hy'.fails hf mayOpen n k)
  | cons c z =>
    cases h
    simp only [List.append_eq, List.length_append] at hlt
    omega

theorem seq (hp : Firm p) (hps : Stops (fun _ => False) p) (hq : Stops T q) :
    Stops T (.seq p q) := by
  constructor
  intro mayOpen n z y y' k j ts hy' h hlt
  cases h with
  | @seq _ _ _ _ l _ _ _ hp₁ hq₁ =>
    by_cases hl : l.rest.length < y.length
    · rcases hps.stops hy' hp₁ hl with hfail | ⟨_, _, _, _, hfalse⟩
      · exact .inl (.seqLeft hfail)
      · exact hfalse.elim
    · obtain ⟨_, hp', hswap⟩ := hp.swap hy' hp₁ hl
      cases hswap with
      | success x m =>
        rcases hq.stops hy' hq₁ hlt with hfail | ⟨x', m', us, hq', hT⟩
        · exact .inl (.seqRight hp' hfail)
        · exact .inr ⟨x', m', _, .seq hp' hq', hT⟩

theorem opt_char (hf : Solid f) : Stops (· = []) (.opt (.char f)) := by
  constructor
  intro mayOpen n z y y' k j ts hy' h hlt
  cases z with
  | nil => exact .inr ⟨[], k, [], .optNone (hy'.fails hf mayOpen n k), rfl⟩
  | cons c z =>
    cases h with
    | opt hc =>
      cases hc
      simp only [List.append_eq, List.length_append] at hlt
      omega
    | optNone _ =>
      simp only [List.cons_append, List.length_cons, List.length_append] at hlt
      omega

end Stops

namespace Yields

variable {T : List Char → Prop} {p q : Clause} {f : Char → Bool}

theorem of_stops (hp : Stops T p)
    (hq : ∀ x y', T x → Delimited y' → Fails q (x ++ y')) : Yields p q := by
  constructor
  intro mayOpen n z y y' k j ts hy' h hlt _
  rcases hp.stops hy' h hlt with hfail | ⟨x, l, us, hp', hT⟩
  · exact .seqLeft hfail
  · exact .seqRight hp' (hq x y' hT hy' mayOpen n l)

theorem char (hf : Solid f) : Yields (.char f) q := of_stops (.char hf) fun _ _ h _ => h.elim

/-- What can be left out does not fail. -/
theorem opt : Yields p (.opt q) := by
  constructor
  intro mayOpen n z y y' k j ts _ _ _ hfail
  cases hfail

end Yields

/-! ## Digits -/

/-- Most of the visible characters of ASCII are solid. -/
theorem isSolid_of_toNat {c : Char} (h : 0x30 ≤ c.toNat) (h' : c.toNat < 0x7F)
    (hne : c.toNat ≠ 0x3B) : isSolid c = true := by
  have hblank : isBlank c = false := by
    simp only [isBlank, Bool.or_eq_false_iff, Bool.and_eq_false_iff, decide_eq_false_iff_not,
      beq_eq_false_iff_ne]
    omega
  have hsemicolon : c ≠ ';' := fun hc => hne (congrArg Char.toNat hc)
  have hpar : c ≠ ')' := by
    rintro rfl
    exact absurd h (by decide)
  simp [isSolid, hblank, hsemicolon, hpar]

theorem Solid.eq {d : Char} (hd : isSolid d = true) : Solid (· == d) :=
  fun _ hc => beq_iff_eq.mp hc ▸ hd

theorem Solid.contains {ds : List Char} (hds : ds.all isSolid = true) : Solid (ds.contains ·) :=
  fun c hc => List.all_eq_true.mp hds c (List.contains_iff_mem.mp hc)

theorem solid_isDigit : Solid Char.isDigit := by
  intro c hc
  simp only [Char.isDigit, Bool.and_eq_true, decide_eq_true_eq, ge_iff_le,
    UInt32.le_iff_toNat_le] at hc
  have h1 : 48 ≤ c.toNat := hc.1
  have h2 : c.toNat ≤ 57 := hc.2
  exact isSolid_of_toNat h1 (by omega) (by omega)

theorem solid_isHexDigit : Solid isHexDigit := by
  intro c hc
  simp only [isHexDigit, Bool.or_eq_true, Bool.and_eq_true, decide_eq_true_eq, Char.le_def,
    UInt32.le_iff_toNat_le] at hc
  rcases hc with (hc | ⟨h1, h2⟩) | ⟨h1, h2⟩
  · exact solid_isDigit c hc
  · have h1 : 97 ≤ c.toNat := h1
    have h2 : c.toNat ≤ 102 := h2
    exact isSolid_of_toNat (by omega) (by omega) (by omega)
  · have h1 : 65 ≤ c.toNat := h1
    have h2 : c.toNat ≤ 70 := h2
    exact isSolid_of_toNat (by omega) (by omega) (by omega)

/-- A digit other than zero. -/
theorem isDigit_of_nonzero {c : Char} (hc : ('1' ≤ c && c ≤ '9') = true) : c.isDigit = true := by
  simp only [Bool.and_eq_true, decide_eq_true_eq, Char.le_def, UInt32.le_iff_toNat_le] at hc
  simp only [Char.isDigit, Bool.and_eq_true, decide_eq_true_eq, ge_iff_le, UInt32.le_iff_toNat_le]
  have h1 : 49 ≤ c.val.toNat := hc.1
  exact ⟨Nat.le_trans (by decide) h1, hc.2⟩

/-- A further digit, with the underscores before it. -/
def Clause.further (g : Char → Bool) : Clause := star (one '_') ++ char g

section Digits

variable {f g : Char → Bool}

/-- Underscores alone are no further digit. -/
theorem further_fails {x y : List Char} (hg : Solid g) (hx : ∀ c ∈ x, c = '_')
    (hy : Delimited y) : Fails (.further g) (x ++ y) := by
  intro mayOpen n k
  have hij : (⟨x ++ y, k⟩ : Cursor).Across x ⟨y, k + Text.byteSize x⟩ := ⟨rfl, rfl⟩
  have hstar := (ReadsOne.char (· == '_')).star hij (fun c hc => beq_iff_eq.mpr (hx c hc))
    (fun c hc => (Solid.eq rfl).eq_false (hy c hc))
  exact .seqRight (hstar mayOpen n) (hy.fails hg mayOpen n _)

/-- A text that is read over lies in what is read. -/
theorem prefix_of_passes {cs rest y z : List Char} (h : z ++ y = cs ++ rest)
    (hlt : rest.length ≤ y.length) : z <+: cs := by
  have hlen := congrArg List.length h
  simp only [List.length_append] at hlen
  exact List.prefix_of_prefix_length_le (List.prefix_append z y) (h ▸ List.prefix_append cs rest)
    (by omega)

/-- Only underscores are passed over by the search for a further digit. -/
theorem eq_of_further_passes {mayOpen : Nat → Prop} {n k : Nat} {y z : List Char} {j : Cursor}
    {ts : List Tree} (h : Derives mayOpen n (.further g) ⟨z ++ y, k⟩ (.success j ts))
    (hlt : j.rest.length < y.length) : ∀ c ∈ z, c = '_' := by
  cases h with
  | seq hs hc =>
    obtain ⟨cs, hcs, hall, -, -⟩ := (ReadsOne.char (· == '_')).of_star hs
    obtain ⟨d, hd, -, -⟩ := hc.of_char
    have hpre : z <+: cs := by
      refine prefix_of_passes hcs.1 ?_
      rw [hd.1]
      exact hlt
    exact fun c hc => beq_iff_eq.mp (hall c (hpre.subset hc))

theorem firm_further (hg : Solid g) : Firm (.further g) := by
  refine .seq (.star (.char (.eq rfl))) (.char hg) ⟨?_⟩
  intro mayOpen n z y y' k j ts hy' hs hlt _
  obtain ⟨cs, hcs, hall, -, -⟩ := (ReadsOne.char (· == '_')).of_star hs
  have hpre : z <+: cs := prefix_of_passes hcs.1 (Nat.le_of_lt hlt)
  exact further_fails hg (fun c hc => beq_iff_eq.mp (hall c (hpre.subset hc))) hy' mayOpen n k

/-- Digits that go on behind the text stop in it before underscores, if any. -/
theorem stops_star_further (hg : Solid g) :
    Stops (fun x => ∀ c ∈ x, c = '_') (.star (.further g)) := by
  constructor
  intro mayOpen n z y y' k j ts hy' h hlt
  refine .inr (Derives.star_induction (P := fun i j _ => ∀ z k, i = ⟨z ++ y, k⟩ →
    j.rest.length < y.length → ∃ x l us, Derives mayOpen n (.star (.further g)) ⟨z ++ y', k⟩
      (.success ⟨x ++ y', l⟩ us) ∧ ∀ c ∈ x, c = '_') ?_ ?_ h z k rfl hlt)
  · rintro _ - z k rfl hlt
    simp only [List.length_append] at hlt
    omega
  · rintro _ l j ts us hp _ ih z k rfl hlt
    by_cases hl : l.rest.length < y.length
    · -- This digit lies behind the text already.
      have hz := eq_of_further_passes hp hl
      exact ⟨z, k, [], .starEnd (further_fails hg hz hy' mayOpen n k), hz⟩
    · obtain ⟨_, hp', hswap⟩ := (firm_further hg).swap hy' hp hl
      cases hswap with
      | success x m =>
        obtain ⟨x', m', us', hs', hx'⟩ := ih x m rfl hlt
        exact ⟨x', m', _, .starMore hp' hs', hx'⟩

theorem firm_digitsOf (hf : Solid f) (hg : Solid g) : Firm (.digitsOf f g) :=
  .seq (.char hf) (.star (firm_further hg)) (.char hf)

theorem stops_digitsOf (hf : Solid f) (hg : Solid g) :
    Stops (fun x => ∀ c ∈ x, c = '_') (.digitsOf f g) :=
  .seq (.char hf) (.char hf) (stops_star_further hg)

theorem digitsOf_fails {y : List Char} (hf : Solid f) (hy : Delimited y) :
    Fails (.digitsOf f g) y := .seq (hy.fails hf)

end Digits

/-! ## Floats and integers -/

theorem solid_sign : Solid (['+', '-'].contains ·) := .contains (by decide)

theorem solid_exponentMark : Solid (['e', 'E'].contains ·) := .contains (by decide)

theorem firm_digits : Firm .digits := firm_digitsOf solid_isDigit solid_isDigit

/-- After underscores that close a text there is no character of a class without them. -/
theorem char_fails_of_underscores {f : Char → Bool} {x y : List Char} (hf : Solid f)
    (hunderscore : f '_' = false) (hx : ∀ c ∈ x, c = '_') (hy : Delimited y) :
    Fails (.char f) (x ++ y) := by
  cases x with
  | nil => exact hy.fails hf
  | cons c x =>
    obtain rfl := hx c List.mem_cons_self
    exact .char hunderscore

theorem firm_exponent : Firm (.rule .exponent) := by
  refine .rule (.seq (.seq (.char solid_exponentMark) (.opt (.char solid_sign)) .opt) firm_digits ?_)
  refine .of_stops (.seq (.char solid_exponentMark) (.char solid_exponentMark)
    (.opt_char solid_sign)) ?_
  rintro x y' rfl hy'
  exact digitsOf_fails solid_isDigit hy'

theorem exponent_fails {cs : List Char} (h : Fails (.oneOf ['e', 'E']) cs) :
    Fails (.rule .exponent) cs := .rule (.seq (.seq h))

theorem firm_floatLiteral : Firm (.rule .floatLiteral) := by
  have hpoint : Solid (· == '.') := .eq rfl
  have hdigits := stops_digitsOf solid_isDigit solid_isDigit
  have hpointed : Yields .digits (.one '.') := .of_stops hdigits
    fun x y' hx hy' => char_fails_of_underscores hpoint rfl hx hy'
  have hraised : Yields .digits (.rule .exponent) := .of_stops hdigits
    fun x y' hx hy' => exponent_fails (char_fails_of_underscores solid_exponentMark rfl hx hy')
  refine .rule (.seq (.opt (.char solid_sign)) (.alt ?_ (.alt ?_ ?_)) ?_)
  · exact .seq (.seq (.seq firm_digits (.char hpoint) hpointed) (.opt firm_digits) .opt)
      (.opt firm_exponent) .opt
  · exact .seq firm_digits firm_exponent hraised
  · exact .seq (.seq (.char hpoint) firm_digits (.char hpoint)) (.opt firm_exponent) .opt
  · refine .of_stops (.opt_char solid_sign) ?_
    rintro x y' rfl hy'
    have hno := digitsOf_fails (g := Char.isDigit) solid_isDigit hy'
    exact .alt (.seq (.seq (.seq hno))) (.alt (.seq hno) (.seq (.seq (hy'.fails hpoint))))

theorem firm_integerLiteral : Firm (.rule .integerLiteral) := by
  have hzero : Solid (· == '0') := .eq rfl
  have hnonzero : Solid (fun c => '1' ≤ c && c ≤ '9') :=
    fun c hc => solid_isDigit c (isDigit_of_nonzero hc)
  have hmark : Solid (['x', 'X'].contains ·) := .contains (by decide)
  have hsuffix : Solid (['u', 'U'].contains ·) := .contains (by decide)
  have hhex : Firm (.rule .hexNumeral) :=
    .rule (.alt (firm_digitsOf solid_isHexDigit solid_isHexDigit) (.char hzero))
  have hdecimal : Firm (.rule .decimalNumeral) :=
    .rule (.alt (firm_digitsOf hnonzero solid_isDigit) (.char hzero))
  refine .rule (.seq (.seq (.opt (.char solid_sign)) (.alt (.seq (.seq (.char hzero) (.char hmark)
    (.char hzero)) hhex ?_) hdecimal) ?_) (.opt (.char hsuffix)) .opt)
  · exact .of_stops (.seq (.char hzero) (.char hzero) (.char hmark)) fun _ _ h _ => h.elim
  · refine .of_stops (.opt_char solid_sign) ?_
    rintro x y' rfl hy'
    exact .alt (.seq (.seq (hy'.fails hzero)))
      (.rule (.alt (digitsOf_fails hnonzero hy') (hy'.fails hzero)))

/-- A sign and digits are no float, if neither a point nor an exponent follows. -/
theorem floatLiteral_fails_of_digits {mayOpen : Nat → Prop} {n : Nat} {i j l : Cursor}
    {ts us : List Tree} (hsign : Derives mayOpen n (.opt .sign) i (.success j ts))
    (hdigits : Derives mayOpen n .digits j (.success l us))
    (hl : ∀ c ∈ l.rest.head?, c ∉ ['.', 'e', 'E']) :
    Derives mayOpen n (.rule .floatLiteral) i .failure := by
  have hpoint : Fails (.one '.') l.rest := by
    refine (ReadsOne.char _).fails fun c hc => ?_
    have hne := hl c hc
    simp_all
  have hexponent : Fails (.rule .exponent) l.rest := by
    refine exponent_fails ((ReadsOne.char _).fails fun c hc => ?_)
    have hne := hl c hc
    simp_all
  have hstart : Fails (.one '.') j.rest := by
    cases hdigits with
    | seq hfirst _ =>
      obtain ⟨d, hd, hdigit, -⟩ := hfirst.of_char
      rw [hd.1]
      refine .char (beq_eq_false_iff_ne.mpr ?_)
      rintro rfl
      cases hdigit
  refine .ruleNone (fun h => nomatch h) (.seqRight hsign (.altRight ?_ (.altRight ?_ ?_)))
  · exact .seqLeft (.seqLeft (.seqRight hdigits (hpoint mayOpen n l.offset)))
  · exact .seqRight hdigits (hexponent mayOpen n l.offset)
  · exact .seqLeft (.seqLeft (hstart mayOpen n j.offset))

/-- A zero that is not followed by digits is all the digits there are. -/
theorem digits_of_zero {mayOpen : Nat → Prop} {n : Nat} {k l : Cursor} (hkl : k.Across ['0'] l)
    (hl : ∀ c ∈ l.rest.head?, c ≠ '_' ∧ c.isDigit = false) :
    Derives mayOpen n .digits k (.success l []) := by
  have hskip := (ReadsOne.char (· == '_')).star (.refl l) (fun c hc => nomatch hc)
    (fun c hc => beq_eq_false_iff_ne.mpr (hl c hc).1)
  have hfail : Fails (.char Char.isDigit) l.rest :=
    (ReadsOne.char Char.isDigit).fails fun c hc => (hl c hc).2
  exact .seq (.charAcross hkl rfl)
    (.starEnd (.seqRight (hskip mayOpen n) (hfail mayOpen n l.offset)))

/-- What can follow the digits of a closed integer: the suffix, or what closes the integer. -/
def EndsInteger (c : Char) : Prop := c = 'u' ∨ c = 'U' ∨ isSolid c = false

theorem EndsInteger.not_mem {c : Char} (h : EndsInteger c) : c ∉ ['.', 'e', 'E'] := by
  intro hmem
  simp only [List.mem_cons, List.not_mem_nil, or_false] at hmem
  rcases hmem with rfl | rfl | rfl <;> revert h <;> unfold EndsInteger <;> decide

theorem EndsInteger.ne_underscore_and_not_isDigit {c : Char} (h : EndsInteger c) :
    c ≠ '_' ∧ c.isDigit = false := by
  rcases h with rfl | rfl | h
  · decide
  · decide
  · refine ⟨?_, solid_isDigit.eq_false h⟩
    rintro rfl
    cases h

theorem endsInteger_of_suffix {mayOpen : Nat → Prop} {n : Nat} {l j : Cursor} {us : List Tree}
    (h : Derives mayOpen n (.opt (.oneOf ['u', 'U'])) l (.success j us)) (hj : Delimited j.rest) :
    ∀ c ∈ l.rest.head?, EndsInteger c := by
  intro c hc
  cases h with
  | opt hu =>
    obtain ⟨d, hd, hmem, -⟩ := hu.of_char
    rw [hd.1] at hc
    obtain rfl : d = c := Option.some.inj hc
    have hud : d = 'u' ∨ d = 'U' := by simpa using hmem
    exact hud.imp_right .inl
  | optNone _ => exact .inr (.inr (hj c hc))

/-- A closed integer is no float. -/
theorem floatLiteral_fails_of_integerLiteral {mayOpen : Nat → Prop} {n : Nat} {i j : Cursor}
    {ts : List Tree} (h : Derives mayOpen n (.rule .integerLiteral) i (.success j ts))
    (hj : Delimited j.rest) : Derives mayOpen n (.rule .floatLiteral) i .failure := by
  cases h with
  | rule _ hr =>
  cases hr with
  | seq hnumber hsuffix =>
  cases hnumber with
  | seq hsign hnumeral =>
  cases hnumeral with
  | altLeft hhex =>
    cases hhex with
    | seq hmark _ =>
    cases hmark with
    | seq hfirst hx =>
      obtain ⟨d, hd, hd0, -⟩ := hfirst.of_char
      obtain ⟨x, hx, hmem, -⟩ := hx.of_char
      obtain rfl : d = '0' := beq_iff_eq.mp hd0
      have hhead : ∀ c, some x = some c → c = 'x' ∨ c = 'X' := by
        rintro c hc
        cases hc
        simpa using hmem
      -- The digits of a float would end at the mark of the hexadecimal number.
      refine floatLiteral_fails_of_digits hsign (digits_of_zero hd ?_) ?_
      · rw [hx.1]
        intro c hc
        rcases hhead c hc with rfl | rfl <;> decide
      · rw [hx.1]
        intro c hc
        rcases hhead c hc with rfl | rfl <;> decide
  | altRight _ hdecimal =>
    cases hdecimal with
    | rule _ hof =>
    cases hof with
    | altLeft hdigits =>
      cases hdigits with
      | seq hfirst hmore =>
        obtain ⟨d, hd, hd1, -⟩ := hfirst.of_char
        exact floatLiteral_fails_of_digits hsign
          (.seq (.charAcross hd (isDigit_of_nonzero hd1)) hmore)
          fun c hc => (endsInteger_of_suffix hsuffix hj c hc).not_mem
    | altRight _ hone =>
      obtain ⟨d, hd, hd0, -⟩ := hone.of_char
      obtain rfl : d = '0' := beq_iff_eq.mp hd0
      have hends := endsInteger_of_suffix hsuffix hj
      exact floatLiteral_fails_of_digits hsign
        (digits_of_zero hd fun c hc => (hends c hc).ne_underscore_and_not_isDigit)
        fun c hc => (hends c hc).not_mem

end Fexpr.Grammar
