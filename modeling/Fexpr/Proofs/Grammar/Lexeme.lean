import Fexpr.Proofs.Grammar.Lexical

/-!
# Gaps and names

A gap is what stands between the lexemes of a script: blanks, and comments that are closed by the
end of their line. The rule of spacing matches all of a gap at once (`Spaced.lexes`), and what it
matches is a gap that is followed by something else (`spaced_of_derives`). Only at the end of a text
may a last comment be left open.

A name goes on as long as there are characters for it, and takes the gap behind it along
(`NameAt.lexes`, `nameAt_of_derives`).
-/

namespace Fexpr.Grammar

open Text (byteSize)

/-- The blanks that may stand in a gap. -/
def isGapBlank (c : Char) : Bool := [' ', '\t', '\r', '\n'].contains c

/-- The characters that close a comment. -/
def isLineEnd (c : Char) : Bool := ['\r', '\n'].contains c

/-- The characters that a gap can start with. -/
def startsGap (c : Char) : Bool := isGapBlank c || c == ';'

/-- Blanks and closed comments. -/
inductive Gap : List Char → Prop
  | nil : Gap []
  | blank {c : Char} {cs : List Char} (hc : isGapBlank c = true) (h : Gap cs) : Gap (c :: cs)
  | comment {body cs : List Char} {c : Char} (hbody : ∀ d ∈ body, isLineEnd d = false)
    (hc : isLineEnd c = true) (h : Gap cs) : Gap (';' :: (body ++ c :: cs))

/-- A gap, all of it, before the text `rest`. If the text ends here, the last comment may be
open. -/
inductive GapBefore (rest : List Char) : List Char → Prop
  | nil (h : ∀ c ∈ rest.head?, startsGap c = false) : GapBefore rest []
  | blank {c : Char} {cs : List Char} (hc : isGapBlank c = true) (h : GapBefore rest cs) :
    GapBefore rest (c :: cs)
  | comment {body cs : List Char} {c : Char} (hbody : ∀ d ∈ body, isLineEnd d = false)
    (hc : isLineEnd c = true) (h : GapBefore rest cs) : GapBefore rest (';' :: (body ++ c :: cs))
  | last {body : List Char} (hrest : rest = []) (hbody : ∀ d ∈ body, isLineEnd d = false) :
    GapBefore rest (';' :: body)

namespace GapBefore

variable {rest rest' cs : List Char}

theorem of_gap (h : Gap cs) (hrest : ∀ c ∈ rest.head?, startsGap c = false) :
    GapBefore rest cs := by
  induction h with
  | nil => exact .nil hrest
  | blank hc _ ih => exact .blank hc ih
  | comment hbody hc _ ih => exact .comment hbody hc ih

theorem startsGap_eq_false (h : GapBefore rest cs) : ∀ c ∈ rest.head?, startsGap c = false := by
  induction h with
  | nil h => exact h
  | blank _ _ ih => exact ih
  | comment _ _ _ ih => exact ih
  | last hrest _ =>
    subst hrest
    exact fun c hc => nomatch hc

/-- Something else may follow a gap, unless its last comment is open. -/
theorem change (h : GapBefore rest cs) (hopen : rest = [] → rest' = [])
    (hrest' : ∀ c ∈ rest'.head?, startsGap c = false) : GapBefore rest' cs := by
  induction h with
  | nil _ => exact .nil hrest'
  | blank hc _ ih => exact .blank hc ih
  | comment hbody hc _ ih => exact .comment hbody hc ih
  | last hrest hbody => exact .last (hopen hrest) hbody

/-- A gap that is not empty starts like one. -/
theorem startsGap_head (h : GapBefore rest cs) : ∀ c ∈ cs.head?, startsGap c = true := by
  intro c hc
  cases h with
  | nil _ => cases hc
  | blank hblank _ =>
    cases hc
    rw [startsGap, hblank, Bool.true_or]
  | comment _ _ _ =>
    cases hc
    rfl
  | last _ _ =>
    cases hc
    rfl

end GapBefore

/-- No gap starts here. -/
def Cursor.Clear (i : Cursor) : Prop := ∀ c ∈ i.rest.head?, startsGap c = false

/-- All of a gap lies between the two places. -/
def Spaced (i j : Cursor) : Prop := ∃ cs, i.Across cs j ∧ GapBefore j.rest cs

theorem Spaced.clear {i j : Cursor} (h : Spaced i j) : j.Clear := by
  obtain ⟨cs, -, hgap⟩ := h
  exact hgap.startsGap_eq_false

theorem Spaced.refl {i : Cursor} (h : i.Clear) : Spaced i i := ⟨[], .refl i, .nil h⟩

theorem Spaced.eq {i j : Cursor} (h : Spaced i j) (hi : i.Clear) : i = j := by
  obtain ⟨cs, hcs, hgap⟩ := h
  cases cs with
  | nil => exact hcs.eq_of_nil
  | cons c cs =>
    have hc := hi c (by rw [hcs.1]; rfl)
    rw [hgap.startsGap_head c rfl] at hc
    cases hc

theorem Spaced.offset_le {i j : Cursor} (h : Spaced i j) : i.offset ≤ j.offset := by
  obtain ⟨cs, hcs, -⟩ := h
  exact hcs.offset_le

/-- At every place there is a gap, maybe an empty one. -/
theorem exists_gapBefore (cs : List Char) :
    ∃ gap rest, cs = gap ++ rest ∧ GapBefore rest gap := by
  induction hn : cs.length using Nat.strong_induction_on generalizing cs with
  | h n ih =>
  cases cs with
  | nil => exact ⟨[], [], rfl, .nil fun c hc => nomatch hc⟩
  | cons c cs =>
    rw [List.length_cons] at hn
    by_cases hblank : isGapBlank c = true
    · obtain ⟨gap, rest, rfl, hgap⟩ := ih cs.length (by omega) cs rfl
      exact ⟨c :: gap, rest, rfl, .blank hblank hgap⟩
    by_cases hsemicolon : c = ';'
    · subst hsemicolon
      have hbody : ∀ d ∈ cs.takeWhile (fun d => !isLineEnd d), isLineEnd d = false := by
        intro d hd
        simpa using List.mem_takeWhile_imp hd
      have hcs := (List.takeWhile_append_dropWhile (p := fun d => !isLineEnd d) (l := cs)).symm
      cases hrest : cs.dropWhile fun d => !isLineEnd d with
      | nil =>
        rw [hrest, List.append_nil] at hcs
        exact ⟨';' :: cs, [], (List.append_nil _).symm, .last rfl (hcs ▸ hbody)⟩
      | cons d ds =>
        have hd : isLineEnd d = true := by
          have hhead : d ∈ (cs.dropWhile fun d => !isLineEnd d).head? := by rw [hrest]; rfl
          simpa using eq_false_of_mem_head?_dropWhile hhead
        have hlen : ds.length < cs.length := by
          rw [hcs, hrest, List.length_append, List.length_cons]
          omega
        obtain ⟨gap, rest, rfl, hgap⟩ := ih ds.length (by omega) ds rfl
        refine ⟨_, rest, ?_, .comment hbody hd hgap⟩
        rw [hrest] at hcs
        simpa using hcs
    · refine ⟨[], c :: cs, rfl, .nil fun d hd => ?_⟩
      cases hd
      simpa [startsGap] using And.intro hblank hsemicolon

theorem exists_spaced (i : Cursor) : ∃ j, Spaced i j := by
  obtain ⟨gap, rest, hrest, hgap⟩ := exists_gapBefore i.rest
  exact ⟨⟨rest, i.offset + byteSize gap⟩, gap, ⟨hrest, rfl⟩, hgap⟩

/-! ## The rule of spacing -/

/-- One round of spacing: blanks in a row, or a comment. -/
def Clause.gapItem : Clause :=
  plus (oneOf [' ', '\t', '\r', '\n']) <|>
    one ';' ++ star (.not (oneOf ['\r', '\n']) ++ any) ++ (oneOf ['\r', '\n'] <|> .not any)

section Spacing

variable {mayOpen : Nat → Prop} {n : Nat} {i j : Cursor} {ts : List Tree}

/-- The body of a comment, and the end of its line. -/
theorem comment_lexes {l : Cursor} {body : List Char} (hil : i.Across (';' :: body) l)
    (hbody : ∀ d ∈ body, isLineEnd d = false)
    (hend : (∃ c, isLineEnd c = true ∧ l.Across [c] j) ∨ l.rest = [] ∧ l = j) :
    Lexes Clause.gapItem i j [] := by
  intro m k
  obtain ⟨i', hii', hi'l⟩ := hil.split [';']
  have hblanks : Fails (.plus (.oneOf [' ', '\t', '\r', '\n'])) i.rest := by
    rw [hii'.1]
    exact .plus (.char rfl)
  have hstop : ∀ c ∈ l.rest.head?, (!isLineEnd c) = false := by
    intro c hc
    rcases hend with ⟨d, hd, hlj⟩ | ⟨hnil, -⟩
    · rw [hlj.1] at hc
      cases hc
      rw [hd]
      rfl
    · rw [hnil] at hc
      cases hc
  have hstar := (ReadsOne.butNot isLineEnd).star hi'l (fun d hd => by rw [hbody d hd]; rfl) hstop
  refine .altRight (hblanks m k i.offset)
    (.seq (.seq (.charAcross hii' rfl) (hstar m k)) ?_)
  rcases hend with ⟨c, hc, hlj⟩ | ⟨hnil, rfl⟩
  · exact .altLeft (.charAcross hlj hc)
  · obtain ⟨rest, offset⟩ := l
    obtain rfl : rest = [] := hnil
    exact .altRight .charEnd (.not .charEnd)

theorem gapItem_fails {cs : List Char} (h : ∀ c ∈ cs.head?, startsGap c = false) :
    Fails Clause.gapItem cs := by
  cases cs with
  | nil => exact .alt (.plus .charEnd) (.seq (.seq .charEnd))
  | cons c cs =>
    obtain ⟨hblank, hsemicolon⟩ := Bool.or_eq_false_iff.mp (h c rfl)
    exact .alt (.plus (.char hblank)) (.seq (.seq (.char hsemicolon)))

/-- A blank in front of a gap belongs to the same round as the blanks after it. -/
theorem star_gapItem_blank {l : Cursor} {c : Char} (hil : i.Across [c] l)
    (hc : isGapBlank c = true) (h : Derives mayOpen n (.star .gapItem) l (.success j [])) :
    Derives mayOpen n (.star .gapItem) i (.success j []) := by
  have hreads := ReadsOne.char isGapBlank
  have hone : Derives mayOpen n (.oneOf [' ', '\t', '\r', '\n']) i (.success l []) :=
    .charAcross hil hc
  by_cases hmore : ∃ d ds, l.rest = d :: ds ∧ isGapBlank d = true
  · obtain ⟨d, ds, hrest, hd⟩ := hmore
    have hld : l.Across [d] ⟨ds, l.offset + byteSize [d]⟩ := ⟨hrest, rfl⟩
    -- The first round of the gap after the blank goes over blanks as well.
    have hround : ∃ l', Derives mayOpen n (.star (.oneOf [' ', '\t', '\r', '\n']))
        ⟨ds, l.offset + byteSize [d]⟩ (.success l' []) := by
      refine ⟨⟨ds.dropWhile isGapBlank, l.offset + byteSize [d] +
        byteSize (ds.takeWhile isGapBlank)⟩, hreads.star ⟨List.takeWhile_append_dropWhile.symm, rfl⟩
        (fun x hx => List.mem_takeWhile_imp hx)
        (fun x hx => eq_false_of_mem_head?_dropWhile hx) mayOpen n⟩
    obtain ⟨l', hl'⟩ := hround
    have hitem : Derives mayOpen n .gapItem l (.success l' []) :=
      .altLeft (.plus (.charAcross hld hd) hl')
    generalize hus : ([] : List Tree) = us at h
    cases h with
    | starEnd hp => cases hp.unique hitem
    | starMore hp hs =>
      cases hp.unique hitem
      rw [List.nil_append] at hus
      subst hus
      exact .starMore (.altLeft (.plus hone (.starMore (.charAcross hld hd) hl'))) hs
  · have hlast : Fails (.oneOf [' ', '\t', '\r', '\n']) l.rest := by
      refine hreads.fails fun d hd => ?_
      cases hrest : l.rest with
      | nil => rw [hrest] at hd; cases hd
      | cons d' ds =>
        rw [hrest] at hd
        cases hd
        exact Bool.eq_false_iff.mpr fun hblank => hmore ⟨d, ds, hrest, hblank⟩
    exact .starMore (.altLeft (.plus hone (.starEnd (hlast mayOpen n l.offset)))) h

/-- The rule of spacing matches all of a gap. -/
theorem Spaced.lexes (h : Spaced i j) :
    Lexes (.rule .spacing) i j [.node .spacing ⟨i.offset, j.offset⟩ []] := by
  intro m k
  obtain ⟨cs, hij, hgap⟩ := h
  refine .rule (fun h => nomatch h) (show Derives m k (.star .gapItem) i _ from ?_)
  generalize hrest : j.rest = rest at hgap
  induction hgap generalizing i with
  | nil hstop =>
    obtain rfl := hij.eq_of_nil
    exact .starEnd (gapItem_fails (hrest ▸ hstop) m k i.offset)
  | blank hc _ ih =>
    obtain ⟨l, hil, hlj⟩ := hij.split [_]
    exact star_gapItem_blank hil hc (ih hlj)
  | @comment body cs c hbody hc _ ih =>
    obtain ⟨l, hil, hlj⟩ := hij.split (';' :: body)
    obtain ⟨l', hll', hl'j⟩ := hlj.split [c]
    exact .starMore (comment_lexes hil hbody (.inl ⟨c, hc, hll'⟩) m k) (ih hl'j)
  | last hnil hbody =>
    have hstop : ∀ c ∈ j.rest.head?, startsGap c = false := by
      rw [hrest, hnil]
      exact fun c hc => nomatch hc
    exact .starMore (comment_lexes hij hbody (.inr ⟨hrest.trans hnil, rfl⟩) m k)
      (.starEnd (gapItem_fails hstop m k j.offset))

/-- What the rule of spacing matches is all of a gap. -/
theorem spaced_of_derives (h : Derives mayOpen n (.rule .spacing) i (.success j ts)) :
    Spaced i j ∧ ts = [.node .spacing ⟨i.offset, j.offset⟩ []] := by
  obtain ⟨k, hk⟩ := exists_spaced i
  cases h.unique (hk.lexes mayOpen n)
  exact ⟨hk, rfl⟩

end Spacing

/-! ## Names -/

/-- The characters that a name can go on with. -/
def isNameChar (c : Char) : Bool := isWordChar c || c == '-'

/-- Whether the characters make up a name. -/
def isWord : List Char → Bool
  | [] => false
  | c :: cs => isNameStart c && cs.all isNameChar

/-- The name `w` stands between the first two places, and all of the gap after it lies between the
second and the third. -/
structure NameAt (w : List Char) (i j k : Cursor) : Prop where
  word : isWord w = true
  across : i.Across w j
  stop : ∀ c ∈ j.rest.head?, isNameChar c = false
  spaced : Spaced j k

theorem readsOne_nameChar : ReadsOne (.char isWordChar <|> .one '-') isNameChar :=
  .alt (.char isWordChar) (.char (· == '-'))

section Names

variable {mayOpen : Nat → Prop} {n : Nat} {i j k : Cursor} {w : List Char} {ts : List Tree}

theorem NameAt.lexes (h : NameAt w i j k) :
    Lexes (.rule .identifier) i k
      [.node .identifier ⟨i.offset, k.offset⟩ [.node .spacing ⟨j.offset, k.offset⟩ []]] := by
  intro m n
  obtain ⟨hword, hij, hstop, hsp⟩ := h
  cases w with
  | nil => cases hword
  | cons c cs =>
    obtain ⟨hc, hcs⟩ := Bool.and_eq_true_iff.mp hword
    obtain ⟨l, hil, hlj⟩ := hij.split [c]
    have hmore := readsOne_nameChar.star hlj (List.all_eq_true.mp hcs) hstop
    exact .rule (fun h => nomatch h)
      (.seq (.seq (.charAcross hil hc) (hmore m _)) (hsp.lexes m _))

theorem nameAt_of_derives (h : Derives mayOpen n (.rule .identifier) i (.success k ts)) :
    ∃ w j, NameAt w i j k ∧ ts =
      [.node .identifier ⟨i.offset, k.offset⟩ [.node .spacing ⟨j.offset, k.offset⟩ []]] := by
  cases h with
  | rule _ hr =>
  cases hr with
  | @seq _ _ _ _ j _ _ _ hword hspacing =>
  cases hword with
  | seq hfirst hmore =>
    obtain ⟨c, hc, hstart, rfl⟩ := hfirst.of_char
    obtain ⟨cs, hcs, hall, hstop, rfl⟩ := readsOne_nameChar.of_star hmore
    obtain ⟨hsp, rfl⟩ := spaced_of_derives hspacing
    refine ⟨c :: cs, j, ⟨?_, hc.trans hcs, hstop, hsp⟩, rfl⟩
    exact Bool.and_eq_true_iff.mpr ⟨hstart, List.all_eq_true.mpr hall⟩

theorem identifier_fails {cs : List Char} (h : ∀ c ∈ cs.head?, isNameStart c = false) :
    Fails (.rule .identifier) cs := .rule (.seq (.seq ((ReadsOne.char isNameStart).fails h)))

end Names

end Fexpr.Grammar
