import Fexpr.Proofs.Text.Position
import Mathlib.Data.List.Nodup

/-!
# Offsets are placed one by one

The sweep over a text places many offsets at once. What it says of an offset is what one would find
for this offset alone (`Position.alone`), by counting the characters that end at or before it, and
then the line feeds among these. So nothing depends on which other offsets are asked for, and a
later offset is never placed before an earlier one (`offsets_placed_alone`).
-/

namespace Fexpr.Text

/-! ## Placing one offset -/

/-- How many characters of the text end at or before the offset. An offset past the end counts as
the end. -/
def charsEndedBy (cs : List Char) (o : Nat) : Nat :=
  (List.range cs.length).countP fun k => byteSize (cs.take (k + 1)) ≤ min o (byteSize cs)

theorem charsEndedBy_cons_of_le {c : Char} {o : Nat} (h : c.utf8Size ≤ o) (cs : List Char) :
    charsEndedBy (c :: cs) o = charsEndedBy cs (o - c.utf8Size) + 1 := by
  have hfirst : byteSize ((c :: cs).take 1) ≤ min o (byteSize (c :: cs)) := by
    simp only [List.take_succ_cons, List.take_zero, byteSize_cons, byteSize_nil]
    omega
  have hlater : ∀ k, (byteSize ((c :: cs).take (k + 1 + 1)) ≤ min o (byteSize (c :: cs)) ↔
      byteSize (cs.take (k + 1)) ≤ min (o - c.utf8Size) (byteSize cs)) := by
    intro k
    rw [List.take_succ_cons, byteSize_cons, byteSize_cons]
    omega
  rw [charsEndedBy, List.length_cons, List.range_succ_eq_map, List.countP_cons, List.countP_map,
    if_pos (decide_eq_true hfirst), charsEndedBy]
  refine congrArg (· + 1) (List.countP_congr fun k _ => ?_)
  rw [Function.comp_apply, decide_eq_true_iff, decide_eq_true_iff]
  exact hlater k

theorem charsEndedBy_cons_of_lt {c : Char} {o : Nat} (h : o < c.utf8Size) (cs : List Char) :
    charsEndedBy (c :: cs) o = 0 := by
  rw [charsEndedBy, List.countP_eq_zero]
  intro k _ hk
  have hk := of_decide_eq_true hk
  rw [List.take_succ_cons, byteSize_cons] at hk
  omega

/-- The characters before an offset are as many as end there. -/
theorem charsBefore_eq_take (cs : List Char) (o : Nat) :
    charsBefore o cs = cs.take (charsEndedBy cs o) := by
  induction cs generalizing o with
  | nil => rfl
  | cons c cs ih =>
    rw [charsBefore]
    by_cases hle : c.utf8Size ≤ o
    · rw [if_pos hle, charsEndedBy_cons_of_le hle, List.take_succ_cons, ih]
    · rw [if_neg hle, charsEndedBy_cons_of_lt (Nat.lt_of_not_le hle), List.take_zero]

/-- Of two offsets the later one has all the characters before it that the earlier one has. -/
theorem charsBefore_prefix {o o' : Nat} (h : o ≤ o') (cs : List Char) :
    charsBefore o cs <+: charsBefore o' cs := by
  induction cs generalizing o o' with
  | nil => exact List.prefix_refl _
  | cons c cs ih =>
    rw [charsBefore, charsBefore]
    by_cases hle : c.utf8Size ≤ o
    · rw [if_pos hle, if_pos (Nat.le_trans hle h)]
      exact (List.prefix_cons_inj c).mpr (ih (by omega))
    · rw [if_neg hle]
      exact List.nil_prefix

namespace Position

/-- The position of an offset, found for it alone. The line is one more than the number of line
feeds among the characters that end at or before the offset, and the column one more than the number
of those behind the last line feed. -/
def alone (cs : List Char) (o : Nat) : Position :=
  let before := cs.take (charsEndedBy cs o)
  ⟨1 + before.count '\n', 1 + (before.reverse.takeWhile (· != '\n')).length⟩

theorem behind_charsBefore (cs : List Char) (o : Nat) :
    behind (charsBefore o cs) = alone cs o := by
  rw [behind, alone, charsBefore_eq_take, Nat.add_comm 1, Nat.add_comm 1]

/-! ## Later positions -/

/-- A position is before those in later lines and those further on in its line. -/
instance : LE Position :=
  ⟨fun p q => p.line < q.line ∨ p.line = q.line ∧ p.column ≤ q.column⟩

instance (p q : Position) : Decidable (p ≤ q) :=
  inferInstanceAs (Decidable (_ ∨ _))

/-- More text moves the position on: to a later line if there is a line feed in it, and otherwise to
a later column of the same line. -/
theorem behind_le_append (pre cs : List Char) : behind pre ≤ behind (pre ++ cs) := by
  by_cases hfeed : '\n' ∈ cs
  · left
    have hpos : 0 < cs.count '\n' := List.count_pos_iff.mpr hfeed
    show pre.count '\n' + 1 < (pre ++ cs).count '\n' + 1
    rw [List.count_append]
    omega
  · right
    have hcount : cs.count '\n' = 0 := List.count_eq_zero.mpr hfeed
    have hline : ∀ c ∈ cs.reverse, (c != '\n') = true := by
      intro c hc
      rw [bne_iff_ne]
      rintro rfl
      exact hfeed (List.mem_reverse.mp hc)
    constructor
    · show pre.count '\n' + 1 = (pre ++ cs).count '\n' + 1
      rw [List.count_append, hcount]
    · show (pre.reverse.takeWhile (· != '\n')).length + 1 ≤
        ((pre ++ cs).reverse.takeWhile (· != '\n')).length + 1
      rw [List.reverse_append, List.takeWhile_append_of_pos hline, List.length_append]
      omega

theorem alone_le {o o' : Nat} (h : o ≤ o') (cs : List Char) : alone cs o ≤ alone cs o' := by
  obtain ⟨between, hbetween⟩ := charsBefore_prefix h cs
  rw [← behind_charsBefore, ← behind_charsBefore, ← hbetween]
  exact behind_le_append _ _

/-! ## What is answered -/

/-- The sweep answers the offsets that are pending, and each of them once. -/
theorem keys_sweep (cs : List Char) (offset : Nat) (p : Position) (pending : List Nat) :
    (sweep offset p cs pending).map Prod.fst = pending := by
  have hsame : ∀ (offsets : List Nat) (p : Position),
      (offsets.map (·, p)).map Prod.fst = offsets := by
    intro offsets p
    rw [List.map_map]
    exact List.map_id offsets
  induction cs generalizing offset p pending with
  | nil =>
    rw [sweep]
    exact hsame pending p
  | cons c cs ih =>
    cases pending with
    | nil =>
      rw [sweep]
      rfl
    | cons o os =>
      rw [sweep]
      split
      · rw [List.map_append, hsame, ih, List.takeWhile_append_dropWhile]
      · exact ih _ _ _

end Position

theorem nodup_eraseDups (l : List Nat) : l.eraseDups.Nodup := by
  cases l with
  | nil => exact List.nodup_nil
  | cons a l =>
    rw [List.eraseDups_cons, List.nodup_cons]
    refine ⟨fun ha => ?_, nodup_eraseDups _⟩
    rw [List.mem_eraseDups, List.mem_filter, beq_self_eq_true] at ha
    exact Bool.false_ne_true ha.2
termination_by l.length
decreasing_by
  have hlength := List.length_filter_le (fun b => !b == a) l
  rw [List.length_cons]
  omega

theorem keys_positions (cs : List Char) (offsets : List Nat) :
    ((positions cs offsets).map Prod.fst).Nodup ∧
      ∀ o, o ∈ (positions cs offsets).map Prod.fst ↔ o ∈ offsets := by
  rw [positions, Position.keys_sweep]
  refine ⟨nodup_eraseDups _, fun o => ?_⟩
  rw [List.mem_eraseDups, List.mem_mergeSort]

theorem mem_positions_iff {cs : List Char} {offsets : List Nat} {o : Nat} {p : Position} :
    (o, p) ∈ positions cs offsets ↔ o ∈ offsets ∧ p = .alone cs o := by
  obtain ⟨hnodup, hkeys⟩ := keys_positions cs offsets
  have hanswer : o ∈ offsets → (o, Position.alone cs o) ∈ positions cs offsets := by
    intro ho
    have hlookup : (positions cs offsets).lookup o = _ := lookup_positions ho
    obtain ⟨before, after, hsplit, -⟩ := List.lookup_eq_some_iff.mp hlookup
    rw [hsplit, Position.behind_charsBefore]
    exact List.mem_append_right _ List.mem_cons_self
  constructor
  · intro hmem
    have ho : o ∈ offsets := (hkeys o).mp (List.mem_map_of_mem hmem)
    -- The offset has one answer only, and the one found for it alone is among them.
    have hsame := List.inj_on_of_nodup_map hnodup hmem (hanswer ho) rfl
    exact ⟨ho, congrArg Prod.snd hsame⟩
  · rintro ⟨ho, rfl⟩
    exact hanswer ho

/-- Offsets are placed one by one. Whichever offsets are asked for, in any order, repeated, inside
of characters or past the end, each of them is answered once and no other one is, with the position
that is found for it alone. So the answer for an offset does not depend on the others, and positions
do not go back as offsets go on. The two ends of a span are placed in the same way, and in order. -/
theorem offsets_placed_alone (cs : List Char) (offsets : List Nat) :
    ((positions cs offsets).map Prod.fst).Nodup ∧
    (∀ o p, (o, p) ∈ positions cs offsets ↔ o ∈ offsets ∧ p = .alone cs o) ∧
    (∀ others o, o ∈ offsets → o ∈ others →
      (positions cs others).lookup o = (positions cs offsets).lookup o) ∧
    (∀ o p o' p', (o, p) ∈ positions cs offsets → (o', p') ∈ positions cs offsets →
      o ≤ o' → p ≤ p') ∧
    ∀ s : Span, Location.of cs s = ⟨.alone cs s.start, .alone cs s.stop⟩ ∧
      (s.start ≤ s.stop → (Location.of cs s).start ≤ (Location.of cs s).stop) := by
  refine ⟨(keys_positions cs offsets).1, fun o p => mem_positions_iff, ?_, ?_, fun s => ?_⟩
  · intro others o ho hother
    rw [lookup_positions ho, lookup_positions hother]
  · intro o p o' p' hp hp' hle
    rw [(mem_positions_iff.mp hp).2, (mem_positions_iff.mp hp').2]
    exact Position.alone_le hle cs
  · have hof : Location.of cs s = ⟨.alone cs s.start, .alone cs s.stop⟩ := by
      rw [Location.of_eq, Position.behind_charsBefore, Position.behind_charsBefore]
    refine ⟨hof, fun hle => ?_⟩
    rw [hof]
    exact Position.alone_le hle cs

/-- Two lines with characters of several bytes. Of the offsets some are inside of such a character,
one is past the end, one is repeated, and none is in order. -/
theorem offsets_placed_alone_inside :
    (∀ o p, (o, p) ∈ positions ['é', '\n', '😀', 'x'] [5, 99, 1, 5, 7] ↔
      (o, p) ∈ [(1, ⟨1, 1⟩), (5, ⟨2, 1⟩), (7, ⟨2, 2⟩), (99, (⟨2, 3⟩ : Position))]) ∧
    (Location.of ['é', '\n', '😀', 'x'] ⟨1, 5⟩).start ≤
      (Location.of ['é', '\n', '😀', 'x'] ⟨1, 5⟩).stop := by
  obtain ⟨-, hplaced, -, -, hspan⟩ :=
    offsets_placed_alone ['é', '\n', '😀', 'x'] [5, 99, 1, 5, 7]
  refine ⟨fun o p => ?_, (hspan ⟨1, 5⟩).2 (by decide)⟩
  have h1 : Position.alone ['é', '\n', '😀', 'x'] 1 = ⟨1, 1⟩ := by decide
  have h5 : Position.alone ['é', '\n', '😀', 'x'] 5 = ⟨2, 1⟩ := by decide
  have h7 : Position.alone ['é', '\n', '😀', 'x'] 7 = ⟨2, 2⟩ := by decide
  have h99 : Position.alone ['é', '\n', '😀', 'x'] 99 = ⟨2, 3⟩ := by decide
  rw [hplaced]
  simp only [List.mem_cons, List.not_mem_nil, or_false, Prod.mk.injEq]
  constructor
  · rintro ⟨rfl | rfl | rfl | rfl | rfl, rfl⟩
    · exact .inr (.inl ⟨rfl, h5⟩)
    · exact .inr (.inr (.inr ⟨rfl, h99⟩))
    · exact .inl ⟨rfl, h1⟩
    · exact .inr (.inl ⟨rfl, h5⟩)
    · exact .inr (.inr (.inl ⟨rfl, h7⟩))
  · rintro (⟨rfl, rfl⟩ | ⟨rfl, rfl⟩ | ⟨rfl, rfl⟩ | ⟨rfl, rfl⟩)
    · exact ⟨.inr (.inr (.inl rfl)), h1.symm⟩
    · exact ⟨.inl rfl, h5.symm⟩
    · exact ⟨.inr (.inr (.inr (.inr rfl))), h7.symm⟩
    · exact ⟨.inr (.inl rfl), h99.symm⟩

end Fexpr.Text
