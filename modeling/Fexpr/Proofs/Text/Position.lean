import Fexpr.Proofs.Text.Boundary
import Fexpr.Text.Position
import Mathlib.Data.List.Induction
import Mathlib.Data.List.TakeWhile

/-!
# Lines and columns of offsets

The sweep over a text answers each offset as if it had been asked for alone (`lookup_positions`):
the position is the one behind the characters that end at or before the offset. Its line counts the
line feeds among them, and its column the characters since the last one (`Position.behind`).
-/

namespace Fexpr.Text

/-- The characters of a text that end at or before the offset `n`. -/
def charsBefore (n : Nat) : List Char → List Char
  | [] => []
  | c :: cs => if c.utf8Size ≤ n then c :: charsBefore (n - c.utf8Size) cs else []

/-- Before a boundary there is all that comes before it. -/
theorem charsBefore_append (pre post : List Char) :
    charsBefore (byteSize pre) (pre ++ post) = pre := by
  induction pre with
  | nil =>
    cases post with
    | nil => rfl
    | cons c post =>
      have hpos := Char.utf8Size_pos c
      rw [List.nil_append, charsBefore, byteSize_nil, if_neg (by omega)]
  | cons c pre ih =>
    rw [List.cons_append, charsBefore, byteSize_cons, if_pos (Nat.le_add_right _ _),
      Nat.add_sub_cancel_left, ih]

namespace Position

/-- The position behind a text, whose first character is at the first one. -/
def behind (cs : List Char) : Position :=
  ⟨cs.count '\n' + 1, (cs.reverse.takeWhile (· != '\n')).length + 1⟩

theorem foldl_after (cs : List Char) : cs.foldl after first = behind cs := by
  induction cs using List.reverseRecOn with
  | nil => rfl
  | append_singleton cs c ih =>
    rw [List.foldl_append, List.foldl_cons, List.foldl_nil, ih, after, behind, behind,
      List.reverse_concat, List.count_append]
    by_cases hc : c = '\n'
    · subst hc
      rw [if_pos rfl, List.takeWhile_cons_of_neg (by decide)]
      rfl
    · rw [if_neg hc, List.takeWhile_cons_of_pos (by simpa using hc),
        List.count_singleton, if_neg (by simpa using hc)]
      rfl

theorem lookup_map_same {offsets : List Nat} {o : Nat} (h : o ∈ offsets) (p : Position) :
    (offsets.map (·, p)).lookup o = some p := by
  induction offsets with
  | nil => cases h
  | cons a offsets ih =>
    rw [List.map_cons, List.lookup_cons]
    by_cases ha : o = a
    · rw [beq_iff_eq.mpr ha]
    · rw [beq_eq_false_iff_ne.mpr ha]
      exact ih ((List.mem_cons.mp h).resolve_left ha)

theorem lookup_map_other {offsets : List Nat} {o : Nat} (h : o ∉ offsets) (p : Position) :
    (offsets.map (·, p)).lookup o = none := by
  rw [List.lookup_eq_none_iff]
  intro answer hanswer
  obtain ⟨a, ha, rfl⟩ := List.mem_map.mp hanswer
  exact bne_iff_ne.mpr fun heq => h (heq ▸ ha)

/-- In an ascending list the members below a bound come first. -/
theorem mem_takeWhile_iff {offsets : List Nat} (hsorted : offsets.Pairwise (· ≤ ·)) {o n : Nat}
    (ho : o ∈ offsets) : o ∈ offsets.takeWhile (· < n) ↔ o < n := by
  constructor
  · intro h
    have hlt := List.mem_takeWhile_imp h
    exact of_decide_eq_true hlt
  · intro hlt
    induction offsets with
    | nil => cases ho
    | cons a offsets ih =>
      obtain ⟨ha, hsorted⟩ := List.pairwise_cons.mp hsorted
      have hle : a ≤ o := by
        rcases List.mem_cons.mp ho with rfl | ho
        · exact Nat.le_refl _
        · exact ha o ho
      rw [List.takeWhile_cons, if_pos (decide_eq_true (by omega))]
      rcases List.mem_cons.mp ho with rfl | ho
      · exact List.mem_cons_self
      · exact List.mem_cons_of_mem a (ih hsorted ho)

/-- Each of the ascending offsets is answered by the position behind the characters before it. -/
theorem lookup_sweep {cs : List Char} {offset : Nat} {p : Position} {pending : List Nat}
    (hsorted : pending.Pairwise (· ≤ ·)) {o : Nat} (ho : o ∈ pending) (hle : offset ≤ o) :
    (sweep offset p cs pending).lookup o = some ((charsBefore (o - offset) cs).foldl after p) := by
  induction cs generalizing offset p pending with
  | nil =>
    rw [sweep, charsBefore, List.foldl_nil]
    exact lookup_map_same ho p
  | cons c cs ih =>
    have hpos := Char.utf8Size_pos c
    -- What is behind the character is left to the rest of the sweep.
    have hlater : ∀ {later : List Nat}, later.Pairwise (· ≤ ·) → o ∈ later →
        offset + c.utf8Size ≤ o →
        (sweep (offset + c.utf8Size) (p.after c) cs later).lookup o =
          some ((charsBefore (o - offset) (c :: cs)).foldl after p) := by
      intro later hsorted ho hle
      rw [ih hsorted ho hle, charsBefore, if_pos (by omega), List.foldl_cons, Nat.sub_add_eq]
    cases pending with
    | nil => cases ho
    | cons a pending =>
      rw [sweep]
      by_cases hlt : a < offset + c.utf8Size
      · rw [if_pos hlt, List.lookup_append]
        by_cases hnow : o < offset + c.utf8Size
        · rw [lookup_map_same ((mem_takeWhile_iff hsorted ho).mpr hnow), Option.some_or,
            charsBefore, if_neg (by omega), List.foldl_nil]
        · have htaken := mt (mem_takeWhile_iff hsorted ho).mp hnow
          rw [lookup_map_other htaken, Option.none_or]
          refine hlater (hsorted.sublist (List.dropWhile_sublist _)) ?_ (by omega)
          have hparts : o ∈ (a :: pending).takeWhile (· < offset + c.utf8Size) ++
              (a :: pending).dropWhile (· < offset + c.utf8Size) := by
            rw [List.takeWhile_append_dropWhile]
            exact ho
          exact (List.mem_append.mp hparts).resolve_left htaken
      · rw [if_neg hlt]
        refine hlater hsorted ho ?_
        rcases List.mem_cons.mp ho with rfl | ho
        · omega
        · have hao := (List.pairwise_cons.mp hsorted).1 o ho
          omega

end Position

theorem eraseDups_sublist (l : List Nat) : l.eraseDups.Sublist l := by
  -- What is left of the tail is no longer than the tail.
  induction hn : l.length using Nat.strongRecOn generalizing l with
  | ind n ih =>
    cases l with
    | nil => exact List.Sublist.refl _
    | cons a l =>
      have hfilter : (l.filter fun b => !b == a).Sublist l := List.filter_sublist
      have hlength := hfilter.length_le
      rw [List.length_cons] at hn
      rw [List.eraseDups_cons]
      exact ((ih _ (by omega) _ rfl).trans hfilter).cons_cons a

/-- Each of the offsets is answered by the position behind the characters before it, whatever else
is asked for. -/
theorem lookup_positions {cs : List Char} {offsets : List Nat} {o : Nat} (h : o ∈ offsets) :
    (positions cs offsets).lookup o = some (.behind (charsBefore o cs)) := by
  have hsorted : (offsets.mergeSort (fun a b => decide (a ≤ b))).eraseDups.Pairwise (· ≤ ·) := by
    refine List.Pairwise.sublist (eraseDups_sublist _) ?_
    refine (List.pairwise_mergeSort ?_ ?_ offsets).imp of_decide_eq_true
    · intro a b c hab hbc
      exact decide_eq_true (Nat.le_trans (of_decide_eq_true hab) (of_decide_eq_true hbc))
    · intro a b
      rcases Nat.le_total a b with hab | hab
      · rw [decide_eq_true hab, Bool.true_or]
      · rw [decide_eq_true hab, Bool.or_true]
  have hmem : o ∈ (offsets.mergeSort (fun a b => decide (a ≤ b))).eraseDups := by
    rw [List.mem_eraseDups, List.mem_mergeSort]
    exact h
  rw [positions, Position.lookup_sweep hsorted hmem (Nat.zero_le o), Nat.sub_zero,
    Position.foldl_after]

theorem Location.of_eq (cs : List Char) (s : Span) :
    Location.of cs s = ⟨.behind (charsBefore s.start cs), .behind (charsBefore s.stop cs)⟩ := by
  have hstart : s.start ∈ [s.start, s.stop] := List.mem_cons_self
  have hstop : s.stop ∈ [s.start, s.stop] := List.mem_cons_of_mem _ List.mem_cons_self
  rw [Location.of]
  simp only [lookup_positions hstart, lookup_positions hstop, Option.getD_some]

/-- A span that can be cut out is located by what comes before its two ends. -/
theorem Location.of_slice {pre mid post : List Char} {s : Span} (hstart : s.start = byteSize pre)
    (hstop : s.stop = byteSize pre + byteSize mid) :
    Location.of (pre ++ (mid ++ post)) s = ⟨.behind pre, .behind (pre ++ mid)⟩ := by
  rw [Location.of_eq, hstart, charsBefore_append, hstop, ← byteSize_append, ← List.append_assoc,
    charsBefore_append]

end Fexpr.Text
