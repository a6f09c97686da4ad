import Fexpr.Text.Blank

/-!
# Offsets between characters

An offset is a boundary of a text if it falls between two characters or at one of the ends. A span
can be cut out of a text exactly if both its ends are boundaries and in order (`slice?_isSome_iff`),
and trimming such a span gives one again (`slice?_trimmed_isSome`).
-/

namespace Fexpr.Text

/-- `n` is the offset of a place between characters of `cs`. -/
def IsBoundary (cs : List Char) (n : Nat) : Prop := ∃ pre post, cs = pre ++ post ∧ n = byteSize pre

theorem byteSize_pos {cs : List Char} (h : cs ≠ []) : 0 < byteSize cs := by
  cases cs with
  | nil => exact absurd rfl h
  | cons c cs =>
    have hpos := Char.utf8Size_pos c
    rw [byteSize_cons]
    omega

@[simp] theorem byteSize_reverse (cs : List Char) : byteSize cs.reverse = byteSize cs := by
  induction cs with
  | nil => rfl
  | cons c cs ih =>
    rw [List.reverse_cons, byteSize_append, ih, byteSize_cons, byteSize_cons, byteSize_nil]
    omega

/-! ## Cutting at boundaries -/

/-- Dropping and taking bytes go on after a character by what is left of their number. -/
theorem exists_byteSize_cons (c : Char) (cs : List Char) :
    ∃ k, byteSize (c :: cs) = k + 1 ∧ c.utf8Size ≤ k + 1 ∧
      k + 1 - c.utf8Size = byteSize cs := by
  have hpos := byteSize_pos (List.cons_ne_nil c cs)
  have hsize := byteSize_cons c cs
  exact ⟨byteSize (c :: cs) - 1, by omega, by omega, by omega⟩

theorem dropBytes?_append (pre post : List Char) :
    dropBytes? (byteSize pre) (pre ++ post) = some post := by
  induction pre with
  | nil => rw [byteSize_nil, dropBytes?, List.nil_append]
  | cons c pre ih =>
    obtain ⟨k, hk, hle, hrest⟩ := exists_byteSize_cons c pre
    rw [hk, List.cons_append, dropBytes?, if_pos hle, hrest, ih]

theorem exists_of_dropBytes? {n : Nat} {cs post : List Char} (h : dropBytes? n cs = some post) :
    ∃ pre, cs = pre ++ post ∧ n = byteSize pre := by
  fun_induction dropBytes? n cs with
  | case1 cs =>
    cases h
    exact ⟨[], rfl, rfl⟩
  | case2 => cases h
  | case3 n c cs hle ih =>
    obtain ⟨pre, rfl, hn⟩ := ih h
    exact ⟨c :: pre, rfl, by rw [byteSize_cons]; omega⟩
  | case4 => cases h

theorem takeBytes?_append (pre post : List Char) :
    takeBytes? (byteSize pre) (pre ++ post) = some pre := by
  induction pre with
  | nil => rw [byteSize_nil, takeBytes?]
  | cons c pre ih =>
    obtain ⟨k, hk, hle, hrest⟩ := exists_byteSize_cons c pre
    rw [hk, List.cons_append, takeBytes?, if_pos hle, hrest, ih, Option.map_some]

theorem exists_of_takeBytes? {n : Nat} {cs pre : List Char} (h : takeBytes? n cs = some pre) :
    n = byteSize pre ∧ ∃ post, cs = pre ++ post := by
  fun_induction takeBytes? n cs generalizing pre with
  | case1 cs =>
    cases h
    exact ⟨rfl, cs, rfl⟩
  | case2 => cases h
  | case3 n c cs hle ih =>
    obtain ⟨taken, htaken, rfl⟩ := Option.map_eq_some_iff.mp h
    obtain ⟨hn, post, rfl⟩ := ih htaken
    exact ⟨by rw [byteSize_cons]; omega, post, rfl⟩
  | case4 => cases h

/-- What a span covers is the piece of the text between its two ends. -/
theorem slice?_eq_some_iff {cs mid : List Char} {s : Span} :
    slice? cs s = some mid ↔
      ∃ pre post, cs = pre ++ (mid ++ post) ∧ s.start = byteSize pre ∧
        s.stop = byteSize pre + byteSize mid := by
  constructor
  · intro h
    unfold slice? at h
    split at h
    · obtain ⟨rest, hdrop, htake⟩ := Option.bind_eq_some_iff.mp h
      obtain ⟨pre, rfl, hpre⟩ := exists_of_dropBytes? hdrop
      obtain ⟨hmid, post, rfl⟩ := exists_of_takeBytes? htake
      unfold Span.size at hmid
      exact ⟨pre, post, rfl, hpre, by omega⟩
    · cases h
  · rintro ⟨pre, post, rfl, hstart, hstop⟩
    have hsize : s.size = byteSize mid := by
      unfold Span.size
      omega
    rw [slice?, if_pos (by omega), hstart, dropBytes?_append, Option.bind_some, hsize,
      takeBytes?_append]

/-- Of two first parts of a text the one with fewer bytes is a first part of the other. -/
theorem exists_append_of_byteSize_le {as bs as' bs' : List Char} (h : as ++ bs = as' ++ bs')
    (hle : byteSize as ≤ byteSize as') : ∃ mid, as' = as ++ mid ∧ bs = mid ++ bs' := by
  rcases List.append_eq_append_iff.mp h with ⟨mid, has, hbs⟩ | ⟨mid, has, hbs⟩
  · exact ⟨mid, has, hbs⟩
  · -- Then the parts are equal, since what one has more is empty.
    have hmid : mid = [] := by
      cases mid with
      | nil => rfl
      | cons c mid =>
        have hpos := byteSize_pos (List.cons_ne_nil c mid)
        rw [has, byteSize_append] at hle
        omega
    subst hmid
    rw [List.append_nil] at has
    rw [List.nil_append] at hbs
    exact ⟨[], by rw [has, List.append_nil], by rw [hbs, List.nil_append]⟩

/-- A span can be cut out exactly if its ends are boundaries in order. -/
theorem slice?_isSome_iff {cs : List Char} {s : Span} :
    (slice? cs s).isSome = true ↔
      s.start ≤ s.stop ∧ IsBoundary cs s.start ∧ IsBoundary cs s.stop := by
  rw [Option.isSome_iff_exists]
  constructor
  · rintro ⟨mid, h⟩
    obtain ⟨pre, post, rfl, hstart, hstop⟩ := slice?_eq_some_iff.mp h
    refine ⟨by omega, ⟨pre, mid ++ post, rfl, hstart⟩, ⟨pre ++ mid, post, ?_, ?_⟩⟩
    · rw [List.append_assoc]
    · rw [hstop, byteSize_append]
  · rintro ⟨hle, ⟨as, bs, hcs, hstart⟩, ⟨as', bs', hcs', hstop⟩⟩
    obtain ⟨mid, rfl, rfl⟩ :=
      exists_append_of_byteSize_le (hcs.symm.trans hcs') (by omega)
    refine ⟨mid, slice?_eq_some_iff.mpr ⟨as, bs', hcs, hstart, ?_⟩⟩
    rw [hstop, byteSize_append]

/-! ## Trimming -/

/-- The blanks at the two ends of a text, unless they are all of it, leave boundaries in order. -/
theorem slice?_trimmed_isSome {cs : List Char} {s : Span} (h : (slice? cs s).isSome = true) :
    (slice? cs (s.trimmed cs)).isSome = true := by
  obtain ⟨text, htext⟩ := Option.isSome_iff_exists.mp h
  obtain ⟨pre, post, hcs, hstart, hstop⟩ := slice?_eq_some_iff.mp htext
  have hslice : slice cs s = text := by rw [slice, htext, Option.getD_some]
  have hleft : text = text.takeWhile isBlank ++ text.dropWhile isBlank :=
    List.takeWhile_append_dropWhile.symm
  have hright : text =
      (text.reverse.dropWhile isBlank).reverse ++ (text.reverse.takeWhile isBlank).reverse := by
    rw [← List.reverse_append, List.takeWhile_append_dropWhile, List.reverse_reverse]
  have hsize : byteSize text = byteSize (text.reverse.dropWhile isBlank) +
      byteSize (text.reverse.takeWhile isBlank) := by
    have hcongr := congrArg byteSize hright
    rwa [byteSize_append, byteSize_reverse, byteSize_reverse] at hcongr
  simp only [Span.trimmed, hslice]
  split
  · refine slice?_isSome_iff.mpr ⟨Nat.le_refl _, ?_, ?_⟩ <;>
      exact ⟨pre, text ++ post, hcs, hstart⟩
  · refine slice?_isSome_iff.mpr ⟨?_, ?_, ?_⟩
    · simp only
      omega
    · refine ⟨pre ++ text.takeWhile isBlank, text.dropWhile isBlank ++ post, ?_, ?_⟩
      · rw [List.append_assoc, ← List.append_assoc (text.takeWhile isBlank), ← hleft, hcs]
      · rw [byteSize_append, ← hstart]
    · refine ⟨pre ++ (text.reverse.dropWhile isBlank).reverse,
        (text.reverse.takeWhile isBlank).reverse ++ post, ?_, ?_⟩
      · rw [List.append_assoc, ← List.append_assoc (text.reverse.dropWhile isBlank).reverse,
          ← hright, hcs]
      · rw [byteSize_append, byteSize_reverse]
        simp only
        omega

/-- The text is not empty and has no blank at its ends. -/
structure Tight (cs : List Char) : Prop where
  ne_nil : cs ≠ []
  head : ∀ c ∈ cs.head?, isBlank c = false
  last : ∀ c ∈ cs.getLast?, isBlank c = false

theorem Tight.of_forall {cs : List Char} (hne : cs ≠ []) (h : ∀ c ∈ cs, isBlank c = false) :
    Tight cs where
  ne_nil := hne
  head := fun c hc => h c (List.mem_of_mem_head? hc)
  last := fun c hc => h c (List.mem_of_mem_getLast? hc)

/-- There is nothing to trim from a tight text. -/
theorem Span.trimmed_eq_self {cs text : List Char} {s : Span} (h : slice? cs s = some text)
    (ht : Tight text) : s.trimmed cs = s := by
  have hslice : slice cs s = text := by rw [slice, h, Option.getD_some]
  have hhead : text.takeWhile isBlank = [] := by
    cases text with
    | nil => rfl
    | cons c text => exact List.takeWhile_cons_of_neg (by simp [ht.head c rfl])
  have hlast : text.reverse.takeWhile isBlank = [] := by
    cases hrev : text.reverse with
    | nil => rfl
    | cons c rest =>
      have hc : c ∈ text.getLast? := by
        rw [← List.head?_reverse, hrev]
        rfl
      exact List.takeWhile_cons_of_neg (by simp [ht.last c hc])
  have hpos := byteSize_pos ht.ne_nil
  simp only [Span.trimmed, hslice, hhead, hlast, byteSize_nil, Nat.add_zero, Nat.sub_zero]
  rw [if_neg (by omega)]

end Fexpr.Text
