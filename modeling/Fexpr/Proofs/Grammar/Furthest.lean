import Fexpr.Program
import Fexpr.Proofs.Grammar.Tries
import Mathlib.Data.List.Induction

/-!
# The furthest match

Running a grammar ends as trying it does, and the record of the furthest match takes in what is
completed on the way and is not empty (`records_run`). So the record is in the end the first of the
completed rules that reach furthest. Since these cover whole characters of the text, a rejected text
is reported with a piece of it (`rejected_at_furthest`).
-/

namespace Fexpr

open Text (Span slice?)

namespace Grammar

/-- The matches that are not empty. -/
def moved (ds : List Token) : List Token := ds.filter (!·.span.isEmpty)

theorem mem_moved {ds : List Token} {d : Token} :
    d ∈ moved ds ↔ d ∈ ds ∧ d.span.isEmpty = false := by
  rw [moved, List.mem_filter, Bool.not_eq_true']

theorem moved_append (ds es : List Token) : moved (ds ++ es) = moved ds ++ moved es :=
  List.filter_append ds es

namespace Peg

/-! ## Running is trying -/

/-- The further of the matches, one after the other. -/
def furthestOf (old : Option Token) (ds : List Token) : Option Token :=
  (moved ds).foldl further old

theorem furthestOf_append (old : Option Token) (ds es : List Token) :
    furthestOf old (ds ++ es) = furthestOf (furthestOf old ds) es := by
  rw [furthestOf, moved_append, List.foldl_append]
  rfl

theorem furthestOf_singleton (old : Option Token) (d : Token) :
    furthestOf old [d] = if d.span.isEmpty then old else further old d := by
  rw [furthestOf, moved]
  cases hd : d.span.isEmpty with
  | true => simp [hd]
  | false => simp [hd]

/-- The result of running `p` from `s` is how trying it ends, and the furthest match that was seen
before has taken in what is completed. -/
def Records (p : Peg) (s : State) : Result → Prop
  | .ok t => ∃ ds, Tries p s.cursor (some t.cursor) ds ∧ t.furthest = furthestOf s.furthest ds
  | .error g => ∃ ds, Tries p s.cursor none ds ∧ g = furthestOf s.furthest ds

section Records

variable {p q : Peg} {s t : State} {ds : List Token}

/-- The two ways in which a run ends. -/
theorem Records.cases {r : Result} (h : Records p s r) :
    (∃ ds, r = .error (furthestOf s.furthest ds) ∧ Tries p s.cursor none ds) ∨
      ∃ t ds, r = .ok t ∧ Tries p s.cursor (some t.cursor) ds ∧
        t.furthest = furthestOf s.furthest ds := by
  cases r with
  | error g =>
    obtain ⟨ds, hds, rfl⟩ := h
    exact .inl ⟨ds, rfl, hds⟩
  | ok t =>
    obtain ⟨ds, hds, ht⟩ := h
    exact .inr ⟨t, ds, rfl, hds, ht⟩

theorem Records.seq {r : Result} (hp : Tries p s.cursor (some t.cursor) ds)
    (hfurthest : t.furthest = furthestOf s.furthest ds) (hq : Records q t r) :
    Records (.seq p q) s r := by
  cases r with
  | error g =>
    obtain ⟨es, hes, rfl⟩ := hq
    exact ⟨ds ++ es, .seq hp hes, by rw [furthestOf_append, hfurthest]⟩
  | ok u =>
    obtain ⟨es, hes, hu⟩ := hq
    exact ⟨ds ++ es, .seq hp hes, by rw [furthestOf_append, hu, hfurthest]⟩

/-- What was seen in an alternative that is given up is kept for the next one. -/
theorem Records.altElse {r : Result} (hp : Tries p s.cursor none ds)
    (hq : Records q { s with furthest := furthestOf s.furthest ds } r) :
    Records (.alt p q) s r := by
  cases r with
  | error g =>
    obtain ⟨es, hes, rfl⟩ := hq
    exact ⟨ds ++ es, .altElse hp hes, by rw [furthestOf_append]⟩
  | ok u =>
    obtain ⟨es, hes, hu⟩ := hq
    exact ⟨ds ++ es, .altElse hp hes, by rw [furthestOf_append, hu]⟩

/-- Repeating. A round that moves takes a character at least, so the rounds that the text at hand
allows are enough. -/
theorem records_again (hp : ∀ s, Records p s (p.run s)) :
    ∀ (fuel : List Char) (s : State), s.rest.length ≤ fuel.length →
      Records (.star p) s (.ok (State.again p.run fuel s)) := by
  intro fuel
  induction fuel with
  | nil =>
    intro s hs
    rw [State.again]
    rcases (hp s).cases with ⟨ds, hrun, hds⟩ | ⟨t, ds, hrun, hds, ht⟩
    · rw [hrun]
      exact ⟨ds, .starEnd hds, rfl⟩
    · rw [hrun]
      -- There is no text left to move over.
      obtain ⟨text, htext⟩ := hds.across _ rfl
      have hnil : text = [] := by
        have hrest : s.rest = text ++ t.rest := htext.1
        rw [List.eq_nil_of_length_eq_zero (Nat.le_zero.mp hs)] at hrest
        exact (List.append_eq_nil_iff.mp hrest.symm).1
      subst hnil
      exact ⟨ds, .starStay hds htext.2, ht⟩
  | cons c fuel ih =>
    intro s hs
    rw [State.again]
    rcases (hp s).cases with ⟨ds, hrun, hds⟩ | ⟨t, ds, hrun, hds, ht⟩
    · rw [hrun]
      exact ⟨ds, .starEnd hds, rfl⟩
    · rw [hrun]
      by_cases hoffset : t.offset = s.offset
      · simp only [hoffset, if_true]
        exact ⟨ds, .starStay hds hoffset, ht⟩
      · simp only [hoffset, if_false]
        obtain ⟨text, htext⟩ := hds.across _ rfl
        have hne : text ≠ [] := by
          rintro rfl
          exact hoffset htext.2
        have hlt : t.rest.length < s.rest.length := htext.length_lt hne
        obtain ⟨es, hes, hagain⟩ := ih t (by rw [List.length_cons] at hs; omega)
        exact ⟨ds ++ es, .starMore hds hoffset hes, by rw [furthestOf_append, hagain, ht]⟩

theorem Records.complete {r : Rule} (hp : Tries p s.cursor (some t.cursor) ds)
    (hfurthest : t.furthest = furthestOf s.furthest ds) :
    Records (.rule r p) s (.ok (t.complete r s.offset)) := by
  unfold State.complete
  split
  next hoffset =>
    refine ⟨_, .rule hp, ?_⟩
    rw [furthestOf_append, ← hfurthest, furthestOf_singleton]
    exact (if_pos (beq_iff_eq.mpr hoffset.symm)).symm
  next hoffset =>
    refine ⟨_, .rule hp, ?_⟩
    rw [furthestOf_append, ← hfurthest, furthestOf_singleton]
    exact (if_neg (mt beq_iff_eq.mp (Ne.symm hoffset))).symm

/-- Running is trying. -/
theorem records_run (p : Peg) : ∀ s, Records p s (p.run s) := by
  induction p with
  | empty => exact fun s => ⟨[], .empty, rfl⟩
  | fail => exact fun s => ⟨[], .fail, rfl⟩
  | char f =>
    rintro ⟨rest, offset, log, furthest⟩
    cases rest with
    | nil => exact ⟨[], .charEnd, rfl⟩
    | cons c cs =>
      cases hc : f c with
      | true =>
        simp only [run, State.next, hc, if_true]
        exact ⟨[], .char hc, rfl⟩
      | false =>
        simp only [run, State.next, hc, Bool.false_eq_true, if_false]
        exact ⟨[], .charOther hc, rfl⟩
  | seq p q ihp ihq =>
    intro s
    rw [run]
    rcases (ihp s).cases with ⟨ds, hrun, hds⟩ | ⟨t, ds, hrun, hds, ht⟩
    · rw [hrun]
      exact ⟨ds, .seqNone hds, rfl⟩
    · rw [hrun]
      exact .seq hds ht (ihq t)
  | alt p q ihp ihq =>
    intro s
    rw [run]
    rcases (ihp s).cases with ⟨ds, hrun, hds⟩ | ⟨t, ds, hrun, hds, ht⟩
    · rw [hrun]
      exact .altElse hds (ihq _)
    · rw [hrun]
      exact ⟨ds, .alt hds, ht⟩
  | star p ihp =>
    intro s
    rw [run]
    exact records_again ihp s.rest s (Nat.le_refl _)
  | not p ihp =>
    -- Lookahead moves nowhere, but what it completes counts for the furthest match.
    intro s
    rw [run]
    rcases (ihp s).cases with ⟨ds, hrun, hds⟩ | ⟨t, ds, hrun, hds, ht⟩
    · rw [hrun]
      exact ⟨ds, .not hds, rfl⟩
    · rw [hrun]
      exact ⟨ds, .notAhead hds, ht⟩
  | rule r p ihp =>
    intro s
    rw [run]
    rcases (ihp s).cases with ⟨ds, hrun, hds⟩ | ⟨t, ds, hrun, hds, ht⟩
    · rw [hrun]
      exact ⟨ds, .ruleNone hds, rfl⟩
    · rw [hrun]
      exact .complete hds ht

end Records

end Peg

/-! ## The first of those that reach furthest -/

/-- The token is the first of those that reach furthest. -/
def IsFurthest (ds : List Token) (t : Token) : Prop :=
  ∃ before after, ds = before ++ t :: after ∧ (∀ d ∈ before, d.span.stop < t.span.stop) ∧
    ∀ d ∈ after, d.span.stop ≤ t.span.stop

namespace IsFurthest

variable {ds : List Token} {t d : Token}

theorem mem (h : IsFurthest ds t) : t ∈ ds := by
  obtain ⟨before, after, rfl, -, -⟩ := h
  exact List.mem_append_right _ List.mem_cons_self

theorem stop_le (h : IsFurthest ds t) (hd : d ∈ ds) : d.span.stop ≤ t.span.stop := by
  obtain ⟨before, after, rfl, hbefore, hafter⟩ := h
  rcases List.mem_append.mp hd with hd | hd
  · exact Nat.le_of_lt (hbefore d hd)
  · rcases List.mem_cons.mp hd with rfl | hd
    · exact Nat.le_refl _
    · exact hafter d hd

/-- One more token that reaches no further. -/
theorem concat (h : IsFurthest ds t) (hd : d.span.stop ≤ t.span.stop) :
    IsFurthest (ds ++ [d]) t := by
  obtain ⟨before, after, rfl, hbefore, hafter⟩ := h
  refine ⟨before, after ++ [d], by rw [List.append_assoc, List.cons_append], hbefore, ?_⟩
  intro d' hd'
  rcases List.mem_append.mp hd' with hd' | hd'
  · exact hafter d' hd'
  · exact List.mem_singleton.mp hd' ▸ hd

theorem last (h : ∀ d' ∈ ds, d'.span.stop < d.span.stop) : IsFurthest (ds ++ [d]) d :=
  ⟨ds, [], rfl, h, List.forall_mem_nil _⟩

end IsFurthest

/-- The record of the tokens `ds` is the first of those that reach furthest. -/
theorem foldl_further (ds : List Token) :
    ds = [] ∧ ds.foldl Peg.further none = none ∨
      ∃ t, ds.foldl Peg.further none = some t ∧ IsFurthest ds t := by
  induction ds using List.reverseRecOn with
  | nil => exact .inl ⟨rfl, rfl⟩
  | append_singleton ds d ih =>
    right
    rw [List.foldl_append, List.foldl_cons, List.foldl_nil]
    rcases ih with ⟨rfl, hnone⟩ | ⟨t, hsome, ht⟩
    · rw [hnone]
      exact ⟨d, rfl, .last (List.forall_mem_nil _)⟩
    · rw [hsome, Peg.further]
      split
      next hlt =>
        exact ⟨d, rfl, .last fun d' hd' => Nat.lt_of_le_of_lt (ht.stop_le hd') hlt⟩
      next hle => exact ⟨t, rfl, ht.concat (Nat.le_of_not_lt hle)⟩

/-- The completed rules of a rejected text, and the token that it is rejected with. -/
theorem exists_tries_of_matchScript {cs : List Char} {t : Token} (h : matchScript cs = .error t) :
    ∃ ds, script.Tries ⟨cs, 0⟩ none ds ∧
      (moved ds = [] ∧ t = ⟨.script, ⟨0, 0⟩⟩ ∨ IsFurthest (moved ds) t) := by
  have hrun := Peg.records_run script (.start cs)
  unfold matchScript at h
  split at h
  · cases h
  next g herror =>
    rw [herror] at hrun
    obtain ⟨ds, hds, rfl⟩ := hrun
    refine ⟨ds, hds, ?_⟩
    rw [Peg.State.start, Peg.furthestOf] at h
    rcases foldl_further (moved ds) with ⟨hnil, hnone⟩ | ⟨t', hsome, ht'⟩
    · rw [hnone] at h
      exact .inl ⟨hnil, (Except.error.inj h).symm⟩
    · rw [hsome] at h
      cases h
      exact .inr ht'

/-- Nothing ends beyond the token, whether it is empty or not. -/
theorem stop_le_of_covered {ds : List Token} {t : Token} (hds : Peg.Covered 0 ds)
    (ht : moved ds = [] ∨ IsFurthest (moved ds) t) : ∀ d ∈ ds, d.span.stop ≤ t.span.stop := by
  intro d hd
  rcases hds d hd with hzero | ⟨d', hd', hmoved, hstop⟩
  · exact Nat.le_trans hzero (Nat.zero_le _)
  · have hmem := mem_moved.mpr ⟨hd', hmoved⟩
    rcases ht with hnil | ht
    · rw [hnil] at hmem
      cases hmem
    · exact Nat.le_trans hstop (ht.stop_le hmem)

end Grammar

open Grammar

theorem Program.exists_of_not_compile {source : Source} (h : ∀ p, compile source ≠ .ok p) :
    ∃ t, matchScript source.chars = .error t ∧
      compile source = .error (.rejected t.rule ⟨source, t.span, none⟩) := by
  unfold compile at h ⊢
  dsimp only at h ⊢
  cases hmatch : matchScript source.chars with
  | error t => exact ⟨t, rfl, rfl⟩
  | ok log =>
    rw [hmatch] at h
    exact absurd rfl (h _)

theorem Error.render_rejected (r : Rule) (s : Site) :
    (Error.rejected r s).render = s!"parse error near {r.name} ({s.location.render}): " ++
      Text.quote (Text.slice s.source.chars s.span) := rfl

/-- A text that is not accepted is rejected at the furthest match. There is one list of the rules
that are completed while the grammar is tried at its start, in their order, with those that are
given up again and with those that match the empty text. If all of them are empty, the text is
rejected with the empty match of the script; otherwise with the first of the others that ends
furthest, and this one covers whole characters of the text, at least one. No rule ends further than
that. The report is a syntax error that names the rule and quotes what it covers. -/
theorem rejected_at_furthest {source : Source} (h : ∀ p, Program.compile source ≠ .ok p) :
    ∃ ds t snippet,
      (∀ e es, script.Tries ⟨source.chars, 0⟩ e es ↔ e = none ∧ es = ds) ∧
      matchScript source.chars = .error t ∧
      (moved ds = [] ∧ t = ⟨.script, ⟨0, 0⟩⟩ ∨
        IsFurthest (moved ds) t ∧ t.span.start < t.span.stop ∧ snippet ≠ []) ∧
      (∀ d ∈ ds, d.span.stop ≤ t.span.stop) ∧
      slice? source.chars t.span = some snippet ∧
      ∃ e, Program.compile source = .error e ∧ e.kind = .syntaxError ∧
        e = .rejected t.rule ⟨source, t.span, none⟩ ∧
        e.render = s!"parse error near {t.rule.name} ({(source.locate t.span).render}): " ++
          Text.quote snippet := by
  obtain ⟨t, hmatch, hcompile⟩ := Program.exists_of_not_compile h
  obtain ⟨ds, hds, ht⟩ := exists_tries_of_matchScript hmatch
  have hunique : ∀ e es, script.Tries ⟨source.chars, 0⟩ e es ↔ e = none ∧ es = ds := by
    intro e es
    constructor
    · exact fun hes => hes.unique hds
    · rintro ⟨rfl, rfl⟩
      exact hds
  have hstop := stop_le_of_covered (anchored_script hds).1 (ht.imp_left And.left)
  obtain ⟨snippet, hslice, hcases⟩ : ∃ snippet, slice? source.chars t.span = some snippet ∧
      (moved ds = [] ∧ t = ⟨.script, ⟨0, 0⟩⟩ ∨
        IsFurthest (moved ds) t ∧ t.span.start < t.span.stop ∧ snippet ≠ []) := by
    rcases ht with ⟨hnil, rfl⟩ | ht
    · exact ⟨[], Text.slice?_eq_some_iff.mpr ⟨[], source.chars, rfl, rfl, rfl⟩, .inl ⟨hnil, rfl⟩⟩
    · obtain ⟨hmem, hmoved⟩ := mem_moved.mp ht.mem
      obtain ⟨snippet, hslice, hnonempty⟩ := hds.slice?_of_mem ⟨[], rfl, rfl⟩ t hmem
      exact ⟨snippet, hslice, .inr ⟨ht, hnonempty hmoved⟩⟩
  refine ⟨ds, t, snippet, hunique, hmatch, hcases, hstop, hslice,
    .rejected t.rule ⟨source, t.span, none⟩, hcompile, rfl, rfl, ?_⟩
  rw [Error.render_rejected, Text.slice, hslice, Option.getD_some, Site.location]

/-- A call with a key that no value follows. -/
def Source.missingValue : Source := ⟨"script", "(f #:k)"⟩

/-- The key is completed in an option that is given up, and nothing else ends as far. -/
theorem rejected_at_furthest_option :
    ∃ ds, script.Tries ⟨Source.missingValue.chars, 0⟩ none ds ∧
      IsFurthest (moved ds) ⟨.identifier, ⟨5, 6⟩⟩ ∧ (∀ d ∈ ds, d.span.stop ≤ 6) ∧
      Program.compile .missingValue =
        .error (.rejected .identifier ⟨.missingValue, ⟨5, 6⟩, none⟩) := by
  have hread : (Program.compile .missingValue).toOption.isSome = false ∧
      matchScript Source.missingValue.chars = .error ⟨.identifier, ⟨5, 6⟩⟩ := by
    decide +kernel
  obtain ⟨ds, t, snippet, htries, hmatch, hfurthest, hstop, -, e, hcompile, -, rfl, -⟩ :=
    rejected_at_furthest fun p hp => by
      rw [hp] at hread
      cases hread.1
  cases hread.2.symm.trans hmatch
  refine ⟨ds, (htries none ds).mpr ⟨rfl, rfl⟩, ?_, hstop, hcompile⟩
  rcases hfurthest with ⟨-, hscript⟩ | ⟨hfurthest, -⟩
  · cases hscript
  · exact hfurthest

end Fexpr
