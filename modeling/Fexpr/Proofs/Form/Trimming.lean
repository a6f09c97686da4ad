import Fexpr.Proofs.Form.Script

/-!
# Trimmed spans

A rule that is not spacing matches tight text, maybe with a gap before it and a gap after it, and
the search for significant text finds the two ends of the tight text (`Derives.framedMatch`). So
there is nothing left to trim, and the spans that names, literals and reports are cut out by are
exact (`trimmed_spans_exact`).

That the gaps are found is due to the grammar: where a gap ends no other one begins, so the gap at
an end of a match is a single piece of spacing, however many rules inside each other end there.
-/

namespace Fexpr

open Text (Span Tight isBlank slice?)
open Grammar

namespace Grammar

/-! ## Frames -/

/-- The text between `a` and `b` is tight, and there are only gaps between it and the ends `i` and
`j` of a match. The search for significant text below a node over the match finds it. -/
structure Frames (i j : Cursor) (ts : List Tree) (a b : Cursor) : Prop where
  lead : Spaced i a
  tight : ∃ text, a.Across text b ∧ Tight text
  trail : b = j ∨ Spaced b j
  start : ∀ r s, (Tree.node r s (Tree.prunes ts)).significantStart i.offset = a.offset
  stop : ∀ r s, (Tree.node r s (Tree.prunes ts)).significantStop j.offset = b.offset

/-- The match covers nothing, or it is framed. -/
def FramedMatch (i j : Cursor) (ts : List Tree) : Prop :=
  i = j ∧ Tree.prunes ts = [] ∨ ∃ a b, Frames i j ts a b

/-- Characters that are neither blank nor start a gap. -/
def isEdge (c : Char) : Bool := !isBlank c && !startsGap c

/-- A clause whose matches are framed: what it reads by itself are edges, and spacing stands only
before or after something that is not empty. -/
inductive Clause.Framed : Clause → Prop
  | empty : Framed .empty
  | char {f : Char → Bool} (hf : ∀ c, f c = true → isEdge c = true) : Framed (.char f)
  | seq {p q : Clause} (hp : Framed p) (hq : Framed q) : Framed (.seq p q)
  | opened {q : Clause} (hq : Framed q) (hnull : q.nullable = false) :
    Framed (.seq (.rule .spacing) q)
  | closed {p : Clause} (hp : Framed p) (hnull : p.nullable = false) :
    Framed (.seq p (.rule .spacing))
  | alt {p q : Clause} (hp : Framed p) (hq : Framed q) : Framed (.alt p q)
  | star {p : Clause} (hp : Framed p) : Framed (.star p)
  | plus {p : Clause} (hp : Framed p) : Framed (.plus p)
  | opt {p : Clause} (hp : Framed p) : Framed (.opt p)
  | not {p : Clause} : Framed (.not p)
  | rule {r : Rule} (hr : r ≠ .spacing) : Framed (.rule r)

/-- The node of a gap stands between the ends of the gap. -/
theorem Spaced.row {i j : Cursor} (h : Spaced i j) :
    Tree.Row i.offset (Tree.prunes [gapNode i j]) j.offset :=
  (h.lexes (fun _ => True) 0).holds_row.2.1

namespace Frames

variable {i j k a b c d : Cursor} {ts us : List Tree}

theorem offset_lt (h : Frames i j ts a b) : a.offset < b.offset := by
  obtain ⟨text, hab, ht⟩ := h.tight
  exact hab.offset_lt ht.ne_nil

theorem le_offset (h : Frames i j ts a b) : b.offset ≤ j.offset := by
  rcases h.trail with rfl | hgap
  · exact Nat.le_refl _
  · exact hgap.offset_le

theorem offset_lt_stop (h : Frames i j ts a b) : i.offset < j.offset := by
  have hlead := h.lead.offset_le
  have hlt := h.offset_lt
  have htrail := h.le_offset
  omega

/-- What is framed is framed in two matches in a row. -/
theorem append (h : Frames i j ts a b) (h' : Frames j k us c d)
    (hrow : Tree.Row i.offset (Tree.prunes ts) j.offset)
    (hrow' : Tree.Row j.offset (Tree.prunes us) k.offset) : Frames i k (ts ++ us) a d := by
  refine ⟨h.lead, ?_, h'.trail, fun r s => ?_, fun r s => ?_⟩
  · obtain ⟨text, hab, ht⟩ := h.tight
    obtain ⟨text', hcd, ht'⟩ := h'.tight
    obtain ⟨gap', hjc, -⟩ := h'.lead
    have hgap : ∃ gap, b.Across gap j := by
      rcases h.trail with rfl | ⟨gap, hbj, -⟩
      · exact ⟨[], .refl b⟩
      · exact ⟨gap, hbj⟩
    obtain ⟨gap, hbj⟩ := hgap
    exact ⟨_, hab.trans ((hbj.trans hjc).trans hcd), ht.enclose ht'⟩
  · rw [Tree.prunes_append, Tree.significantStart_append hrow' h.offset_lt_stop]
    exact h.start r s
  · rw [Tree.prunes_append, Tree.significantStop_append hrow h'.offset_lt_stop]
    exact h'.stop r s

/-- A gap before framed text. -/
theorem opened (hgap : Spaced i j) (h : Frames j k us a b) :
    Frames i k ([gapNode i j] ++ us) a b := by
  -- No second gap begins where the first one ends.
  obtain rfl := h.lead.eq hgap.clear
  refine ⟨hgap, h.tight, h.trail, fun r s => ?_, fun r s => ?_⟩
  · rw [Tree.prunes_append]
    rcases prunes_gapNode_cases i j with ⟨hij, hnone⟩ | hsome
    · rw [hnone, List.nil_append, hij]
      exact h.start r s
    · rw [hsome, List.singleton_append]
      exact Tree.significantStart_spacing r s _ (c := gapNode i j) rfl
  · rw [Tree.prunes_append, Tree.significantStop_append hgap.row h.offset_lt_stop]
    exact h.stop r s

/-- A gap after framed text. -/
theorem closed (h : Frames i j ts a b) (hgap : Spaced j k) :
    Frames i k (ts ++ [gapNode j k]) a b := by
  refine ⟨h.lead, h.tight, ?_, fun r s => ?_, fun r s => ?_⟩
  · rcases h.trail with rfl | hgap'
    · exact .inr hgap
    · obtain rfl := hgap.eq hgap'.clear
      exact .inr hgap'
  · rw [Tree.prunes_append, Tree.significantStart_append hgap.row h.offset_lt_stop]
    exact h.start r s
  · rw [Tree.prunes_append]
    rcases prunes_gapNode_cases j k with ⟨hjk, hnone⟩ | hsome
    · rw [hnone, List.append_nil, ← hjk]
      exact h.stop r s
    · rw [hsome, show k.offset = (gapNode j k).span.stop from rfl,
        Tree.significantStop_spacing r s _ rfl]
      rcases h.trail with rfl | hgap'
      · rfl
      · obtain rfl := hgap.eq hgap'.clear
        rw [gapNode, nodeAt, Tree.prunes_empty rfl] at hsome
        cases hsome

/-- What is framed below a node is framed by the node. -/
theorem node (h : Frames i j ts a b) {r : Rule} (hr : r ≠ .spacing) :
    Frames i j [.node r ⟨i.offset, j.offset⟩ ts] a b := by
  have hprunes := @Tree.prunes_node r _ _ ts (Nat.ne_of_lt h.offset_lt_stop)
  refine ⟨h.lead, h.tight, h.trail, fun r' s => ?_, fun r' s => ?_⟩
  · rw [hprunes]
    exact (Tree.significantStart_first r' s [] (c := .node r _ _) rfl hr).trans (h.start r _)
  · rw [hprunes]
    exact (Tree.significantStop_last r' s [] (c := .node r _ _) rfl hr).trans (h.stop r _)

end Frames

namespace FramedMatch

variable {i j k : Cursor} {ts us : List Tree}

theorem nothing (i : Cursor) : FramedMatch i i [] := .inl ⟨rfl, Tree.prunes_nil⟩

theorem append (h : FramedMatch i j ts) (h' : FramedMatch j k us)
    (hrow : Tree.Row i.offset (Tree.prunes ts) j.offset)
    (hrow' : Tree.Row j.offset (Tree.prunes us) k.offset) : FramedMatch i k (ts ++ us) := by
  rcases h with ⟨rfl, hts⟩ | ⟨a, b, h⟩
  · unfold FramedMatch
    rcases h' with ⟨rfl, hus⟩ | ⟨c, d, h'⟩
    · exact .inl ⟨rfl, by rw [Tree.prunes_append, hts, hus, List.append_nil]⟩
    · refine .inr ⟨c, d, h'.lead, h'.tight, h'.trail, ?_, ?_⟩ <;>
        rw [Tree.prunes_append, hts, List.nil_append]
      · exact h'.start
      · exact h'.stop
  · rcases h' with ⟨rfl, hus⟩ | ⟨c, d, h'⟩
    · refine .inr ⟨a, b, h.lead, h.tight, h.trail, ?_, ?_⟩ <;>
        rw [Tree.prunes_append, hus, List.append_nil]
      · exact h.start
      · exact h.stop
    · exact .inr ⟨a, d, h.append h' hrow hrow'⟩

end FramedMatch

/-! ## The rules are framed -/

theorem Solid.isEdge {f : Char → Bool} (hf : Solid f) : ∀ c, f c = true → isEdge c = true := by
  intro c hc
  have hsolid := hf c hc
  have hgap : startsGap c = false := Bool.eq_false_iff.mpr fun hgap => by
    rw [isSolid_eq_false_of_startsGap hgap] at hsolid
    cases hsolid
  rw [Grammar.isEdge, isBlank_eq_false_of_isSolid hsolid, hgap]
  rfl

namespace Clause.Framed

theorem one {c : Char} (hc : isEdge c = true) : Framed (.one c) :=
  .char fun _ hd => beq_iff_eq.mp hd ▸ hc

theorem oneOf {cs : List Char} (h : cs.all isEdge = true) : Framed (.oneOf cs) :=
  .char fun c hc => List.all_eq_true.mp h c (List.contains_iff_mem.mp hc)

theorem exactly {cs : List Char} (h : cs.all isEdge = true) : Framed (.exactly cs) := by
  induction cs with
  | nil => exact .empty
  | cons c cs ih =>
    rw [List.all_cons, Bool.and_eq_true] at h
    exact .seq (one h.1) (ih h.2)

theorem times {p : Clause} (hp : Framed p) (k : Nat) : Framed (.times k p) := by
  induction k with
  | zero => exact .empty
  | succ k ih => exact .seq hp ih

theorem digitsOf {f g : Char → Bool} (hf : Solid f) (hg : Solid g) : Framed (.digitsOf f g) :=
  .seq (.char hf.isEdge) (.star (.seq (.star (one rfl)) (.char hg.isEdge)))

theorem digits : Framed .digits := digitsOf solid_isDigit solid_isDigit

end Clause.Framed

/-- All rules but spacing and the two kinds of strings stand for framed clauses. -/
theorem framed_of {r : Rule} (hspacing : r ≠ .spacing) (hstring : r ≠ .stringLiteral)
    (hlong : r ≠ .longStringLiteral) : (Clause.of r).Framed := by
  have hatom : (Clause.rule .literal <|> .rule .identifierAttr <|> .rule .identifier).Framed :=
    .alt (.rule (by decide)) (.alt (.rule (by decide)) (.rule (by decide)))
  have hhex : Clause.Framed (.char isHexDigit) := .char solid_isHexDigit.isEdge
  cases r with
  | spacing => exact absurd rfl hspacing
  -- Inside strings any character may be blank: it is their quotes that frame them.
  | stringLiteral => exact absurd rfl hstring
  | longStringLiteral => exact absurd rfl hlong
  | script => exact .seq (.opened (.rule (by decide)) rfl) (.rule (by decide))
  | value => exact .closed (.alt (.rule (by decide)) hatom) rfl
  | expression =>
    exact .seq (.seq (.seq (.rule (by decide)) (.rule (by decide)))
      (.star (.alt (.rule (by decide)) (.rule (by decide))))) (.rule (by decide))
  | operator => exact .rule (by decide)
  | optionList => exact .plus (.rule (by decide))
  | option =>
    exact .closed (.seq (.seq (.seq (.one rfl) (.one rfl)) (.rule (by decide))) hatom) rfl
  | identifierAttr => exact .seq (.rule (by decide)) (.plus (.rule (by decide)))
  | attr => exact .seq (.one rfl) (.rule (by decide))
  | identifier =>
    exact .closed (.seq (.char solid_isNameStart.isEdge)
      (.star (.alt (.char solid_isWordChar.isEdge) (.one rfl)))) rfl
  | literal =>
    exact .alt (.rule (by decide)) (.alt (.rule (by decide)) (.alt (.rule (by decide))
      (.alt (.rule (by decide)) (.alt (.rule (by decide)) (.rule (by decide))))))
  | lpar | rpar => exact .closed (.opened (.one rfl) rfl) rfl
  | eot => exact .not
  | nilLiteral => exact .seq (.exactly rfl) .not
  | boolLiteral => exact .seq (.alt (.exactly rfl) (.exactly rfl)) .not
  | floatLiteral =>
    have hexponent : Clause.Framed (.opt (.rule .exponent)) := .opt (.rule (by decide))
    exact .seq (.opt (.oneOf rfl))
      (.alt (.seq (.seq (.seq .digits (.one rfl)) (.opt .digits)) hexponent)
        (.alt (.seq .digits (.rule (by decide))) (.seq (.seq (.one rfl) .digits) hexponent)))
  | exponent => exact .seq (.seq (.oneOf rfl) (.opt (.oneOf rfl))) .digits
  | integerLiteral =>
    exact .seq (.seq (.opt (.oneOf rfl)) (.alt (.seq (.seq (.one rfl) (.oneOf rfl))
      (.rule (by decide))) (.rule (by decide)))) (.opt (.oneOf rfl))
  | hexNumeral => exact .alt (.digitsOf solid_isHexDigit solid_isHexDigit) (.one rfl)
  | decimalNumeral =>
    exact .alt (.digitsOf (fun c hc => solid_isDigit c (isDigit_of_nonzero hc)) solid_isDigit)
      (.one rfl)
  | hexByte => exact .seq (.seq (.one rfl) (.one rfl)) (.times hhex 2)
  | uChar =>
    exact .alt (.seq (.seq (.one rfl) (.one rfl)) (.times hhex 4))
      (.seq (.seq (.one rfl) (.one rfl)) (.times hhex 8))
  | escape => exact .seq (.one rfl) (.oneOf rfl)

section Frames

variable {mayOpen : Nat → Prop} {n : Nat} {i j : Cursor} {ts : List Tree}

/-- A quoted literal is framed by its quotes, whatever it has inside. -/
theorem frames_of_quoted (kind : Form.LiteralKind) {text : List Char}
    (h : Derives mayOpen n (.rule kind.rule) i (.success j ts))
    (htext : i.Across ('"' :: (text ++ ['"'])) j) : Frames i j ts i j := by
  have hclear : i.Clear := by
    intro c hc
    rw [htext.1] at hc
    cases hc
    rfl
  obtain ⟨us, rfl⟩ := h.exists_node
  obtain ⟨c, hprunes, hspan, hrules⟩ :
      ∃ c, Tree.prunes [.node kind.rule ⟨i.offset, j.offset⟩ us] = [c] ∧
        c.span = ⟨i.offset, j.offset⟩ ∧ ∀ u ∈ c.nodes, u.rule ≠ .spacing := by
    have hne := Nat.ne_of_lt (htext.offset_lt (List.cons_ne_nil _ _))
    have hprunes := @Tree.prunes_node kind.rule _ _ us hne
    refine ⟨_, hprunes, rfl, ?_⟩
    have hrules := h.forall_rule (.literalKind kind) _ (List.mem_singleton.mpr rfl)
    refine Tree.forall_rule_prune (G := (· ≠ .spacing)) hrules _ ?_
    rw [Tree.prunes_eq_flatMap, List.flatMap_singleton] at hprunes
    rw [hprunes]
    exact List.mem_singleton.mpr rfl
  have hrule := hrules c c.mem_nodes_self
  refine ⟨.refl hclear, ⟨_, htext, tight_quoted text⟩, .inl rfl, fun r s => ?_, fun r s => ?_⟩
  · rw [hprunes, Tree.significantStart_first r s [] (by rw [hspan]) hrule,
      Tree.significantStart_eq hrules]
  · rw [hprunes, ← List.nil_append [c], Tree.significantStop_last r s [] (by rw [hspan]) hrule,
      Tree.significantStop_eq hrules]

/-- A rule that is not spacing is framed, if what it stands for is. -/
theorem Derives.framedMatch_node {r : Rule} (h : Derives mayOpen n (.of r) i (.success j ts))
    (hspacing : r ≠ .spacing) (hof : (Clause.of r).Framed → FramedMatch i j ts) :
    FramedMatch i j [.node r ⟨i.offset, j.offset⟩ ts] := by
  by_cases hstring : r = .stringLiteral
  · subst hstring
    have hrule : Derives mayOpen n (.rule .stringLiteral) i _ := .rule (fun h => nomatch h) h
    obtain ⟨text, htext, -⟩ := exists_of_stringLiteral hrule
    exact .inr ⟨i, j, frames_of_quoted .string hrule htext⟩
  by_cases hlong : r = .longStringLiteral
  · subst hlong
    have hrule : Derives mayOpen n (.rule .longStringLiteral) i _ := .rule (fun h => nomatch h) h
    obtain ⟨text, htext⟩ := exists_of_longStringLiteral hrule
    exact .inr ⟨i, j, frames_of_quoted .longString hrule htext⟩
  rcases hof (framed_of hspacing hstring hlong) with ⟨rfl, -⟩ | ⟨a, b, hframes⟩
  · exact .inl ⟨rfl, Tree.prunes_empty rfl⟩
  · exact .inr ⟨a, b, hframes.node hspacing⟩

/-- A match of a framed clause covers nothing, or it is framed. -/
theorem Derives.framedMatch {c : Clause} {e : Ending} (h : Derives mayOpen n c i e)
    (hc : c.Framed) : e.Holds fun j ts => FramedMatch i j ts := by
  induction h with
  | empty => exact .nothing _
  | starEnd => exact .nothing _
  | optNone => exact .nothing _
  | not => exact .nothing _
  | @char n f x cs k hx =>
    cases hc with
    | char hf =>
      have hedge := hf x hx
      rw [isEdge, Bool.and_eq_true, Bool.not_eq_true', Bool.not_eq_true'] at hedge
      refine .inr ⟨_, _, .refl fun y hy => ?_, ⟨[x], ⟨rfl, rfl⟩, .singleton hedge.1⟩, .inl rfl,
        fun r s => ?_, fun r s => ?_⟩
      · cases hy
        exact hedge.2
      · rw [Tree.prunes_nil, Tree.significantStart]
      · rw [Tree.prunes_nil, Tree.significantStop, Tree.significantStopLast]
  | seq hp hq ihp ihq =>
    cases hc with
    | seq hcp hcq => exact (ihp hcp).append (ihq hcq) hp.holds_row.2.1 hq.holds_row.2.1
    -- Spacing at one of the ends is left out of the frame, which needs a match on the other side.
    | opened hcq hnull =>
      obtain ⟨hgap, rfl⟩ := spaced_of_derives hp
      obtain ⟨ds, hds, hne⟩ := hq.across_ne_nil hnull
      rcases ihq hcq with ⟨rfl, -⟩ | ⟨a, b, hframes⟩
      · exact absurd (hds.offset_lt hne) (Nat.lt_irrefl _)
      · exact .inr ⟨a, b, hframes.opened hgap⟩
    | closed hcp hnull =>
      obtain ⟨hgap, rfl⟩ := spaced_of_derives hq
      obtain ⟨ds, hds, hne⟩ := hp.across_ne_nil hnull
      rcases ihp hcp with ⟨rfl, -⟩ | ⟨a, b, hframes⟩
      · exact absurd (hds.offset_lt hne) (Nat.lt_irrefl _)
      · exact .inr ⟨a, b, hframes.closed hgap⟩
  | altLeft _ ihp =>
    cases hc with
    | alt hcp _ => exact ihp hcp
  | altRight _ _ _ ihq =>
    cases hc with
    | alt _ hcq => exact ihq hcq
  | starMore hp hs ihp ihs =>
    cases hc with
    | star hcp =>
      exact (ihp hcp).append (ihs (.star hcp)) hp.holds_row.2.1 hs.holds_row.2.1
  | plus hp hs ihp ihs =>
    cases hc with
    | plus hcp =>
      exact (ihp hcp).append (ihs (.star hcp)) hp.holds_row.2.1 hs.holds_row.2.1
  | opt _ ihp =>
    cases hc with
    | opt hcp => exact ihp hcp
  | rule _ hr ihr =>
    cases hc with
    | rule hspacing => exact hr.framedMatch_node hspacing ihr
  | _ => trivial

end Frames

/-! ## The nodes of an accepted text -/

/-- A node that stands for a gap of the text. -/
def IsGapNode (cs : List Char) (u : Tree) : Prop :=
  u.children = [] ∧ ∃ i j, i.IsIn cs ∧ Spaced i j ∧ i.offset < j.offset ∧
    u.span = ⟨i.offset, j.offset⟩

/-- A node in which tight text is found between the gaps at its ends. -/
def IsFramedNode (cs : List Char) (u : Tree) : Prop :=
  ∃ (a b : Cursor) (text : List Char), a.IsIn cs ∧ a.Across text b ∧ Tight text ∧
    u.significantStart u.span.start = a.offset ∧ u.significantStop u.span.stop = b.offset

section Nodes

variable {cs : List Char} {i j k l : Cursor} {t root : Tree} {f : Form}

theorem ScriptAt.nested (h : ScriptAt cs i j t f)
    (hroot : Tree.prunes [scriptNode cs i t] = [root]) : root.Nested := by
  obtain ⟨-, hrow, -⟩ := h.derives.holds_row
  rw [hroot] at hrow
  exact (hrow.1 root (List.mem_singleton.mpr rfl)).1

theorem ScriptAt.isGapNode (h : ScriptAt cs i j t f)
    (hroot : Tree.prunes [scriptNode cs i t] = [root]) :
    ∀ u ∈ root.nodes, u.rule = .spacing → IsGapNode cs u := by
  refine h.forall_nodes hroot fun {n r k l ts} hk hr hkl hrule => ?_
  obtain rfl : r = .spacing := hrule
  obtain ⟨hgap, hnode⟩ := spaced_of_derives (n := n) (.rule (fun h => nomatch h) hr)
  cases hnode
  exact ⟨Tree.prunes_nil, k, l, hk, hgap, Nat.lt_of_le_of_ne hgap.offset_le hkl, rfl⟩

theorem ScriptAt.isFramedNode (h : ScriptAt cs i j t f)
    (hroot : Tree.prunes [scriptNode cs i t] = [root]) :
    ∀ u ∈ root.nodes, u.rule ≠ .spacing → IsFramedNode cs u := by
  refine h.forall_nodes hroot fun {n r k l ts} hk hr hkl hrule => ?_
  rcases hr.framedMatch_node hrule hr.framedMatch with ⟨rfl, -⟩ | ⟨a, b, hframes⟩
  · exact absurd rfl hkl
  · obtain ⟨text, hab, htight⟩ := hframes.tight
    -- The ends that are found from above are those that are found from the node itself.
    have hstart := hframes.start .value ⟨k.offset, l.offset⟩
    have hstop := hframes.stop .value ⟨k.offset, l.offset⟩
    rw [Tree.prunes_node hkl] at hstart hstop
    refine ⟨a, b, text, hframes.lead.isIn hk, hab, htight, ?_, ?_⟩
    · exact (Tree.significantStart_first _ _ [] rfl hrule).symm.trans hstart
    · exact (Tree.significantStop_last _ _ [] rfl hrule).symm.trans hstop

/-- The trimmed text of an identifier is a word. -/
theorem ScriptAt.isWord_of_identifier (h : ScriptAt cs i j t f)
    (hroot : Tree.prunes [scriptNode cs i t] = [root]) :
    ∀ u ∈ root.nodes, u.rule = .identifier →
      ∃ w, slice? cs (u.trimmedSpan cs) = some w ∧ isWord w = true := by
  refine h.forall_nodes hroot fun {n r k l ts} hk hr hkl hrule => ?_
  obtain rfl : r = .identifier := hrule
  obtain ⟨w, m, hname, hnode⟩ := nameAt_of_derives (n := n) (.rule (fun h => nomatch h) hr)
  cases hnode
  have hspan := hname.trimmedSpan hk
  simp only [nodeAt, gapNode] at hspan
  exact ⟨w, by rw [hspan, hk.slice? hname.across], hname.word⟩

/-- There is one place at an offset. -/
theorem Cursor.IsIn.eq_of_offset (hi : i.IsIn cs) (hj : j.IsIn cs) (h : i.offset = j.offset) :
    i = j := by
  obtain ⟨pre, hcs, hoffset⟩ := hi
  obtain ⟨pre', hcs', hoffset'⟩ := hj
  obtain ⟨mid, rfl, hrest⟩ :=
    Text.exists_append_of_byteSize_le (hcs.symm.trans hcs') (by omega)
  have hij : i.Across mid j := ⟨hrest, by rw [hoffset', hoffset, Text.byteSize_append]⟩
  cases mid with
  | nil => exact hij.eq_of_nil
  | cons c mid =>
    have hlt := hij.offset_lt (List.cons_ne_nil c mid)
    omega

/-- No gap begins where another one ends. -/
theorem Spaced.offset_ne (hij : Spaced i j) (hi : i.IsIn cs) (hkl : Spaced k l) (hk : k.IsIn cs)
    (hlt : k.offset < l.offset) : j.offset ≠ k.offset := by
  intro hjk
  obtain rfl := (hij.isIn hi).eq_of_offset hk hjk
  obtain rfl := hkl.eq hij.clear
  exact Nat.lt_irrefl _ hlt

end Nodes

end Grammar

/-! ## Exact spans -/

namespace Tree

variable {cs : List Char} {root u : Tree}

/-- The nodes of the tree are nested, and its spacing are gaps of the text. -/
structure Spreads (cs : List Char) (root : Tree) : Prop where
  nested : root.Nested
  gap : ∀ u ∈ root.nodes, u.rule = .spacing → IsGapNode cs u

namespace Spreads

/-- There is nothing inside spacing. -/
theorem eq_of_mem_nodes (h : root.Spreads cs) {v : Tree} (hv : v ∈ root.nodes)
    (hr : v.rule = .spacing) (hu : u ∈ v.nodes) : u = v := by
  obtain ⟨hleaf, -⟩ := h.gap v hv hr
  cases v with
  | node r s children =>
    obtain rfl : children = [] := hleaf
    rwa [nodes_node, List.flatMap_nil, List.mem_singleton] at hu

/-- Spacing that is not inside a node is apart from it. -/
theorem gap_cases (h : root.Spreads cs) (hu : u ∈ root.nodes) (hr : u.rule ≠ .spacing) {g : Span}
    (hg : g ∈ root.gaps) : g ∈ u.gaps ∨ u.span.stop ≤ g.start ∨ g.stop ≤ u.span.start := by
  obtain ⟨v, hv, hrule, rfl⟩ := mem_gaps.mp hg
  rcases h.nested.inside_or_apart hu hv with huv | hvu | hapart
  · exact absurd (h.eq_of_mem_nodes hv hrule huv ▸ hrule) hr
  · exact .inl (mem_gaps.mpr ⟨v, hvu, hrule, rfl⟩)
  · exact .inr hapart

theorem start_lt_stop (h : root.Spreads cs) {g : Span} (hg : g ∈ root.gaps) : g.start < g.stop := by
  obtain ⟨v, hv, -, rfl⟩ := mem_gaps.mp hg
  exact (h.nested.of_mem hv).start_lt_stop

theorem stop_ne_start (h : root.Spreads cs) {g g' : Span} (hg : g ∈ root.gaps)
    (hg' : g' ∈ root.gaps) : g.stop ≠ g'.start := by
  obtain ⟨v, hv, hrule, rfl⟩ := mem_gaps.mp hg
  obtain ⟨v', hv', hrule', rfl⟩ := mem_gaps.mp hg'
  obtain ⟨-, i, j, hi, hij, -, hspan⟩ := h.gap v hv hrule
  obtain ⟨-, k, l, hk, hkl, hlt, hspan'⟩ := h.gap v' hv' hrule'
  rw [hspan, hspan']
  exact hij.offset_ne hi hkl hk hlt

/-- Two pieces of spacing are the same, or there is something between them. -/
theorem gaps_apart (h : root.Spreads cs) {g g' : Span} (hg : g ∈ root.gaps)
    (hg' : g' ∈ root.gaps) : g = g' ∨ g.stop < g'.start ∨ g'.stop < g.start := by
  have hne := h.stop_ne_start hg hg'
  have hne' := h.stop_ne_start hg' hg
  obtain ⟨v, hv, hrule, rfl⟩ := mem_gaps.mp hg
  obtain ⟨v', hv', hrule', rfl⟩ := mem_gaps.mp hg'
  rcases h.nested.inside_or_apart hv hv' with hin | hin | hle | hle
  · exact .inl (by rw [h.eq_of_mem_nodes hv' hrule' hin])
  · exact .inl (by rw [h.eq_of_mem_nodes hv hrule hin])
  · exact .inr (.inl (Nat.lt_of_le_of_ne hle hne))
  · exact .inr (.inr (Nat.lt_of_le_of_ne hle hne'))

/-- No spacing covers the first byte behind the spacing that opens a node. -/
theorem not_covers_start (h : root.Spreads cs) (hu : u ∈ root.nodes) (hr : u.rule ≠ .spacing)
    {s : Span} (hs : u.IsCut s) (hlt : s.start < s.stop) {g : Span} (hg : g ∈ root.gaps) :
    ¬ g.Covers s.start := by
  rintro ⟨hle, hcover⟩
  obtain ⟨-, hinside⟩ := (h.nested.of_mem hu).inside_of_isCut hs
  rcases hs.start with ⟨hnone, hstart⟩ | ⟨g', hg', hopen, hstart⟩
  · rcases h.gap_cases hu hr hg with hin | hapart | hapart
    · obtain ⟨v, hv, -, rfl⟩ := mem_gaps.mp hin
      have hge := ((h.nested.of_mem hu).start_le_and_stop_le hv).1
      exact hnone _ hin (by omega)
    · omega
    · omega
  · have hg' := mem_gaps_of_mem_nodes hu hg'
    have hlt' := h.start_lt_stop hg'
    rcases h.gaps_apart hg hg' with rfl | hapart | hapart <;> omega

/-- No spacing covers the last byte before the spacing that closes a node. -/
theorem not_covers_stop (h : root.Spreads cs) (hu : u ∈ root.nodes) (hr : u.rule ≠ .spacing)
    {s : Span} (hs : u.IsCut s) (hlt : s.start < s.stop) {g : Span} (hg : g ∈ root.gaps) :
    ¬ g.Covers (s.stop - 1) := by
  rintro ⟨hle, hcover⟩
  obtain ⟨hinside, -⟩ := (h.nested.of_mem hu).inside_of_isCut hs
  rcases hs.stop with ⟨hnone, hstop⟩ | ⟨g', hg', hclose, hstop⟩
  · rcases h.gap_cases hu hr hg with hin | hapart | hapart
    · obtain ⟨v, hv, -, rfl⟩ := mem_gaps.mp hin
      have hge := ((h.nested.of_mem hu).start_le_and_stop_le hv).2
      exact hnone _ hin (by omega)
    · omega
    · omega
  · have hg' := mem_gaps_of_mem_nodes hu hg'
    have hlt' := h.start_lt_stop hg'
    rcases h.gaps_apart hg hg' with rfl | hapart | hapart <;> omega

end Spreads

end Tree

/-- Trimmed spans are exact. The tree of a program has at every node that is not spacing a
significant span that needs no more trimming. It is what the node covers without the spacing that
opens it and the spacing that closes it, if there are any; it covers whole characters, at least one,
and no spacing of the tree covers the first or the last byte of it; and for an identifier it covers
a word. -/
theorem trimmed_spans_exact {source : Source} {p : Program} (hp : Program.compile source = .ok p) :
    ∃ root, p.tree? = some root ∧ ∀ u ∈ root.nodes, u.rule ≠ .spacing →
      u.trimmedSpan source.chars = u.significantSpan ∧
      u.IsCut u.significantSpan ∧
      (∃ text, slice? source.chars u.significantSpan = some text ∧ text ≠ [] ∧
        (u.rule = .identifier → isWord text = true)) ∧
      ∀ g ∈ root.gaps, ¬ g.Covers u.significantSpan.start ∧
        ¬ g.Covers (u.significantSpan.stop - 1) := by
  obtain ⟨i, j, t, f, hscript, rfl⟩ := Program.exists_scriptAt_of_compile hp
  obtain ⟨root, -, -, -, hroot, -⟩ := hscript.reads
  have hspreads : root.Spreads source.chars := ⟨hscript.nested hroot, hscript.isGapNode hroot⟩
  refine ⟨root, by rw [Program.tree?, hroot]; rfl, fun u hu hr => ?_⟩
  obtain ⟨a, b, text, ha, hab, htight, hstart, hstop⟩ := hscript.isFramedNode hroot u hu hr
  have hlt := hab.offset_lt htight.ne_nil
  have hcut := (hspreads.nested.of_mem hu).isCut hr (by omega)
  have htrim := trimmedSpan_eq ha hab htight hstart hstop
  have hspan : u.significantSpan = ⟨a.offset, b.offset⟩ := by
    simp only [Tree.significantSpan, hstart, hstop, Nat.max_eq_left (Nat.le_of_lt hlt)]
  rw [hspan] at hcut ⊢
  refine ⟨htrim, hcut, ⟨text, ha.slice? hab, htight.ne_nil, fun hname => ?_⟩,
    fun g hg => ⟨hspreads.not_covers_start hu hr hcut hlt hg,
      hspreads.not_covers_stop hu hr hcut hlt hg⟩⟩
  obtain ⟨w, hw, hword⟩ := hscript.isWord_of_identifier hroot u hu hname
  rw [htrim, ha.slice? hab] at hw
  cases hw
  exact hword

/-- The spacing behind a name with an attribute belongs to the identifier of the attribute, three
rules below the value. -/
def Source.spacedAttribute : Source := ⟨"script", "(f a.b ; \"c\"\n )"⟩

/-- The comment and the blanks on both sides of it are cut off, and nothing else. -/
theorem trimmed_spans_exact_attribute :
    ∃ p root u, Program.compile .spacedAttribute = .ok p ∧ p.tree? = some root ∧
      u ∈ root.nodes ∧ u.rule = .identifierAttr ∧ u.span = ⟨3, 14⟩ ∧
      u.IsCut ⟨3, 6⟩ ∧ u.trimmedSpan Source.spacedAttribute.chars = ⟨3, 6⟩ ∧
      slice? Source.spacedAttribute.chars ⟨3, 6⟩ = some "a.b".toList := by
  have hread : (((Program.compile .spacedAttribute).toOption.bind Program.tree?).bind
      fun t => t.nodes.find? (·.rule == .identifierAttr)).map
      (fun u => (u.span, u.significantSpan)) = some (⟨3, 14⟩, ⟨3, 6⟩) := by
    decide +kernel
  obtain ⟨p, root, u, hp, htree, hu, hrule, hspans⟩ := Program.exists_node_of_find? hread
  obtain ⟨hspan, hsignificant⟩ := Prod.mk.inj hspans
  obtain ⟨root', htree', hexact⟩ := trimmed_spans_exact hp
  cases htree.symm.trans htree'
  obtain ⟨htrim, hcut, -, -⟩ := hexact u hu (hrule ▸ by decide)
  rw [hsignificant] at htrim hcut
  exact ⟨p, root, u, hp, htree, hu, hrule, hspan, hcut, htrim, by decide +kernel⟩

end Fexpr
