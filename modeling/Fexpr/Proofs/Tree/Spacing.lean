import Fexpr.Proofs.Tree.OfMatch
import Mathlib.Data.List.Pairwise

/-!
# Spacing at the ends of nodes

The search for significant text goes down the first and the last children of a node. In a nested
tree it finds what it is after: the spacing that opens the node and the one that closes it, at
whatever depth they are (`Nested.isCut`). Two nodes of a nested tree are one inside the other or
apart (`Nested.inside_or_apart`), so no other spacing reaches over the ends of what is left.
-/

namespace Fexpr

open Text (Span)
open Grammar

/-- The byte at the offset lies in the span. -/
def Text.Span.Covers (s : Span) (offset : Nat) : Prop := s.start ≤ offset ∧ offset < s.stop

namespace Tree

/-! ## Significant spans -/

/-- A tree without spacing is significant as a whole. -/
theorem significantStart_eq {t : Tree} (h : ∀ u ∈ t.nodes, u.rule ≠ .spacing) (start : Nat) :
    t.significantStart start = start := by
  induction t with
  | node r s children ih =>
    cases children with
    | nil => rw [significantStart]
    | cons c rest =>
      have hc : c ∈ c :: rest := List.mem_cons_self
      have hsub : ∀ u ∈ c.nodes, u.rule ≠ .spacing :=
        fun u hu => h u (mem_nodes_of_mem_children (t := .node r s (c :: rest)) hc hu)
      rw [significantStart, if_neg (hsub c c.mem_nodes_self)]
      split
      · rfl
      · exact ih c hc hsub

theorem significantStop_concat (stop : Nat) (r : Rule) (s : Span) (ts : List Tree) (c : Tree) :
    (node r s (ts ++ [c])).significantStop stop =
      if c.span.stop ≠ stop then stop
      else if c.rule = .spacing then c.span.start
      else c.significantStop stop := by
  rw [significantStop]
  induction ts with
  | nil => rw [List.nil_append, significantStopLast]
  | cons t ts ih =>
    cases ts with
    | nil => rw [List.cons_append, List.nil_append, significantStopLast, significantStopLast]
    | cons u ts => rw [List.cons_append, List.cons_append, significantStopLast]; exact ih

theorem significantStop_eq {t : Tree} (h : ∀ u ∈ t.nodes, u.rule ≠ .spacing) (stop : Nat) :
    t.significantStop stop = stop := by
  induction t with
  | node r s children ih =>
    rcases List.eq_nil_or_concat children with rfl | ⟨ts, c, rfl⟩
    · rw [significantStop, significantStopLast]
    · rw [List.concat_eq_append] at h ih ⊢
      have hc : c ∈ ts ++ [c] := List.mem_append_right ts List.mem_cons_self
      have hsub : ∀ u ∈ c.nodes, u.rule ≠ .spacing :=
        fun u hu => h u (mem_nodes_of_mem_children (t := .node r s (ts ++ [c])) hc hu)
      rw [significantStop_concat, if_neg (hsub c c.mem_nodes_self)]
      split
      · rfl
      · exact ih c hc hsub

/-- A last child that is no spacing decides where the significant text stops. -/
theorem significantStop_last {stop : Nat} (r : Rule) (s : Span) (ts : List Tree) {c : Tree}
    (hstop : c.span.stop = stop) (hc : c.rule ≠ .spacing) :
    (node r s (ts ++ [c])).significantStop stop = c.significantStop stop := by
  rw [significantStop_concat, if_neg (fun h => h hstop), if_neg hc]

/-- A last child that stops earlier leaves the end to the node itself. -/
theorem significantStop_earlier {stop : Nat} (r : Rule) (s : Span) (ts : List Tree) {c : Tree}
    (hstop : c.span.stop ≠ stop) : (node r s (ts ++ [c])).significantStop stop = stop := by
  rw [significantStop_concat, if_pos hstop]

/-- Spacing that closes a node is cut off. -/
theorem significantStop_spacing (r : Rule) (s : Span) (ts : List Tree) {c : Tree}
    (hc : c.rule = .spacing) :
    (node r s (ts ++ [c])).significantStop c.span.stop = c.span.start := by
  rw [significantStop_concat, if_neg (fun h => h rfl), if_pos hc]

/-- A first child that is no spacing decides where the significant text starts. -/
theorem significantStart_first {start : Nat} (r : Rule) (s : Span) (ts : List Tree) {c : Tree}
    (hstart : c.span.start = start) (hc : c.rule ≠ .spacing) :
    (node r s (c :: ts)).significantStart start = c.significantStart start := by
  rw [significantStart, if_neg (fun h => h hstart), if_neg hc]

theorem significantStart_later {start : Nat} (r : Rule) (s : Span) (ts : List Tree) {c : Tree}
    (hstart : c.span.start ≠ start) : (node r s (c :: ts)).significantStart start = start := by
  rw [significantStart, if_pos hstart]

/-- Spacing that opens a node is cut off. -/
theorem significantStart_spacing (r : Rule) (s : Span) (ts : List Tree) {c : Tree}
    (hc : c.rule = .spacing) :
    (node r s (c :: ts)).significantStart c.span.start = c.span.stop := by
  rw [significantStart, if_neg (fun h => h rfl), if_pos hc]

/-- Children that come later do not matter to where the significant text starts. -/
theorem significantStart_append {lo hi start : Nat} {us : List Tree} (h : Row lo us hi)
    (hlt : start < lo) (r : Rule) (s : Span) (ts : List Tree) :
    (node r s (ts ++ us)).significantStart start = (node r s ts).significantStart start := by
  cases ts with
  | nil =>
    cases us with
    | nil => rfl
    | cons u us =>
      have hle := (h.1 u List.mem_cons_self).2.1
      rw [List.nil_append, significantStart_later r s us (by omega), significantStart]
  | cons t ts => rw [List.cons_append, significantStart, significantStart]

/-- Children that come earlier do not matter to where the significant text stops. -/
theorem significantStop_append {lo hi stop : Nat} {ts : List Tree} (h : Row lo ts hi)
    (hlt : hi < stop) (r : Rule) (s : Span) (us : List Tree) :
    (node r s (ts ++ us)).significantStop stop = (node r s us).significantStop stop := by
  rcases List.eq_nil_or_concat us with rfl | ⟨us, u, rfl⟩
  · rcases List.eq_nil_or_concat ts with rfl | ⟨ts, t, rfl⟩
    · rfl
    · rw [List.concat_eq_append] at h ⊢
      have hle := (h.1 t (List.mem_append_right ts List.mem_cons_self)).2.2
      rw [List.append_nil, significantStop_earlier r s ts (by omega), significantStop,
        significantStopLast]
  · rw [List.concat_eq_append, ← List.append_assoc, significantStop_concat, significantStop_concat]

/-! ## The spacing in a tree -/

/-- The spacing in a tree. -/
def gaps (t : Tree) : List Span := (t.nodes.filter (·.rule = .spacing)).map span

/-- The span is what the tree covers without the spacing that opens it, if there is any, and
without the spacing that closes it, if there is any. -/
structure IsCut (t : Tree) (s : Span) : Prop where
  start : (∀ g ∈ t.gaps, g.start ≠ t.span.start) ∧ s.start = t.span.start ∨
    ∃ g ∈ t.gaps, g.start = t.span.start ∧ s.start = g.stop
  stop : (∀ g ∈ t.gaps, g.stop ≠ t.span.stop) ∧ s.stop = t.span.stop ∨
    ∃ g ∈ t.gaps, g.stop = t.span.stop ∧ s.stop = g.start

theorem mem_gaps {t : Tree} {s : Span} :
    s ∈ t.gaps ↔ ∃ g ∈ t.nodes, g.rule = .spacing ∧ g.span = s := by
  simp [gaps, and_assoc]

theorem mem_gaps_of_mem_nodes {t u : Tree} {s : Span} (hu : u ∈ t.nodes) (hs : s ∈ u.gaps) :
    s ∈ t.gaps := by
  obtain ⟨g, hg, hrule, hspan⟩ := mem_gaps.mp hs
  exact mem_gaps.mpr ⟨g, mem_nodes_trans hu hg, hrule, hspan⟩

/-- The spacing in a node that is no spacing lies in its children. -/
theorem mem_gaps_node {r : Rule} {s : Span} {cs : List Tree} {g : Span} (hr : r ≠ .spacing) :
    g ∈ (node r s cs).gaps ↔ ∃ c ∈ cs, g ∈ c.gaps := by
  constructor
  · intro hg
    obtain ⟨u, hu, hrule, hspan⟩ := mem_gaps.mp hg
    rw [nodes_node] at hu
    rcases List.mem_cons.mp hu with rfl | hu
    · exact absurd hrule hr
    · obtain ⟨c, hc, hu⟩ := List.mem_flatMap.mp hu
      exact ⟨c, hc, mem_gaps.mpr ⟨u, hu, hrule, hspan⟩⟩
  · rintro ⟨c, hc, hg⟩
    exact mem_gaps_of_mem_nodes (mem_nodes_of_mem_children hc c.mem_nodes_self) hg

theorem span_mem_gaps {t : Tree} (h : t.rule = .spacing) : t.span ∈ t.gaps :=
  mem_gaps.mpr ⟨t, t.mem_nodes_self, h, rfl⟩

/-! ## Nested trees -/

namespace Nested

variable {t u v : Tree}

theorem of_mem (h : t.Nested) (hu : u ∈ t.nodes) : u.Nested := by
  induction t with
  | node r s cs ih =>
    rw [nodes_node] at hu
    rcases List.mem_cons.mp hu with rfl | hu
    · exact h
    · obtain ⟨c, hc, hu⟩ := List.mem_flatMap.mp hu
      cases h with
      | node _ _ _ nested => exact ih c hc (nested c hc) hu

theorem start_le_and_stop_le (h : t.Nested) (hu : u ∈ t.nodes) :
    t.span.start ≤ u.span.start ∧ u.span.stop ≤ t.span.stop := by
  induction t with
  | node r s cs ih =>
    rw [nodes_node] at hu
    rcases List.mem_cons.mp hu with rfl | hu
    · exact ⟨Nat.le_refl _, Nat.le_refl _⟩
    · obtain ⟨c, hc, hu⟩ := List.mem_flatMap.mp hu
      cases h with
      | node _ inside _ nested =>
        obtain ⟨hstart, hstop⟩ := (Span.contains_iff _ _).mp (inside c hc)
        obtain ⟨hstart', hstop'⟩ := ih c hc (nested c hc) hu
        exact ⟨Nat.le_trans hstart hstart', Nat.le_trans hstop' hstop⟩

/-- Different children are apart. -/
theorem children_apart {c d : Tree} (h : t.Nested) (hc : c ∈ t.children) (hd : d ∈ t.children)
    (hcd : c ≠ d) : c.span.stop ≤ d.span.start ∨ d.span.stop ≤ c.span.start := by
  cases h with
  | @node _ _ cs _ _ apart _ =>
    have hsymm : Std.Symm fun c d : Tree =>
        c.span.stop ≤ d.span.start ∨ d.span.stop ≤ c.span.start := ⟨fun _ _ h => h.symm⟩
    have hpairs : cs.Pairwise fun c d =>
        c.span.stop ≤ d.span.start ∨ d.span.stop ≤ c.span.start := apart.imp fun h => .inl h
    exact hpairs.forall hc hd hcd

/-- Two nodes are one inside the other, or apart. -/
theorem inside_or_apart (h : t.Nested) (hu : u ∈ t.nodes) (hv : v ∈ t.nodes) :
    u ∈ v.nodes ∨ v ∈ u.nodes ∨ u.span.stop ≤ v.span.start ∨ v.span.stop ≤ u.span.start := by
  induction t with
  | node r s cs ih =>
    have hroot := nodes_node r s cs
    rw [nodes_node] at hu hv
    rcases List.mem_cons.mp hu with rfl | hu'
    · exact .inr (.inl (hroot ▸ hv))
    rcases List.mem_cons.mp hv with rfl | hv'
    · exact .inl (hroot ▸ hu)
    obtain ⟨c, hc, huc⟩ := List.mem_flatMap.mp hu'
    obtain ⟨d, hd, hvd⟩ := List.mem_flatMap.mp hv'
    have hnested : ∀ c ∈ cs, c.Nested :=
      fun c hc => h.of_mem (mem_nodes_of_mem_children hc c.mem_nodes_self)
    -- The two are in the same child, or in children that follow each other.
    by_cases hcd : c = d
    · subst hcd
      exact ih c hc (hnested c hc) huc hvd
    · obtain ⟨hcu, huc'⟩ := (hnested c hc).start_le_and_stop_le huc
      obtain ⟨hdv, hvd'⟩ := (hnested d hd).start_le_and_stop_le hvd
      rcases h.children_apart hc hd hcd with hpair | hpair
      · exact .inr (.inr (.inl (by omega)))
      · exact .inr (.inr (.inr (by omega)))

/-! ## What the search for significant text finds -/

/-- Spacing that opens a node lies in its first child. -/
theorem start_ne_of_later {r : Rule} {s : Span} {c : Tree} {rest : List Tree}
    (h : (Tree.node r s (c :: rest)).Nested) {d : Tree} (hd : d ∈ rest) {g : Span}
    (hg : g ∈ d.gaps) : g.start ≠ s.start := by
  cases h with
  | node _ inside apart nested =>
    have hin := ((Span.contains_iff _ _).mp (inside c List.mem_cons_self)).1
    have hlt := (nested c List.mem_cons_self).start_lt_stop
    have hapart := (List.pairwise_cons.mp apart).1 d hd
    obtain ⟨u, hu, -, rfl⟩ := mem_gaps.mp hg
    have hle := ((nested d (List.mem_cons_of_mem c hd)).start_le_and_stop_le hu).1
    omega

theorem significantStart_cases (h : t.Nested) (hr : t.rule ≠ .spacing) :
    (∀ g ∈ t.gaps, g.start ≠ t.span.start) ∧
        t.significantStart t.span.start = t.span.start ∨
      ∃ g ∈ t.gaps, g.start = t.span.start ∧ t.significantStart t.span.start = g.stop := by
  -- Only the first child can start where the node does, so that the search goes on in it alone.
  induction t with
  | node r s cs ih =>
    simp only [mem_gaps_node (show r ≠ .spacing from hr), Tree.span]
    cases cs with
    | nil =>
      refine .inl ⟨fun g hg => ?_, by rw [significantStart]⟩
      obtain ⟨c, hc, -⟩ := hg
      cases hc
    | cons c rest =>
      have hc : c ∈ c :: rest := List.mem_cons_self
      have hnone : (∀ g ∈ c.gaps, g.start ≠ s.start) →
          ∀ g, (∃ d ∈ c :: rest, g ∈ d.gaps) → g.start ≠ s.start := by
        rintro hfirst g ⟨d, hd, hg⟩
        rcases List.mem_cons.mp hd with rfl | hd
        · exact hfirst g hg
        · exact h.start_ne_of_later hd hg
      cases h with
      | node _ inside _ nested =>
      by_cases hstart : c.span.start = s.start
      · by_cases hspacing : c.rule = .spacing
        · rw [← hstart, significantStart_spacing _ _ _ hspacing]
          exact .inr ⟨c.span, ⟨c, hc, span_mem_gaps hspacing⟩, rfl, rfl⟩
        · rw [significantStart_first _ _ _ hstart hspacing]
          rcases ih c hc (nested c hc) hspacing with ⟨hfirst, heq⟩ | ⟨g, hg, hgs, heq⟩
          · rw [hstart] at hfirst heq
            exact .inl ⟨hnone hfirst, heq⟩
          · rw [hstart] at hgs heq
            exact .inr ⟨g, ⟨c, hc, hg⟩, hgs, heq⟩
      · rw [significantStart_later _ _ _ hstart]
        refine .inl ⟨hnone fun g hg => ?_, rfl⟩
        have hin := ((Span.contains_iff _ _).mp (inside c hc)).1
        obtain ⟨u, hu, -, rfl⟩ := mem_gaps.mp hg
        have hle := ((nested c hc).start_le_and_stop_le hu).1
        omega

/-- Spacing that closes a node lies in its last child. -/
theorem stop_ne_of_earlier {r : Rule} {s : Span} {c : Tree} {rest : List Tree}
    (h : (Tree.node r s (rest ++ [c])).Nested) {d : Tree} (hd : d ∈ rest) {g : Span}
    (hg : g ∈ d.gaps) : g.stop ≠ s.stop := by
  cases h with
  | node _ inside apart nested =>
    have hc : c ∈ rest ++ [c] := List.mem_append_right rest List.mem_cons_self
    have hin := ((Span.contains_iff _ _).mp (inside c hc)).2
    have hlt := (nested c hc).start_lt_stop
    have hapart := (List.pairwise_append.mp apart).2.2 d hd c List.mem_cons_self
    obtain ⟨u, hu, -, rfl⟩ := mem_gaps.mp hg
    have hle := ((nested d (List.mem_append_left [c] hd)).start_le_and_stop_le hu).2
    omega

theorem significantStop_cases (h : t.Nested) (hr : t.rule ≠ .spacing) :
    (∀ g ∈ t.gaps, g.stop ≠ t.span.stop) ∧ t.significantStop t.span.stop = t.span.stop ∨
      ∃ g ∈ t.gaps, g.stop = t.span.stop ∧ t.significantStop t.span.stop = g.start := by
  -- As at the start, but the search goes on in the last child.
  induction t with
  | node r s cs ih =>
    simp only [mem_gaps_node (show r ≠ .spacing from hr), Tree.span]
    rcases List.eq_nil_or_concat cs with rfl | ⟨rest, c, rfl⟩
    · refine .inl ⟨fun g hg => ?_, by rw [significantStop, significantStopLast]⟩
      obtain ⟨c, hc, -⟩ := hg
      cases hc
    · rw [List.concat_eq_append] at h ih ⊢
      have hc : c ∈ rest ++ [c] := List.mem_append_right rest List.mem_cons_self
      have hnone : (∀ g ∈ c.gaps, g.stop ≠ s.stop) →
          ∀ g, (∃ d ∈ rest ++ [c], g ∈ d.gaps) → g.stop ≠ s.stop := by
        rintro hlast g ⟨d, hd, hg⟩
        rcases List.mem_append.mp hd with hd | hd
        · exact h.stop_ne_of_earlier hd hg
        · exact hlast g (List.mem_singleton.mp hd ▸ hg)
      cases h with
      | node _ inside _ nested =>
      by_cases hstop : c.span.stop = s.stop
      · by_cases hspacing : c.rule = .spacing
        · rw [← hstop, significantStop_spacing _ _ _ hspacing]
          exact .inr ⟨c.span, ⟨c, hc, span_mem_gaps hspacing⟩, rfl, rfl⟩
        · rw [significantStop_last _ _ _ hstop hspacing]
          rcases ih c hc (nested c hc) hspacing with ⟨hlast, heq⟩ | ⟨g, hg, hgs, heq⟩
          · rw [hstop] at hlast heq
            exact .inl ⟨hnone hlast, heq⟩
          · rw [hstop] at hgs heq
            exact .inr ⟨g, ⟨c, hc, hg⟩, hgs, heq⟩
      · rw [significantStop_earlier _ _ _ hstop]
        refine .inl ⟨hnone fun g hg => ?_, rfl⟩
        have hin := ((Span.contains_iff _ _).mp (inside c hc)).2
        obtain ⟨u, hu, -, rfl⟩ := mem_gaps.mp hg
        have hle := ((nested c hc).start_le_and_stop_le hu).2
        omega

/-- The search ends at the spacing that opens and closes the node, if the two leave something
between them. -/
theorem isCut (h : t.Nested) (hr : t.rule ≠ .spacing)
    (hle : t.significantStart t.span.start ≤ t.significantStop t.span.stop) :
    t.IsCut t.significantSpan := by
  have hspan : t.significantSpan =
      ⟨t.significantStart t.span.start, t.significantStop t.span.stop⟩ := by
    simp only [significantSpan, Nat.max_eq_left hle]
  rw [hspan]
  exact ⟨h.significantStart_cases hr, h.significantStop_cases hr⟩

theorem inside_of_isCut {s : Span} (h : t.Nested) (hs : t.IsCut s) :
    t.span.start ≤ s.start ∧ s.stop ≤ t.span.stop := by
  have hgap : ∀ g ∈ t.gaps, g.start < g.stop := by
    intro g hg
    obtain ⟨v, hv, -, rfl⟩ := mem_gaps.mp hg
    exact (h.of_mem hv).start_lt_stop
  constructor
  · rcases hs.start with ⟨-, hstart⟩ | ⟨g, hg, hopen, hstart⟩
    · omega
    · have hlt := hgap g hg
      omega
  · rcases hs.stop with ⟨-, hstop⟩ | ⟨g, hg, hclose, hstop⟩
    · omega
    · have hlt := hgap g hg
      omega

end Nested

end Tree

end Fexpr
