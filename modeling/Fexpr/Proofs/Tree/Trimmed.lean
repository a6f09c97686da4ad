import Fexpr.Form.OfTree
import Fexpr.Proofs.Tree.OfMatch

/-!
# Cutting out trimmed texts

If every node of a tree covers whole characters, so do the significant and the trimmed spans of the
nodes: the ends of a significant span are ends of nodes, and trimming moves over whole characters.
-/

namespace Fexpr

open Text (Span IsBoundary slice?)
open Grammar

namespace Tree

/-- Every node of the tree covers whole characters of the text. -/
def Sliceable (cs : List Char) (t : Tree) : Prop :=
  ∀ u ∈ t.nodes, (slice? cs u.span).isSome = true

variable {cs : List Char} {t : Tree}

theorem Sliceable.of_mem {c : Tree} (h : t.Sliceable cs) (hc : c ∈ t.children) : c.Sliceable cs :=
  fun u hu => h u (mem_nodes_of_mem_children hc hu)

theorem Sliceable.isBoundary (h : t.Sliceable cs) :
    IsBoundary cs t.span.start ∧ IsBoundary cs t.span.stop :=
  (Text.slice?_isSome_iff.mp (h t t.mem_nodes_self)).2

theorem isBoundary_significantStart {start : Nat} (h : t.Sliceable cs)
    (hstart : IsBoundary cs start) : IsBoundary cs (t.significantStart start) := by
  induction t with
  | node r s children ih =>
    cases children with
    | nil => rwa [significantStart]
    | cons c rest =>
      have hc : c ∈ c :: rest := List.mem_cons_self
      have hsub : c.Sliceable cs := h.of_mem hc
      rw [significantStart]
      split
      · exact hstart
      · split
        · exact hsub.isBoundary.2
        · exact ih c hc hsub

/-- Significant text stops at a boundary, if it does in the last child. -/
theorem isBoundary_significantStopLast {stop : Nat} {children : List Tree}
    (hstop : IsBoundary cs stop) (hsub : ∀ c ∈ children, c.Sliceable cs)
    (hlast : ∀ c ∈ children, IsBoundary cs (c.significantStop stop)) :
    IsBoundary cs (significantStopLast stop children) := by
  induction children with
  | nil => rwa [significantStopLast]
  | cons c rest ih =>
    cases rest with
    | nil =>
      rw [significantStopLast]
      split
      · exact hstop
      · split
        · exact (hsub c List.mem_cons_self).isBoundary.1
        · exact hlast c List.mem_cons_self
    | cons d rest =>
      rw [significantStopLast]
      exact ih (fun c' hc' => hsub c' (List.mem_cons_of_mem c hc'))
        (fun c' hc' => hlast c' (List.mem_cons_of_mem c hc'))

theorem isBoundary_significantStop {stop : Nat} (h : t.Sliceable cs)
    (hstop : IsBoundary cs stop) : IsBoundary cs (t.significantStop stop) := by
  induction t with
  | node r s children ih =>
    rw [significantStop]
    exact isBoundary_significantStopLast hstop (fun c hc => h.of_mem hc)
      (fun c hc => ih c hc (h.of_mem hc))

/-- The significant span of a tree covers whole characters. -/
theorem slice?_significantSpan_isSome (h : t.Sliceable cs) :
    (slice? cs t.significantSpan).isSome = true := by
  have hstart := isBoundary_significantStart h h.isBoundary.1
  have hstop := isBoundary_significantStop h h.isBoundary.2
  refine Text.slice?_isSome_iff.mpr ⟨Nat.le_max_right _ _, hstart, ?_⟩
  -- The end is one of the two boundaries, whichever comes later.
  simp only [significantSpan]
  rcases Nat.le_total (t.significantStop t.span.stop) (t.significantStart t.span.start) with
    hle | hle
  · rwa [Nat.max_eq_right hle]
  · rwa [Nat.max_eq_left hle]

/-- The trimmed span of a tree covers whole characters. -/
theorem slice?_trimmedSpan_isSome (h : t.Sliceable cs) :
    (slice? cs (t.trimmedSpan cs)).isSome = true :=
  Text.slice?_trimmed_isSome (slice?_significantSpan_isSome h)

end Tree

end Fexpr
