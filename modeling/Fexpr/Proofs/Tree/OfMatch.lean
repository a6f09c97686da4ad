import Fexpr.Proofs.Grammar.Matching
import Fexpr.Proofs.Text.Boundary

/-!
# Trees of matches

The trees of a derivation hold every application of a rule. Without the applications that cover
nothing they are nested (`Derives.holds_row`), and their tokens are those of the log. So the log of
an accepted text is that of a nested tree, which covers the whole text by whole characters
(`exists_tree_of_matchScript`), and reducing the log gives this tree back.
-/

namespace Fexpr

open Text (Span byteSize IsBoundary slice?)
open Grammar

namespace Tree

/-! ## Nodes -/

/-- The nodes of a tree, each before its children. -/
def nodes (t : Tree) : List Tree := (t.preorder 0).map Prod.snd

theorem map_snd_preorders {cs : List Tree}
    (h : ∀ c ∈ cs, ∀ d, (c.preorder d).map Prod.snd = c.nodes) (d : Nat) :
    (preorders d cs).map Prod.snd = cs.flatMap nodes := by
  induction cs with
  | nil => rw [preorders, List.map_nil, List.flatMap_nil]
  | cons c cs ih =>
    rw [preorders, List.map_append, h c List.mem_cons_self, List.flatMap_cons,
      ih fun c' hc' => h c' (List.mem_cons_of_mem c hc')]

/-- The nodes are the same from whatever depth they are listed. -/
theorem map_snd_preorder (t : Tree) : ∀ d, (t.preorder d).map Prod.snd = t.nodes := by
  induction t with
  | node r s cs ih =>
    intro d
    rw [nodes, preorder, preorder, List.map_cons, List.map_cons, map_snd_preorders ih,
      map_snd_preorders ih]

@[simp] theorem nodes_node (r : Rule) (s : Span) (cs : List Tree) :
    (node r s cs).nodes = node r s cs :: cs.flatMap nodes := by
  rw [nodes, preorder, List.map_cons, map_snd_preorders fun c _ => map_snd_preorder c]

theorem mem_nodes_self (t : Tree) : t ∈ t.nodes := by
  cases t
  rw [nodes_node]
  exact List.mem_cons_self

theorem mem_nodes_of_mem_children {t c u : Tree} (hc : c ∈ t.children) (hu : u ∈ c.nodes) :
    u ∈ t.nodes := by
  cases t
  rw [nodes_node]
  exact List.mem_cons_of_mem _ (List.mem_flatMap.mpr ⟨c, hc, hu⟩)

theorem mem_nodes_trans {t u v : Tree} (hv : v ∈ t.nodes) (hu : u ∈ v.nodes) : u ∈ t.nodes := by
  induction t with
  | node r s cs ih =>
    rw [nodes_node] at hv
    rcases List.mem_cons.mp hv with rfl | hv
    · exact hu
    · obtain ⟨c, hc, hv⟩ := List.mem_flatMap.mp hv
      exact mem_nodes_of_mem_children hc (ih c hc hv)

theorem mem_postorders_iff {ts : List Tree} {token : Token} :
    token ∈ postorders ts ↔ ∃ t ∈ ts, token ∈ t.postorder := by
  induction ts with
  | nil => simp
  | cons t ts ih => simp [ih]

theorem mem_postorder_iff {t : Tree} {token : Token} :
    token ∈ t.postorder ↔ ∃ u ∈ t.nodes, token = ⟨u.rule, u.span⟩ := by
  induction t with
  | node r s children ih =>
    rw [postorder_node, nodes_node, List.mem_append, List.mem_singleton, mem_postorders_iff]
    constructor
    · rintro (⟨c, hc, htoken⟩ | rfl)
      · obtain ⟨u, hu, rfl⟩ := (ih c hc).mp htoken
        exact ⟨u, List.mem_cons_of_mem _ (List.mem_flatMap.mpr ⟨c, hc, hu⟩), rfl⟩
      · exact ⟨_, List.mem_cons_self, rfl⟩
    · rintro ⟨u, hu, rfl⟩
      rcases List.mem_cons.mp hu with rfl | hu
      · exact .inr rfl
      · obtain ⟨c, hc, hu⟩ := List.mem_flatMap.mp hu
        exact .inl ⟨c, hc, (ih c hc).mpr ⟨u, hu, rfl⟩⟩

/-! ## Leaving out what covers nothing -/

mutual

/-- A tree without the nodes that cover nothing. -/
def prune : Tree → List Tree
  | node r s cs => if s.isEmpty then [] else [node r s (prunes cs)]

/-- Several trees without the nodes that cover nothing. -/
def prunes : List Tree → List Tree
  | [] => []
  | t :: ts => t.prune ++ prunes ts

end

@[simp] theorem prunes_nil : prunes [] = [] := by
  rw [prunes]

@[simp] theorem prunes_append (ts us : List Tree) : prunes (ts ++ us) = prunes ts ++ prunes us := by
  induction ts with
  | nil => rw [prunes_nil, List.nil_append, List.nil_append]
  | cons t ts ih => rw [List.cons_append, prunes, ih, prunes, List.append_assoc]

theorem prunes_empty {r : Rule} {a b : Nat} {cs : List Tree} (h : a = b) :
    prunes [node r ⟨a, b⟩ cs] = [] := by
  rw [prunes, prunes_nil, prune, if_pos ((Span.isEmpty_iff _).mpr h), List.append_nil]

theorem prunes_node {r : Rule} {a b : Nat} {cs : List Tree} (h : a ≠ b) :
    prunes [node r ⟨a, b⟩ cs] = [node r ⟨a, b⟩ (prunes cs)] := by
  rw [prunes, prunes_nil, prune, if_neg (by rwa [Span.isEmpty_iff]), List.append_nil]

/-! ## Trees in a row -/

/-- The trees are nested and follow each other between the offsets `lo` and `hi`. -/
def Row (lo : Nat) (ts : List Tree) (hi : Nat) : Prop :=
  (∀ t ∈ ts, t.Nested ∧ lo ≤ t.span.start ∧ t.span.stop ≤ hi) ∧
    ts.Pairwise fun a b => a.span.stop ≤ b.span.start

namespace Row

variable {lo mid hi : Nat} {ts us : List Tree}

theorem nil : Row lo [] hi := ⟨by simp, List.Pairwise.nil⟩

theorem append (h : Row lo ts mid) (h' : Row mid us hi) (hlo : lo ≤ mid) (hhi : mid ≤ hi) :
    Row lo (ts ++ us) hi := by
  constructor
  · intro t ht
    rcases List.mem_append.mp ht with ht | ht
    · obtain ⟨hn, hstart, hstop⟩ := h.1 t ht
      exact ⟨hn, hstart, by omega⟩
    · obtain ⟨hn, hstart, hstop⟩ := h'.1 t ht
      exact ⟨hn, by omega, hstop⟩
  · refine List.pairwise_append.mpr ⟨h.2, h'.2, fun a ha b hb => ?_⟩
    have hstop := (h.1 a ha).2.2
    have hstart := (h'.1 b hb).2.1
    omega

theorem node (r : Rule) (h : Row lo ts hi) (hlt : lo < hi) : Row lo [.node r ⟨lo, hi⟩ ts] hi := by
  refine ⟨fun t ht => ?_, List.pairwise_singleton _ _⟩
  obtain rfl := List.mem_singleton.mp ht
  refine ⟨.node hlt (fun c hc => ?_) h.2 (fun c hc => (h.1 c hc).1), Nat.le_refl _, Nat.le_refl _⟩
  exact (Span.contains_iff _ _).mpr (h.1 c hc).2

theorem eq_nil (h : Row lo ts lo) : ts = [] := by
  cases ts with
  | nil => rfl
  | cons t ts =>
    obtain ⟨hn, hstart, hstop⟩ := h.1 t List.mem_cons_self
    have hlt := hn.start_lt_stop
    omega

end Row

end Tree

namespace Grammar.Derives

open Fexpr.Tree

variable {mayOpen : Nat → Prop} {n : Nat} {c : Clause} {i : Cursor} {e : Ending}

/-- The applied rules that cover something are in a row over the match, and they are the ones that
are logged. -/
theorem holds_row (h : Derives mayOpen n c i e) :
    e.Holds fun j ts => i.offset ≤ j.offset ∧ Row i.offset (prunes ts) j.offset ∧
      postorders (prunes ts) = logged ts := by
  refine h.holds_of_closed (M := fun i ts j => i.offset ≤ j.offset ∧
    Row i.offset (prunes ts) j.offset ∧ postorders (prunes ts) = logged ts) ?_ ?_ ?_ ?_
  · intro i
    rw [prunes_nil]
    exact ⟨Nat.le_refl _, .nil, by rw [postorders_nil, logged_nil]⟩
  · intro i c j hij
    rw [prunes_nil]
    exact ⟨hij.offset_le, .nil, by rw [postorders_nil, logged_nil]⟩
  · rintro i j k ts us ⟨hij, hrow, hlog⟩ ⟨hjk, hrow', hlog'⟩
    rw [prunes_append]
    refine ⟨Nat.le_trans hij hjk, hrow.append hrow' hij hjk, ?_⟩
    rw [postorders_append, hlog, hlog', logged_append]
  · rintro n r i j ts - ⟨hle, hrow, hlog⟩
    by_cases hij : i.offset = j.offset
    · -- Nothing was covered, so nothing inside covered anything either.
      have hts : prunes ts = [] := Row.eq_nil (hij ▸ hrow)
      rw [prunes_empty hij]
      exact ⟨hle, .nil, by rw [logged_empty hij, ← hlog, hts]⟩
    · rw [prunes_node hij]
      refine ⟨hle, .node r hrow (Nat.lt_of_le_of_ne hle hij), ?_⟩
      rw [logged_node hij, ← hlog, postorders_cons, postorders_nil, postorder_node,
        List.append_nil]

/-- What holds of every application of a rule that covers something, at the places that a match can
come to, holds of all nodes that are left of the derivation. -/
theorem forall_nodes {Q : Cursor → Prop} {P : Tree → Prop}
    (hQ : ∀ i cs j, Q i → i.Across cs j → Q j)
    (hP : ∀ n r i j ts, Q i → Derives mayOpen n (.of r) i (.success j ts) →
      i.offset ≠ j.offset → P (.node r ⟨i.offset, j.offset⟩ (prunes ts)))
    {j : Cursor} {ts : List Tree} (h : Derives mayOpen n c i (.success j ts)) (hi : Q i) :
    ∀ t ∈ prunes ts, ∀ u ∈ t.nodes, P u := by
  have hall : (Ending.success j ts).Holds fun j ts =>
      Q i → Q j ∧ ∀ t ∈ prunes ts, ∀ u ∈ t.nodes, P u := by
    refine h.holds_of_closed
      (M := fun i ts j => Q i → Q j ∧ ∀ t ∈ prunes ts, ∀ u ∈ t.nodes, P u) ?_ ?_ ?_ ?_
    · intro i hi
      rw [prunes_nil]
      exact ⟨hi, fun t ht => nomatch ht⟩
    · intro i c j hij hi
      rw [prunes_nil]
      exact ⟨hQ i [c] j hi hij, fun t ht => nomatch ht⟩
    · intro i j k ts us hp hq hi
      obtain ⟨hj, hts⟩ := hp hi
      obtain ⟨hk, hus⟩ := hq hj
      rw [prunes_append]
      exact ⟨hk, List.forall_mem_append.mpr ⟨hts, hus⟩⟩
    · intro n r i j ts hr ih hi
      obtain ⟨hj, hts⟩ := ih hi
      refine ⟨hj, ?_⟩
      by_cases hij : i.offset = j.offset
      · rw [prunes_empty hij]
        exact fun t ht => nomatch ht
      · rw [prunes_node hij]
        intro t ht u hu
        obtain rfl := List.mem_singleton.mp ht
        rw [nodes_node] at hu
        rcases List.mem_cons.mp hu with rfl | hu
        · exact hP n r i j ts hi hr hij
        · obtain ⟨c, hc, hu⟩ := List.mem_flatMap.mp hu
          exact hts c hc u hu
  exact (hall hi).2

end Grammar.Derives

/-- The place `i` lies in the text `cs`. -/
def Grammar.Cursor.IsIn (cs : List Char) (i : Cursor) : Prop :=
  ∃ pre, cs = pre ++ i.rest ∧ i.offset = byteSize pre

theorem Grammar.Cursor.IsIn.across {cs ds : List Char} {i j : Cursor} (h : i.IsIn cs)
    (hij : i.Across ds j) : j.IsIn cs := by
  obtain ⟨pre, hcs, hoff⟩ := h
  refine ⟨pre ++ ds, ?_, ?_⟩
  · rw [hcs, hij.1, List.append_assoc]
  · rw [hij.2, hoff, Text.byteSize_append]

/-- The text between two places can be cut out. -/
theorem Grammar.Cursor.IsIn.slice? {cs text : List Char} {i j : Cursor} (hi : i.IsIn cs)
    (h : i.Across text j) : slice? cs ⟨i.offset, j.offset⟩ = some text := by
  obtain ⟨pre, hcs, hoff⟩ := hi
  refine Text.slice?_eq_some_iff.mpr ⟨pre, j.rest, ?_, hoff, ?_⟩
  · rw [hcs, h.1]
  · rw [h.2, hoff]

/-- The span of a match can be cut out of the text. -/
theorem Grammar.Derives.slice?_isSome {mayOpen : Nat → Prop} {n : Nat} {c : Clause} {i j : Cursor}
    {ts : List Tree} {cs : List Char} (h : Derives mayOpen n c i (.success j ts))
    (hi : i.IsIn cs) : (slice? cs ⟨i.offset, j.offset⟩).isSome = true := by
  obtain ⟨ds, hds⟩ := h.across
  obtain ⟨pre, hcs, hoff⟩ := hi
  obtain ⟨pre', hcs', hoff'⟩ := hds |> Cursor.IsIn.across ⟨pre, hcs, hoff⟩
  exact Text.slice?_isSome_iff.mpr ⟨hds.offset_le, ⟨pre, _, hcs, hoff⟩, ⟨pre', _, hcs', hoff'⟩⟩

/-- The derivation of an accepted text is a tree of the rule of scripts over the whole text. -/
theorem Grammar.DerivesScript.exists_node {cs : List Char} {ts : List Tree}
    (h : DerivesScript cs (.success ⟨[], byteSize cs⟩ ts)) :
    ∃ us, ts = [.node .script ⟨0, byteSize cs⟩ us] ∧ 0 < byteSize cs := by
  have hlt : 0 < byteSize cs := by
    obtain ⟨ds, hds, hne⟩ := h.across_ne_nil (by decide)
    exact hds.offset_lt hne
  cases h with
  | rule _ _ => exact ⟨_, rfl, hlt⟩

/-- The log of an accepted text is that of a nested tree over the whole text, all of whose nodes
cover whole characters. -/
theorem exists_tree_of_matchScript {cs : List Char} {log : List Token}
    (h : matchScript cs = .ok log) :
    ∃ us, DerivesScript cs (.success ⟨[], byteSize cs⟩ [.node .script ⟨0, byteSize cs⟩ us]) ∧
      (Tree.node .script ⟨0, byteSize cs⟩ (Tree.prunes us)).Nested ∧
      log = (Tree.node .script ⟨0, byteSize cs⟩ (Tree.prunes us)).postorder ∧
      ∀ u ∈ (Tree.node .script ⟨0, byteSize cs⟩ (Tree.prunes us)).nodes,
        (slice? cs u.span).isSome = true := by
  obtain ⟨ts, hd, hlog⟩ := derivesScript_of_matchScript_ok h
  obtain ⟨us, rfl, hpos⟩ := hd.exists_node
  have hprune : Tree.prunes [.node .script ⟨0, byteSize cs⟩ us] =
      [.node .script ⟨0, byteSize cs⟩ (Tree.prunes us)] := Tree.prunes_node (Nat.ne_of_lt hpos)
  obtain ⟨-, hrow, htokens⟩ := hd.holds_row
  have hnodes := hd.forall_nodes (Q := Cursor.IsIn cs)
    (P := fun u => (slice? cs u.span).isSome = true)
    (fun i ds j hi hij => hi.across hij)
    (fun n r i j ts hi hr _ => hr.slice?_isSome hi) ⟨[], rfl, rfl⟩
  rw [hprune] at hrow htokens hnodes
  refine ⟨us, hd, (hrow.1 _ (List.mem_singleton.mpr rfl)).1, ?_,
    hnodes _ (List.mem_singleton.mpr rfl)⟩
  rw [hlog, ← htokens, Tree.postorders_cons, Tree.postorders_nil, List.append_nil]

/-- Reduction inverts logging: a nested tree comes back from its log, and nothing else is left over;
and the log of an accepted text is that of a nested tree of the rule of scripts, which covers the
whole text and whose nodes cover whole characters. -/
theorem ofTokens_inverts_logging :
    (∀ t : Tree, t.Nested → Forest.ofTokens t.postorder = [t]) ∧
    (∀ (cs : List Char) (log : List Token), matchScript cs = .ok log →
      ∃ t : Tree, t.Nested ∧ log = t.postorder ∧ t.rule = .script ∧ t.span = ⟨0, byteSize cs⟩ ∧
        ∀ u ∈ t.nodes, (slice? cs u.span).isSome = true) := by
  constructor
  · intro t ht
    exact Forest.ofTokens_postorder ht
  · intro cs log h
    obtain ⟨us, _, hnested, hlog, hnodes⟩ := exists_tree_of_matchScript h
    exact ⟨_, hnested, hlog, rfl, rfl, hnodes⟩

/-- A call with spacing at both ends, whose inner spans are equal to those around them. -/
theorem ofTokens_inverts_logging_call :
    ∃ log t, matchScript [' ', '(', 'f', ' ', '1', ')', ' '] = .ok log ∧ t.Nested ∧
      Forest.ofTokens log = [t] ∧ t.span = ⟨0, 7⟩ := by
  cases hm : matchScript [' ', '(', 'f', ' ', '1', ')', ' '] with
  | error e =>
    have hok : (matchScript [' ', '(', 'f', ' ', '1', ')', ' ']).toBool = true := by
      decide +kernel
    rw [hm] at hok
    cases hok
  | ok log =>
    obtain ⟨t, hnested, rfl, _, hspan, _⟩ := ofTokens_inverts_logging.2 _ log hm
    exact ⟨_, t, rfl, hnested, ofTokens_inverts_logging.1 t hnested, hspan⟩

end Fexpr
