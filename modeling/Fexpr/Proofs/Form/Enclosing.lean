import Fexpr.Proofs.Form.Expressions
import Fexpr.Proofs.Form.Trimming
import Fexpr.Proofs.Grammar.Limit

/-!
# The expressions around a form

Each node of a tree stands inside a number of expressions (`Tree.Enclosed`), which in a nested tree
is one number only (`Tree.Nested.enclosed_unique`). The operands of a call stand inside one
expression more than the call (`Form.IsInside.operand`), and no expression of an accepted text
stands inside `maxNesting` others (`Program.lt_of_enclosed`).
-/

namespace Fexpr

open Grammar

/-! ## Nodes and the expressions around them -/

theorem Grammar.Rule.opened_comm (r r' : Rule) (n : Nat) :
    r.opened (r'.opened n) = r'.opened (r.opened n) := by
  unfold Rule.opened
  split <;> split <;> rfl

namespace Tree

/-- A tree that is left of some trees without the empty nodes is what is left of one of them. -/
theorem exists_of_mem_prunes {r : Rule} {s : Text.Span} {us ts : List Tree}
    (h : node r s us ∈ prunes ts) : ∃ children, node r s children ∈ ts ∧ us = prunes children := by
  rw [prunes_eq_flatMap] at h
  obtain ⟨⟨r', s', children⟩, ht, hmem⟩ := List.mem_flatMap.mp h
  by_cases hempty : s'.isEmpty = true
  · rw [prune, if_pos hempty] at hmem
    cases hmem
  · rw [prune, if_neg hempty] at hmem
    cases List.mem_singleton.mp hmem
    exact ⟨children, ht, rfl⟩

theorem sizeOf_le_of_mem_nodes {t u : Tree} (h : u ∈ t.nodes) : sizeOf u ≤ sizeOf t := by
  induction t with
  | node r s cs ih =>
    rw [nodes_node] at h
    rcases List.mem_cons.mp h with rfl | h
    · exact Nat.le_refl _
    · obtain ⟨c, hc, hu⟩ := List.mem_flatMap.mp h
      have hle := ih c hc hu
      have hlt := List.sizeOf_lt_of_mem hc
      simp only [node.sizeOf_spec]
      omega

namespace Enclosed

variable {n : Nat} {u c : Tree} {ts : List Tree}

/-- A child stands inside what its parent stands in, and inside its parent. -/
theorem child (h : Enclosed n u ts) (hc : c ∈ u.children) : Enclosed (u.rule.opened n) c ts := by
  induction h with
  | @here t ts h =>
    obtain ⟨r, s, children⟩ := t
    exact .inside h (.here hc)
  | @inside n t r s children ts h _ ih =>
    rw [Rule.opened_comm]
    exact .inside h (ih hc)

theorem exists_mem (h : Enclosed n u ts) : ∃ t ∈ ts, Enclosed n u [t] := by
  cases h with
  | here h => exact ⟨u, h, .here List.mem_cons_self⟩
  | inside h hu => exact ⟨_, h, .inside List.mem_cons_self hu⟩

theorem mem_nodes {t : Tree} (h : Enclosed n u [t]) : u ∈ t.nodes := by
  induction t generalizing n with
  | node r s cs ih =>
    cases h with
    | here h =>
      rw [List.mem_singleton.mp h]
      exact mem_nodes_self _
    | inside h hu =>
      cases List.mem_singleton.mp h
      obtain ⟨c, hc, hu⟩ := hu.exists_mem
      exact mem_nodes_of_mem_children hc (ih c hc hu)

/-- Leaving out the empty nodes takes no expression away from around a node. -/
theorem exists_of_prunes (h : Enclosed n u (prunes ts)) :
    ∃ v, Enclosed n v ts ∧ v.rule = u.rule := by
  generalize hus : prunes ts = us at h
  induction h generalizing ts with
  | @here t us h =>
    obtain ⟨r, s, children⟩ := t
    obtain ⟨children', hmem, -⟩ := exists_of_mem_prunes (hus ▸ h)
    exact ⟨_, .here hmem, rfl⟩
  | inside h _ ih =>
    obtain ⟨children', hmem, hchildren⟩ := exists_of_mem_prunes (hus ▸ h)
    obtain ⟨v, hv, hrule⟩ := ih hchildren.symm
    exact ⟨v, .inside hmem hv, hrule⟩

end Enclosed

/-- A node is no node of its own children. -/
theorem not_enclosed_children {n : Nat} {r : Rule} {s : Text.Span} {cs : List Tree} :
    ¬ Enclosed n (node r s cs) cs := by
  intro h
  obtain ⟨c, hc, h⟩ := h.exists_mem
  have hle := sizeOf_le_of_mem_nodes h.mem_nodes
  have hlt := List.sizeOf_lt_of_mem hc
  simp only [node.sizeOf_spec] at hle
  omega

/-- In a nested tree a node stands at one place, inside one number of expressions. -/
theorem Nested.enclosed_unique {t u : Tree} {n m : Nat} (ht : t.Nested) (h : Enclosed n u [t])
    (h' : Enclosed m u [t]) : n = m := by
  induction t generalizing n m with
  | node r s cs ih =>
    cases h with
    | here hmem =>
      cases List.mem_singleton.mp hmem
      cases h' with
      | here _ => rfl
      | inside hmem hu =>
        cases List.mem_singleton.mp hmem
        exact absurd hu not_enclosed_children
    | inside hmem hu =>
      cases List.mem_singleton.mp hmem
      cases h' with
      | here hmem =>
        cases List.mem_singleton.mp hmem
        exact absurd hu not_enclosed_children
      | inside hmem hu' =>
        cases List.mem_singleton.mp hmem
        obtain ⟨c, hc, hu⟩ := hu.exists_mem
        obtain ⟨d, hd, hu'⟩ := hu'.exists_mem
        have hnested : ∀ c ∈ cs, c.Nested :=
          fun c hc => ht.of_mem (mem_nodes_of_mem_children hc c.mem_nodes_self)
        -- A node covers something, so it is in one child only.
        obtain rfl : c = d := by
          by_contra hcd
          have hapart := ht.children_apart hc hd hcd
          have hlt := ((hnested c hc).of_mem hu.mem_nodes).start_lt_stop
          have hin := (hnested c hc).start_le_and_stop_le hu.mem_nodes
          have hin' := (hnested d hd).start_le_and_stop_le hu'.mem_nodes
          omega
        rw [ih c hc (hnested c hc) hu hu']

end Tree

/-! ## Forms and the expressions around them -/

namespace Form

/-- The form stands in the tree inside `n` expressions. -/
def IsInside (source : Source) (root : Tree) (n : Nat) (f : Form) : Prop :=
  ∃ u, Tree.Enclosed n u [root] ∧ f.IsAt source u

/-- A call stands at an expression. -/
theorem IsAt.rule_eq_expression {source : Source} {u : Tree} {operator : Name} {items : List Item}
    {span : Text.Span} (h : (call operator items span).IsAt source u) : u.rule = .expression := by
  have hshape : Shape.expression = .ofRule u.rule := h.shape
  revert hshape
  cases u.rule <;> simp [Shape.ofRule]

end Form

section Scripts

variable {source : Source} {p : Program} {root : Tree} {n : Nat}

/-- The content of a value stands inside what the value stands in. -/
theorem Tree.Enclosed.content {u v c : Tree} (hu : Tree.Enclosed n u [root]) (hv : v ∈ u.children)
    (hrule : v.rule = .value) (hc : v.firstSignificant? = some c) :
    Tree.Enclosed (u.rule.opened n) c [root] := by
  have hcontent := (hu.child hv).child (List.mem_of_find?_eq_some hc)
  rwa [hrule] at hcontent

/-- The tree of an accepted text is nested, and its form stands inside no expression. -/
theorem Program.exists_isInside (hp : Program.compile source = .ok p) :
    ∃ root f, p = ⟨source, [root], .ok f⟩ ∧ root.Nested ∧ f.IsInside source root 0 := by
  obtain ⟨i, j, t, f, hscript, rfl⟩ := Program.exists_scriptAt_of_compile hp
  obtain ⟨root, -, -, -, hroot, -⟩ := hscript.reads
  obtain ⟨v, hv, hrule, c, hc, hat⟩ := hscript.value.content hscript.isIn
  refine ⟨root, f, by rw [hroot], hscript.nested hroot, c, ?_, hat⟩
  have hnode : root.rule = .script ∧ v ∈ root.children := by
    obtain ⟨r, s, us⟩ := root
    obtain ⟨children, hnode, rfl⟩ := Tree.exists_of_mem_prunes (hroot ▸ List.mem_singleton.mpr rfl)
    cases List.mem_singleton.mp hnode
    have hmem : ∀ g e : Tree, v ∈ Tree.prunes [g, t, e] := by
      intro g e
      rw [prunes_cons, prunes_cons t, hv]
      simp
    exact ⟨rfl, hmem _ _⟩
  have hself : Tree.Enclosed 0 root [root] := .here List.mem_cons_self
  have hcontent := hself.content hnode.2 hrule hc
  rwa [hnode.1] at hcontent

/-- An operand stands inside its call, and inside what the call stands in. -/
theorem Form.IsInside.operand (hp : Program.compile source = .ok p) (hroot : p.tree? = some root)
    {operator : Name} {items : List Item} {span : Text.Span} {f : Form}
    (h : (call operator items span).IsInside source root n) (hf : .operand f ∈ items) :
    f.IsInside source root (n + 1) := by
  obtain ⟨u, hu, hat⟩ := h
  have hrule := hat.rule_eq_expression
  obtain ⟨operator', items', hread, hwrites⟩ :=
    Program.exists_writes hp hroot hu.mem_nodes hrule
  cases hat.read.symm.trans hread
  -- Each operand is the content of a value among the children of the expression.
  have hmem : f ∈ items.filterMap Item.operand? := List.mem_filterMap.mpr ⟨_, hf, rfl⟩
  obtain ⟨v, hv, c, hc, hat'⟩ := exists_mem_of_forall₂ hwrites.operands hmem
  obtain ⟨hv, hvalue⟩ := List.mem_filter.mp hv
  have hinside := hu.content hv (by simpa using hvalue) hc
  rw [hrule] at hinside
  exact ⟨c, hinside, hat'⟩

/-- The expressions of an accepted text do not nest deeper than the grammar allows. -/
theorem Program.lt_of_enclosed (hp : Program.compile source = .ok p) (hroot : p.tree? = some root)
    {u : Tree} (h : Tree.Enclosed n u [root]) (hrule : u.rule = .expression) : n < maxNesting := by
  obtain ⟨i, j, t, f, hscript, rfl⟩ := Program.exists_scriptAt_of_compile hp
  obtain ⟨root', -, -, -, hprunes, -⟩ := hscript.reads
  obtain rfl : root' = root := by
    rw [Program.tree?, hprunes] at hroot
    exact Option.some.inj hroot
  rw [← hprunes] at h
  obtain ⟨⟨r, s, children⟩, hv, hr⟩ := h.exists_of_prunes
  obtain rfl : r = .expression := hr.trans hrule
  have hlt : 0 + n < maxNesting := hscript.derives.callsWithin n s children hv
  rwa [Nat.zero_add] at hlt

end Scripts

end Fexpr
