import Fexpr.Proofs.Tree.OfMatch

/-!
# The shape of trees

A clause allows a row of rules if a match of it can leave nodes of these rules, in this order; a
rule that may match the empty text may leave none. A tree is `Licensed` if at every node the clause
of its rule allows the rules of the children. The tree of a match is licensed
(`Derives.licensed_prunes`), so the clauses of the grammar tell which children a node has.
-/

namespace Fexpr

open Grammar

namespace Grammar.Clause

/-- Whether a match of the clause can leave nodes of the rules `l`, in this order. -/
def Allows : Clause → List Rule → Prop
  | empty, l => l = []
  | char _, l => l = []
  | seq p q, l => ∃ a b, l = a ++ b ∧ p.Allows a ∧ q.Allows b
  | alt p q, l => p.Allows l ∨ q.Allows l
  | star p, l => ∃ parts : List (List Rule), l = parts.flatten ∧ ∀ a ∈ parts, p.Allows a
  | plus p, l =>
    ∃ (a : List Rule) (parts : List (List Rule)), l = a ++ parts.flatten ∧ p.Allows a ∧
      ∀ b ∈ parts, p.Allows b
  | opt p, l => l = [] ∨ p.Allows l
  | not _, l => l = []
  | rule r, l => l = [r] ∨ l = [] ∧ (rule r).nullable = true

theorem allows_orElse {p q : Clause} {l : List Rule} :
    (p <|> q).Allows l ↔ p.Allows l ∨ q.Allows l := Iff.rfl

theorem allows_one {c : Char} {l : List Rule} : (one c).Allows l ↔ l = [] := Iff.rfl

theorem allows_star {p : Clause} {l : List Rule} :
    (star p).Allows l ↔ ∃ parts : List (List Rule), l = parts.flatten ∧ ∀ a ∈ parts, p.Allows a :=
  Iff.rfl

theorem allows_plus {p : Clause} {l : List Rule} :
    (plus p).Allows l ↔ ∃ (a : List Rule) (parts : List (List Rule)), l = a ++ parts.flatten ∧
      p.Allows a ∧ ∀ b ∈ parts, p.Allows b := Iff.rfl

/-- A rule that does not match the empty text always leaves a node. -/
theorem allows_rule {r : Rule} {l : List Rule} (h : (rule r).nullable = false) :
    (rule r).Allows l ↔ l = [r] := by
  simp [Allows, h]

theorem allows_spacing {l : List Rule} : (rule .spacing).Allows l ↔ l = [.spacing] ∨ l = [] := by
  simp [Allows, nullable]

/-! ## What the clauses of single rules allow -/

/-- The rules of atoms. -/
def IsAtom (r : Rule) : Prop := r = .literal ∨ r = .identifierAttr ∨ r = .identifier

theorem allows_atom {l : List Rule} :
    (rule .literal <|> rule .identifierAttr <|> rule .identifier).Allows l ↔
      ∃ r, IsAtom r ∧ l = [r] := by
  rw [allows_orElse, allows_orElse, allows_rule rfl, allows_rule rfl, allows_rule rfl]
  simp [IsAtom]

theorem of_script_allows {l : List Rule} (h : (of .script).Allows l) :
    ∃ rest, l = .value :: rest ∨ l = .spacing :: .value :: rest := by
  obtain ⟨_, eot, rfl, ⟨spacing, _, rfl, hspacing, hvalue⟩, _⟩ := h
  rw [allows_rule rfl] at hvalue
  subst hvalue
  rcases allows_spacing.mp hspacing with rfl | rfl
  · exact ⟨eot, .inr rfl⟩
  · exact ⟨eot, .inl rfl⟩

theorem of_value_allows {l : List Rule} (h : (of .value).Allows l) :
    ∃ r rest, (r = .expression ∨ IsAtom r) ∧ l = r :: rest := by
  obtain ⟨_, spacing, rfl, hform, _⟩ := h
  rcases allows_orElse.mp hform with hcall | hatom
  · rw [allows_rule rfl] at hcall
    exact ⟨.expression, spacing, .inl rfl, by rw [hcall]; rfl⟩
  · obtain ⟨r, hr, rfl⟩ := allows_atom.mp hatom
    exact ⟨r, spacing, .inr hr, rfl⟩

/-- An expression has an operator behind a parenthesis, lists of options and values, and another
parenthesis. -/
theorem of_expression_allows {l : List Rule} (h : (of .expression).Allows l) :
    ∃ items, (∀ r ∈ items, r = .optionList ∨ r = .value) ∧
      l = .lpar :: .operator :: (items ++ [.rpar]) := by
  obtain ⟨_, _, rfl, ⟨_, items, rfl, ⟨_, _, rfl, hlpar, hop⟩, hitems⟩, hrpar⟩ := h
  rw [allows_rule rfl] at hlpar hop hrpar
  subst hlpar hop hrpar
  refine ⟨items, ?_, by simp⟩
  obtain ⟨parts, rfl, hparts⟩ := allows_star.mp hitems
  intro r hr
  obtain ⟨part, hpart, hr⟩ := List.mem_flatten.mp hr
  rcases allows_orElse.mp (hparts part hpart) with hoptions | hvalue
  · rw [allows_rule rfl] at hoptions
    subst hoptions
    exact .inl (List.mem_singleton.mp hr)
  · rw [allows_rule rfl] at hvalue
    subst hvalue
    exact .inr (List.mem_singleton.mp hr)

/-- A repetition of a rule that does not match the empty text leaves nodes of this rule. -/
theorem eq_of_mem_of_plus_allows {r r' : Rule} {l : List Rule} (hr : (rule r).nullable = false)
    (h : (plus (rule r)).Allows l) (hmem : r' ∈ l) : r' = r := by
  obtain ⟨first, parts, rfl, hfirst, hparts⟩ := allows_plus.mp h
  rw [allows_rule hr] at hfirst
  rcases List.mem_append.mp hmem with hmem | hmem
  · rw [hfirst] at hmem
    exact List.mem_singleton.mp hmem
  · obtain ⟨part, hpart, hmem⟩ := List.mem_flatten.mp hmem
    have hone := hparts part hpart
    rw [allows_rule hr] at hone
    rw [hone] at hmem
    exact List.mem_singleton.mp hmem

theorem of_identifierAttr_allows {l : List Rule} (h : (of .identifierAttr).Allows l) :
    ∃ rest, (∀ r ∈ rest, r = .attr) ∧ l = .identifier :: rest := by
  obtain ⟨_, rest, rfl, hbase, hrest⟩ := h
  rw [allows_rule rfl] at hbase
  subst hbase
  exact ⟨rest, fun r hr => eq_of_mem_of_plus_allows rfl hrest hr, rfl⟩

/-- An option has a name and an atom, and nothing else but spacing. -/
theorem of_option_allows {l : List Rule} (h : (of .option).Allows l) :
    ∃ r rest, IsAtom r ∧ l = .identifier :: r :: rest := by
  obtain ⟨_, spacing, rfl, ⟨_, _, rfl, ⟨_, _, rfl, hmark, hkey⟩, hatom⟩, _⟩ := h
  obtain ⟨_, _, rfl, hhash, hcolon⟩ := hmark
  rw [allows_one] at hhash hcolon
  rw [allows_rule rfl] at hkey
  obtain ⟨r, hr, rfl⟩ := allows_atom.mp hatom
  subst hhash hcolon hkey
  exact ⟨r, spacing, hr, rfl⟩

theorem of_attr_allows {l : List Rule} (h : (of .attr).Allows l) : l = [.identifier] := by
  obtain ⟨_, _, rfl, hdot, hkey⟩ := h
  rw [allows_one] at hdot
  rw [allows_rule rfl] at hkey
  rw [hdot, hkey, List.nil_append]

theorem of_literal_allows {l : List Rule} (h : (of .literal).Allows l) :
    ∃ r, r ∈ [.floatLiteral, .longStringLiteral, .boolLiteral, .stringLiteral, .nilLiteral,
      Rule.integerLiteral] ∧ l = [r] := by
  simp only [of, allows_orElse, allows_rule (r := .floatLiteral) rfl,
    allows_rule (r := .longStringLiteral) rfl, allows_rule (r := .boolLiteral) rfl,
    allows_rule (r := .stringLiteral) rfl, allows_rule (r := .nilLiteral) rfl,
    allows_rule (r := .integerLiteral) rfl] at h
  simpa using h

end Grammar.Clause

namespace Tree

/-- At every node the clause of its rule allows the rules of the children. -/
def Licensed (t : Tree) : Prop :=
  ∀ u ∈ t.nodes, (Clause.of u.rule).Allows (u.children.map rule)

theorem Licensed.allows {t : Tree} {r : Rule} (h : t.Licensed) (hr : t.rule = r) :
    (Clause.of r).Allows (t.children.map rule) :=
  hr ▸ h t t.mem_nodes_self

theorem Licensed.of_mem {t c : Tree} (h : t.Licensed) (hc : c ∈ t.children) : c.Licensed :=
  fun u hu => h u (mem_nodes_of_mem_children hc hu)

end Tree

namespace Grammar.Derives

open Fexpr.Tree

variable {mayOpen : Nat → Prop} {n : Nat} {c : Clause} {i : Cursor} {e : Ending}

/-- A match leaves nodes that its clause allows. -/
theorem holds_allows (h : Derives mayOpen n c i e) :
    e.Holds fun _ ts => c.Allows ((prunes ts).map Tree.rule) := by
  have hnil : (prunes []).map Tree.rule = [] := by rw [prunes_nil, List.map_nil]
  have happend : ∀ ts us : List Tree, (prunes (ts ++ us)).map Tree.rule =
      (prunes ts).map Tree.rule ++ (prunes us).map Tree.rule := by
    intro ts us
    rw [prunes_append, List.map_append]
  induction h with
  | empty => exact hnil
  | char _ => exact hnil
  | seq _ _ ihp ihq => exact ⟨_, _, happend _ _, ihp, ihq⟩
  | altLeft _ ihp => exact .inl ihp
  | @altRight _ _ _ _ e _ _ _ ihq =>
    cases e with
    | failure => trivial
    | success j ts => exact .inr ihq
  | starEnd _ _ => exact ⟨[], hnil, by simp⟩
  | @starMore _ _ _ _ _ ts _ _ _ ihp ihs =>
    obtain ⟨parts, hparts, hall⟩ := ihs
    refine ⟨(prunes ts).map Tree.rule :: parts, ?_, fun a ha => ?_⟩
    · rw [happend, hparts, List.flatten_cons]
    · rcases List.mem_cons.mp ha with rfl | ha
      · exact ihp
      · exact hall a ha
  | plus _ _ ihp ihs =>
    obtain ⟨parts, hparts, hall⟩ := ihs
    exact ⟨_, parts, by rw [happend, hparts], ihp, hall⟩
  | opt _ ihp => exact .inr ihp
  | optNone _ _ => exact .inl hnil
  | not _ _ => exact hnil
  | @rule n r i j ts ho hr _ =>
    by_cases hij : i.offset = j.offset
    · -- Only a rule that may match the empty text can have done so.
      have hnullable : (Clause.rule r).nullable = true := by
        cases hr' : (Clause.rule r).nullable with
        | true => rfl
        | false =>
          obtain ⟨cs, hcs, hne⟩ := (Derives.rule ho hr).across_ne_nil hr'
          exact absurd hij (Nat.ne_of_lt (hcs.offset_lt hne))
      exact .inr ⟨by rw [prunes_empty hij, List.map_nil], hnullable⟩
    · exact .inl (by rw [prunes_node hij, List.map_singleton]; rfl)
  | _ => trivial

/-- What is left of a derivation is licensed. -/
theorem licensed_prunes {j : Cursor} {ts : List Tree} (h : Derives mayOpen n c i (.success j ts)) :
    ∀ t ∈ prunes ts, t.Licensed :=
  h.forall_nodes (Q := fun _ => True)
    (P := fun u => (Clause.of u.rule).Allows (u.children.map Tree.rule))
    (fun _ _ _ _ _ => trivial) (fun _ _ _ _ _ _ hr _ => hr.holds_allows) trivial

end Grammar.Derives

end Fexpr
