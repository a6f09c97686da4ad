import Fexpr.Proofs.Form.Script
import Mathlib.Data.List.Forall2

/-!
# The expressions of a script

What is written in an expression can be read off the children of its node (`Tree.Writes`): the name
of the operator, one operand for each value, and the options, whichever lists they are grouped into
and whatever stands between these lists.

Every expression in the tree of an accepted text is read as the call with these parts
(`Program.exists_writes`).
-/

namespace Fexpr

open Text (Span)
open Grammar

/-! ## What is written in an expression -/

namespace Form

/-- The shape of what a node of the rule stands for. -/
def Shape.ofRule : Rule → Shape
  | .expression => .expression
  | .identifier => .identifier
  | .identifierAttr => .identifier
  | _ => .literal

/-- The name stands at the node: it has the trimmed span of the node and the text there. -/
structure Name.IsAt (source : Source) (v : Tree) (name : Name) : Prop where
  span : name.span = v.trimmedSpan source.chars
  text : name.text = source.slice name.span

/-- The form is what the node stands for. It has the trimmed span of the node and the shape of its
rule. -/
structure IsAt (source : Source) (v : Tree) (f : Form) : Prop where
  read : ofTree source.chars v = .ok f
  span : f.span = v.trimmedSpan source.chars
  shape : f.shape = .ofRule v.rule

/-- The operand that an item is, if it is one. -/
def Item.operand? : Item → Option Form
  | .operand f => some f
  | .option _ _ => none

/-- The key and the value of an option, if the item is one. -/
def Item.option? : Item → Option (Name × Atom)
  | .operand _ => none
  | .option key value => some (key, value)

end Form

/-- The content of a value is what the form stands for. -/
def Tree.WritesOperand (source : Source) (v : Tree) (f : Form) : Prop :=
  ∃ c, v.firstSignificant? = some c ∧ f.IsAt source c

/-- Besides spacing an option has two parts, the key and the value. -/
def Tree.WritesOption (source : Source) (v : Tree) (o : Form.Name × Form.Atom) : Prop :=
  ∃ key value, v.children.filter (·.rule != .spacing) = [key, value] ∧ o.1.IsAt source key ∧
    Form.IsAt source value (.atom o.2)

/-- What is written in the expression `u`: its operator, its operands in order, and its options in
order, whichever lists of options they stand in. -/
structure Tree.Writes (source : Source) (u : Tree) (operator : Form.Name) (operands : List Form)
    (options : List (Form.Name × Form.Atom)) : Prop where
  operator : ∃ o v, u.children.find? (·.rule == .operator) = some o ∧ o.children = [v] ∧
    operator.IsAt source v
  operands : List.Forall₂ (WritesOperand source) (u.children.filter (·.rule == .value)) operands
  options : List.Forall₂ (WritesOption source)
    ((u.children.filter (·.rule == .optionList)).flatMap Tree.children) options

/-! ## Lists that correspond to each other -/

/-- Lists that correspond to each other are split at corresponding places. -/
theorem exists_split_of_forall₂ {α β : Type} {R : α → β → Prop} {l : List α} {before after : List β}
    {b : β} (h : List.Forall₂ R l (before ++ b :: after)) :
    ∃ before' a after', l = before' ++ a :: after' ∧ R a b ∧ List.Forall₂ R after' after := by
  induction before generalizing l with
  | nil =>
    obtain ⟨a, after', hab, hafter, rfl⟩ := List.forall₂_cons_right_iff.mp h
    exact ⟨[], a, after', rfl, hab, hafter⟩
  | cons c before ih =>
    obtain ⟨d, l, -, hl, rfl⟩ := List.forall₂_cons_right_iff.mp h
    obtain ⟨before', a, after', rfl, hab, hafter⟩ := ih hl
    exact ⟨d :: before', a, after', rfl, hab, hafter⟩

theorem exists_mem_of_forall₂ {α β : Type} {R : α → β → Prop} {l : List α} {l' : List β} {b : β}
    (h : List.Forall₂ R l l') (hb : b ∈ l') : ∃ a ∈ l, R a b := by
  obtain ⟨before, after, rfl⟩ := List.append_of_mem hb
  obtain ⟨before', a, after', rfl, hab, -⟩ := exists_split_of_forall₂ h
  exact ⟨a, by simp, hab⟩

/-! ## Nodes and what is left of them -/

namespace Tree

/-- A node that is left without the empty nodes is what is left of a node of the same rule. -/
theorem exists_of_mem_prune {t t' u : Tree} (ht' : t' ∈ t.prune) (hu : u ∈ t'.nodes) :
    ∃ v ∈ t.nodes, prunes [v] = [u] ∧ v.rule = u.rule := by
  induction t generalizing t' with
  | node r s cs ih =>
    by_cases hempty : s.isEmpty = true
    · rw [prune, if_pos hempty] at ht'
      cases ht'
    · have hprune : (node r s cs).prune = [node r s (prunes cs)] := by rw [prune, if_neg hempty]
      rw [hprune] at ht'
      obtain rfl := List.mem_singleton.mp ht'
      rw [nodes_node] at hu
      rcases List.mem_cons.mp hu with rfl | hu
      · refine ⟨_, mem_nodes_self _, ?_, rfl⟩
        rw [prunes_eq_flatMap, List.flatMap_singleton, hprune]
      · obtain ⟨c', hc', hu⟩ := List.mem_flatMap.mp hu
        rw [prunes_eq_flatMap] at hc'
        obtain ⟨c, hc, hc'⟩ := List.mem_flatMap.mp hc'
        obtain ⟨v, hv, hvu⟩ := ih c hc hc' hu
        exact ⟨v, mem_nodes_of_mem_children hc hv, hvu⟩

end Tree

/-! ## Where expressions stand -/

namespace Grammar

open Form

/-- A clause without calls leaves no expressions. -/
theorem Clause.Within.ne_expression {F : (Char → Bool) → Prop} {G : Rule → Prop} {c : Clause}
    (h : c.Within F G) : c.Within (fun _ => True) (· ≠ .expression) := by
  induction h with
  | empty => exact .empty
  | char _ => exact .char trivial
  | seq _ _ ihp ihq => exact .seq ihp ihq
  | alt _ _ ihp ihq => exact .alt ihp ihq
  | star _ ih => exact .star ih
  | plus _ ih => exact .plus ih
  | opt _ ih => exact .opt ih
  | not _ ih => exact .not ih
  | rule _ hcall _ ih => exact .rule hcall hcall ih

namespace Clause.Within

theorem lexicalRule {r : Rule} (hr : decide (r ≠ .expression) = true)
    (h : Within (fun _ => True) (· ≠ .expression) (.of r)) :
    Within (fun _ => True) (· ≠ .expression) (.rule r) :=
  .rule (of_decide_eq_true hr) (of_decide_eq_true hr) h

theorem spacing : Within (fun _ => True) (· ≠ .expression) (.rule .spacing) := by
  have hchar : ∀ f, Within (fun _ => True) (· ≠ .expression) (.char f) := fun f => .char trivial
  exact .lexicalRule rfl (.star (.alt (.plus (hchar _)) (.seq (.seq (hchar _)
    (.star (.seq (.not (hchar _)) (hchar _)))) (.alt (hchar _) (.not (hchar _))))))

theorem identifier : Within (fun _ => True) (· ≠ .expression) (.rule .identifier) :=
  .lexicalRule rfl
    (.seq (.seq (.char trivial) (.star (.alt (.char trivial) (.char trivial)))) spacing)

theorem atom : Within (fun _ => True) (· ≠ .expression)
    (.rule .literal <|> .rule .identifierAttr <|> .rule .identifier) :=
  .alt literal.ne_expression (.alt (.lexicalRule rfl (.seq identifier
    (.plus (.lexicalRule rfl (.seq (.char trivial) identifier))))) identifier)

theorem option : Within (fun _ => True) (· ≠ .expression) (.rule .option) :=
  .lexicalRule rfl
    (.seq (.seq (.seq (.seq (.char trivial) (.char trivial)) identifier) atom) spacing)

end Clause.Within

section Nodes

variable {mayOpen : Nat → Prop} {n : Nat} {i j k : Cursor} {cs : List Char}

theorem AtomAt.rule_ne {t v : Tree} {a : Atom} (h : AtomAt i j k t a) (hv : v ∈ t.nodes) :
    v.rule ≠ .expression :=
  (h.lexes (fun _ => True) 0).forall_rule .atom t (List.mem_singleton.mpr rfl) v hv

theorem OptionsAt.rule_ne {ts : List Tree} {t v : Tree} {items : List Item}
    (h : OptionsAt i j ts items) (ht : t ∈ ts) (hv : v ∈ t.nodes) : v.rule ≠ .expression :=
  (h.lexes (fun _ => True) 0).forall_rule (.plus .option) t ht v hv

theorem rule_ne_of_mem_gapNode {v : Tree} (hv : v ∈ (gapNode i j).nodes) :
    v.rule ≠ .expression := by
  rw [gapNode, nodeAt, Tree.nodes_node, List.flatMap_nil, List.mem_singleton] at hv
  rw [hv]
  exact Rule.noConfusion

/-- A node that is no expression itself has none in it, if its children have none. -/
theorem rule_ne_of_mem_nodeAt {r : Rule} {children : List Tree} {v : Tree}
    (hr : r ≠ .expression) (hchildren : ∀ c ∈ children, ∀ v ∈ c.nodes, v.rule ≠ .expression)
    (hv : v ∈ (nodeAt r i j children).nodes) : v.rule ≠ .expression := by
  rw [nodeAt, Tree.nodes_node] at hv
  rcases List.mem_cons.mp hv with rfl | hv
  · exact hr
  · obtain ⟨c, hc, hv⟩ := List.mem_flatMap.mp hv
    exact hchildren c hc v hv

theorem rule_ne_of_mem_parenthesis {r : Rule} {k l m o : Cursor} {v : Tree} (hr : r ≠ .expression)
    (hv : v ∈ (nodeAt r i j [gapNode k l, gapNode m o]).nodes) : v.rule ≠ .expression := by
  refine rule_ne_of_mem_nodeAt hr (fun c hc v hv => ?_) hv
  simp only [List.mem_cons, List.not_mem_nil, or_false] at hc
  rcases hc with rfl | rfl <;> exact rule_ne_of_mem_gapNode hv

theorem NameAt.rule_ne {w : List Char} {v : Tree} (h : NameAt w i j k)
    (hv : v ∈ (nameNode i j k).nodes) : v.rule ≠ .expression :=
  (h.lexes (fun _ => True) 0).forall_rule .identifier _ (List.mem_singleton.mpr rfl) v hv

/-- An expression among the nodes of what is written is that of a written call. -/
theorem Written.exists_call {part : Part} {ts : List Tree} {items : List Item} {t v : Tree}
    (h : Written mayOpen n part i j ts items) (hi : i.IsIn cs) (ht : t ∈ ts) (hv : v ∈ t.nodes)
    (hrule : v.rule = .expression) :
    ∃ m k l f, Written mayOpen m .value k l [nodeAt .value k l [v, gapNode l l]] [.operand f] ∧
      k.IsIn cs := by
  induction h generalizing t with
  | atom ha hgap =>
    obtain rfl := List.mem_singleton.mp ht
    simp only [nodeAt, gapNode, Tree.nodes_node, List.flatMap_cons, List.flatMap_nil,
      List.append_nil, List.mem_cons, List.mem_append, List.not_mem_nil, or_false] at hv
    rcases hv with rfl | hv | rfl
    · cases hrule
    · exact absurd hrule (ha.rule_ne hv)
    · cases hrule
  | call ho hopen hgap hop hrow hclose hgap' ih =>
    obtain rfl := List.mem_singleton.mp ht
    have hm := hop.isIn (hgap.isIn (hi.across hopen))
    rw [nodeAt, Tree.nodes_node] at hv
    rcases List.mem_cons.mp hv with rfl | hv
    · cases hrule
    obtain ⟨c, hc, hv⟩ := List.mem_flatMap.mp hv
    simp only [List.mem_cons, List.not_mem_nil, or_false] at hc
    rcases hc with rfl | rfl
    · rw [nodeAt, Tree.nodes_node] at hv
      rcases List.mem_cons.mp hv with rfl | hv
      · exact ⟨_, _, _, _, .call ho hopen hgap hop hrow hclose hgap', hi⟩
      -- Besides the row there are the parentheses and the operator, with nothing but gaps in them.
      obtain ⟨c, hc, hv⟩ := List.mem_flatMap.mp hv
      simp only [List.mem_cons, List.mem_append, List.not_mem_nil, or_false] at hc
      rcases hc with rfl | rfl | hc | rfl
      · exact absurd hrule (rule_ne_of_mem_parenthesis Rule.noConfusion hv)
      · refine absurd hrule (rule_ne_of_mem_nodeAt Rule.noConfusion (fun c hc v hv => ?_) hv)
        rw [List.mem_singleton.mp hc] at hv
        exact hop.rule_ne hv
      · exact ih hm hc hv
      · exact absurd hrule (rule_ne_of_mem_parenthesis Rule.noConfusion hv)
    · exact absurd hrule (rule_ne_of_mem_gapNode hv)
  | nil _ => cases ht
  | operand h _ ihv ihr =>
    rcases List.mem_append.mp ht with ht | ht
    · exact ihv hi ht hv
    · exact ihr (h.isIn hi) ht hv
  | options h _ ihr =>
    rcases List.mem_cons.mp ht with rfl | ht
    · rw [nodeAt, Tree.nodes_node] at hv
      rcases List.mem_cons.mp hv with rfl | hv
      · cases hrule
      · obtain ⟨t, ht, hv⟩ := List.mem_flatMap.mp hv
        exact absurd hrule (h.rule_ne ht hv)
    · exact ihr (h.reads hi).1 ht hv

end Nodes

/-! ## What is read from an expression -/

section Reading

variable {mayOpen : Nat → Prop} {n : Nat} {i j k : Cursor} {source : Source}

theorem NameAt.isAt {w : List Char} (h : NameAt w i j k) (hi : i.IsIn source.chars) :
    (nameForm w i j).IsAt source (nodeAt .identifier i k (Tree.prunes [gapNode j k])) where
  span := (h.trimmedSpan hi).symm
  text := by
    show _ = String.ofList (Text.slice source.chars ⟨i.offset, j.offset⟩)
    rw [Text.slice, hi.slice? h.across]
    rfl

theorem shape_of_atomOf {cs : List Char} {u : Tree} {a : Atom} (hrule : Clause.IsAtom u.rule)
    (h : atomOf cs u = .ok a) : (Form.atom a).shape = .ofRule u.rule := by
  obtain ⟨r, s, children⟩ := u
  rcases hrule with hrule | hrule | hrule <;> obtain rfl : r = _ := hrule
  · cases children with
    | nil => cases h
    | cons inner rest =>
      obtain ⟨l, -, rfl⟩ := exists_of_map_eq_ok h
      rfl
  · cases children with
    | nil => cases h
    | cons base steps =>
      unfold atomOf at h
      dsimp only [Tree.rule, Tree.children] at h
      split at h
      · cases h
      · obtain ⟨as, -, rfl⟩ := exists_of_map_eq_ok h
        rfl
  · obtain ⟨name, -, rfl⟩ := exists_of_map_eq_ok h
    rfl

theorem AtomAt.isAt {t : Tree} {a : Atom} (h : AtomAt i j k t a) (hi : i.IsIn source.chars) :
    ∃ u, Tree.prunes [t] = [u] ∧ u.rule ≠ .spacing ∧ Form.IsAt source u (.atom a) := by
  obtain ⟨-, hspan, u, hprunes, hatom, hspan', hread⟩ := h.reads hi
  refine ⟨u, hprunes, ne_spacing_of_isAtom hatom, ?_, hspan.trans hspan'.symm,
    shape_of_atomOf hatom hread⟩
  rw [ofTree_eq_atomOf hatom, hread]
  rfl

theorem OptionAt.writes {t : Tree} {item : Item} (h : OptionAt i j t item)
    (hi : i.IsIn source.chars) :
    ∃ u o, Tree.prunes [t] = [u] ∧ item.option? = some o ∧ item.operand? = none ∧
      u.WritesOption source o := by
  have hlt := (h.reads hi).2.1
  cases h with
  | @mk l m o p q _ w t a hmark hkey hvalue hgap =>
    have hl := hi.across hmark
    obtain ⟨u, hprunes, hrule, hat⟩ := hvalue.isAt (hkey.isIn hl)
    have hchildren : Tree.prunes [nameNode l m o, t, gapNode q j] =
        nodeAt .identifier l o (Tree.prunes [gapNode m o]) :: u :: Tree.prunes [gapNode q j] := by
      rw [prunes_cons, prunes_cons t, hkey.prunes, hprunes]
      rfl
    have hgapless : (Tree.prunes [gapNode q j]).filter (·.rule != .spacing) = [] := by
      rcases prunes_gapNode_cases q j with ⟨-, hgap⟩ | hgap <;> rw [hgap] <;> rfl
    refine ⟨_, _, prunes_nodeAt (Nat.ne_of_lt hlt), rfl, rfl, _, u, ?_, hkey.isAt hl, hat⟩
    show (Tree.prunes [nameNode l m o, t, gapNode q j]).filter (·.rule != .spacing) = _
    rw [hchildren, List.filter_cons_of_pos (by rfl), List.filter_cons_of_pos (by simpa using hrule),
      hgapless]

theorem OptionsAt.writes {ts : List Tree} {items : List Item} (h : OptionsAt i j ts items)
    (hi : i.IsIn source.chars) :
    List.Forall₂ (Tree.WritesOption source) (Tree.prunes ts) (items.filterMap Item.option?) ∧
      items.filterMap Item.operand? = [] := by
  induction h with
  | last h _ =>
    obtain ⟨u, o, hprunes, ho, hno, hwrites⟩ := h.writes hi
    rw [hprunes, List.filterMap_cons_some ho, List.filterMap_cons_none hno]
    exact ⟨.cons hwrites .nil, rfl⟩
  | more h _ ih =>
    obtain ⟨u, o, hprunes, ho, hno, hwrites⟩ := h.writes hi
    obtain ⟨hoptions, hoperands⟩ := ih (h.reads hi).1
    rw [prunes_cons, hprunes, List.singleton_append, List.filterMap_cons_some ho,
      List.filterMap_cons_none hno]
    exact ⟨.cons hwrites hoptions, hoperands⟩

/-- The only tree of a written value has the form in it. -/
theorem Written.content {ts : List Tree} {f : Form}
    (h : Written mayOpen n .value i j ts [.operand f]) (hi : i.IsIn source.chars) :
    ∃ v, Tree.prunes ts = [v] ∧ v.rule = .value ∧ v.WritesOperand source f := by
  have hne := Nat.ne_of_lt h.offset_lt
  obtain ⟨t, k, u, hts, hu, hspacing, hspan, hread⟩ := h.reads hi
  have hshape : f.shape = .ofRule u.rule := by
    cases h with
    | atom ha _ =>
      obtain ⟨u', hu', -, hat⟩ := ha.isAt hi
      simp only [nodeAt, List.cons.injEq, Tree.node.injEq, true_and, and_true] at hts
      rw [hts.1, hu] at hu'
      rw [(List.cons.inj hu').1]
      exact hat.shape
    | call =>
      simp only [nodeAt, List.cons.injEq, Tree.node.injEq, true_and, and_true] at hts
      rw [← hts.1, ← nodeAt, prunes_nodeAt hne] at hu
      rw [← (List.cons.inj hu).1]
      rfl
  subst hts
  refine ⟨nodeAt .value i j (u :: Tree.prunes [gapNode k j]), ?_, rfl, u, ?_, hread, hspan.symm,
    hshape⟩
  · rw [prunes_nodeAt hne, prunes_cons, hu, List.singleton_append]
  · exact List.find?_cons_of_pos (by simpa using hspacing)

/-- A value or a row has one tree for each operand, and the trees of the options in its lists. -/
theorem Written.writes {part : Part} {ts : List Tree} {items : List Item}
    (h : Written mayOpen n part i j ts items) (hi : i.IsIn source.chars) :
    List.Forall₂ (Tree.WritesOperand source) ((Tree.prunes ts).filter (·.rule == .value))
      (items.filterMap Item.operand?) ∧
    List.Forall₂ (Tree.WritesOption source)
      (((Tree.prunes ts).filter (·.rule == .optionList)).flatMap Tree.children)
      (items.filterMap Item.option?) := by
  have hvalue : ∀ {n i j ts f}, Written mayOpen n .value i j ts [.operand f] →
      i.IsIn source.chars →
      List.Forall₂ (Tree.WritesOperand source) ((Tree.prunes ts).filter (·.rule == .value)) [f] ∧
      List.Forall₂ (Tree.WritesOption source)
        (((Tree.prunes ts).filter (·.rule == .optionList)).flatMap Tree.children) [] := by
    intro n i j ts f h hi
    obtain ⟨v, hv, hrule, hwrites⟩ := h.content hi
    rw [hv, List.filter_cons_of_pos (by simp [hrule]), List.filter_cons_of_neg (by simp [hrule])]
    exact ⟨.cons hwrites .nil, .nil⟩
  induction h with
  | atom ha hgap => exact hvalue (n := 0) (.atom ha hgap) hi
  | call ho hopen hgap hop hrow hclose hgap' _ =>
    exact hvalue (.call ho hopen hgap hop hrow hclose hgap') hi
  | nil _ =>
    rw [Tree.prunes_nil]
    exact ⟨.nil, .nil⟩
  | operand h _ ihv ihr =>
    obtain ⟨hoperands, hoptions⟩ := ihv hi
    obtain ⟨hoperands', hoptions'⟩ := ihr (h.isIn hi)
    simp only [Tree.prunes_append, List.filter_append, List.flatMap_append, List.filterMap_append]
    exact ⟨List.rel_append hoperands hoperands', List.rel_append hoptions hoptions'⟩
  | options h _ ihr =>
    obtain ⟨hj, hlt, -⟩ := h.reads hi
    obtain ⟨hoptions, hnone⟩ := h.writes hi
    obtain ⟨hoperands', hoptions'⟩ := ihr hj
    rw [prunes_cons, prunes_nodeAt (Nat.ne_of_lt hlt), List.singleton_append,
      List.filter_cons_of_neg (by exact Bool.false_ne_true),
      List.filter_cons_of_pos (by rfl), List.flatMap_cons, List.filterMap_append,
      List.filterMap_append, hnone, List.nil_append]
    exact ⟨hoperands', List.rel_append hoptions hoptions'⟩

/-- The node of a written call is read as the call, with what is written in it. -/
theorem Written.call_writes {ts : List Tree} {f : Form} {v g u : Tree}
    (h : Written mayOpen n .value i j ts [.operand f]) (hi : i.IsIn source.chars)
    (hts : ts = [nodeAt .value i j [v, g]]) (hrule : v.rule = .expression)
    (hu : Tree.prunes [v] = [u]) :
    ∃ operator items,
      ofTree source.chars u = .ok (.call operator items (u.trimmedSpan source.chars)) ∧
      u.Writes source operator (items.filterMap Item.operand?) (items.filterMap Item.option?) := by
  have hne := Nat.ne_of_lt h.offset_lt
  cases h with
  | atom ha _ =>
    simp only [nodeAt, List.cons.injEq, Tree.node.injEq, true_and, and_true] at hts
    rw [← hts.1] at hrule
    exact absurd hrule (ha.rule_ne (Tree.mem_nodes_self _))
  | @call _ _ a k l m o p _ w ts items ho hopen hgap hop hrow hclose hgap' =>
    simp only [nodeAt, List.cons.injEq, Tree.node.injEq, true_and, and_true] at hts
    rw [← hts.1] at hu
    have hk := hgap.isIn (hi.across hopen)
    have hm := hop.isIn hk
    obtain ⟨text, hmo⟩ := hrow.derives.across
    obtain ⟨u', hu', -, hspan, hread⟩ :=
      call_reads hi hopen hgap hop hmo hclose hgap' (hrow.itemsOf hm)
    obtain rfl : u' = u := (List.cons.inj (hu'.symm.trans hu)).1
    refine ⟨nameForm w k l, items, by rw [hspan]; exact hread, ?_⟩
    -- Of the nodes in the call neither the parentheses nor the operator are operands or options.
    rw [prunes_nodeAt hne, prunes_call hopen hgap hop hclose hgap'] at hu'
    have hchildren : u'.children = nodeAt .lpar i k (Tree.prunes [gapNode a k]) ::
        nodeAt .operator k m [nodeAt .identifier k m (Tree.prunes [gapNode l m])] ::
          (Tree.prunes ts ++ [nodeAt .rpar o j (Tree.prunes [gapNode p j])]) := by
      rw [← (List.cons.inj hu').1]
      rfl
    obtain ⟨hoperands, hoptions⟩ := hrow.writes hm
    constructor
    · exact ⟨_, _, by rw [hchildren]; rfl, rfl, hop.isAt hk⟩
    · rw [hchildren]
      simpa [nodeAt, Tree.rule] using hoperands
    · rw [hchildren]
      simpa [nodeAt, Tree.rule] using hoptions

end Reading

end Grammar

/-- Every expression in the tree of an accepted text is read as a call at its trimmed span, with the
operator, the operands and the options that are written in it. -/
theorem Program.exists_writes {source : Source} {p : Program} {tree u : Tree}
    (hp : Program.compile source = .ok p) (htree : p.tree? = some tree) (hu : u ∈ tree.nodes)
    (hrule : u.rule = .expression) :
    ∃ operator items,
      Form.ofTree source.chars u = .ok (.call operator items (u.trimmedSpan source.chars)) ∧
      u.Writes source operator (items.filterMap Form.Item.operand?)
        (items.filterMap Form.Item.option?) := by
  obtain ⟨i, j, t, f, hscript, rfl⟩ := Program.exists_scriptAt_of_compile hp
  have hmem : tree ∈ (scriptNode source.chars i t).prune := by
    have hmem : tree ∈ Tree.prunes [scriptNode source.chars i t] := List.mem_of_mem_head? htree
    rwa [Tree.prunes_eq_flatMap, List.flatMap_singleton] at hmem
  obtain ⟨v, hv, hvu, hrules⟩ := Tree.exists_of_mem_prune hmem hu
  rw [hrule] at hrules
  have hvt : v ∈ t.nodes := by
    rw [scriptNode, Tree.nodes_node] at hv
    rcases List.mem_cons.mp hv with rfl | hv
    · cases hrules
    · obtain ⟨c, hc, hvc⟩ := List.mem_flatMap.mp hv
      simp only [List.mem_cons, List.not_mem_nil, or_false] at hc
      rcases hc with rfl | rfl | rfl
      · exact absurd hrules (rule_ne_of_mem_gapNode hvc)
      · exact hvc
      · rw [Tree.nodes_node, List.flatMap_nil, List.mem_singleton] at hvc
        rw [hvc] at hrules
        cases hrules
  obtain ⟨m, k, l, f', hcall, hk⟩ :=
    hscript.value.exists_call hscript.isIn (List.mem_singleton.mpr rfl) hvt hrules
  exact hcall.call_writes hk rfl hrules hvu

end Fexpr
