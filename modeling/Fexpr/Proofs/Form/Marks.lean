import Fexpr.Proofs.Form.Expressions

/-!
# The places that errors name

When a form is evaluated, some of the names in it are looked up (`Form.names`), and it can fail at
some spans (`Form.marks`). What is inside its operands does not belong to it.

In a written form each of these names is a word that stands at an identifier, and each of these
spans is the trimmed span of a node and not empty (`Written.marks`).
-/

namespace Fexpr

open Text (Span)
open Grammar

namespace Form

/-- The names that are looked up for an atom. -/
def Atom.names : Atom → List Name
  | literal _ => []
  | name n => [n]
  | path base _ _ => [base]

/-- Where evaluating an atom can fail, besides its names. -/
def Atom.marks : Atom → List Span
  | literal l => [l.span]
  | name _ => []
  | path _ attributes _ => attributes.map Attribute.span

/-- The names that are looked up for a form itself: of a call, its operator and those in the values
of its options. -/
def names : Form → List Name
  | atom a => a.names
  | call operator items _ => operator :: (items.filterMap Item.option?).flatMap (·.2.names)

/-- Where evaluating a form itself can fail, besides its names. -/
def marks : Form → List Span
  | atom a => a.marks
  | call _ items span => span :: (items.filterMap Item.option?).flatMap (·.2.marks)

/-- The name is a word, and an identifier under the node stands for it. -/
def Name.StandsIn (source : Source) (u : Tree) (name : Name) : Prop :=
  isWord name.text.toList = true ∧ ∃ v ∈ u.nodes, v.rule = .identifier ∧ name.IsAt source v

end Form

/-- The span is not empty, and it is the trimmed span of a node under `u`. -/
def Tree.Marks (source : Source) (u : Tree) (s : Span) : Prop :=
  s.start < s.stop ∧ ∃ v ∈ u.nodes, v.trimmedSpan source.chars = s

theorem Form.Name.StandsIn.trans {source : Source} {t u : Tree} {name : Name}
    (h : name.StandsIn source u) (hu : u ∈ t.nodes) : name.StandsIn source t := by
  obtain ⟨hword, v, hv, hat⟩ := h
  exact ⟨hword, v, Tree.mem_nodes_trans hu hv, hat⟩

theorem Tree.Marks.trans {source : Source} {t u : Tree} {s : Span} (h : u.Marks source s)
    (hu : u ∈ t.nodes) : t.Marks source s := by
  obtain ⟨hlt, v, hv, hspan⟩ := h
  exact ⟨hlt, v, mem_nodes_trans hu hv, hspan⟩

namespace Grammar

open Form

variable {mayOpen : Nat → Prop} {n : Nat} {i j k : Cursor} {source : Source}

/-! ## Atoms -/

theorem NameAt.standsIn {w : List Char} {u : Tree} (h : NameAt w i j k) (hi : i.IsIn source.chars)
    (hu : nodeAt .identifier i k (Tree.prunes [gapNode j k]) ∈ u.nodes) :
    (nameForm w i j).StandsIn source u := by
  refine ⟨?_, _, hu, rfl, h.isAt hi⟩
  show isWord (String.ofList w).toList = true
  rw [String.toList_ofList]
  exact h.word

theorem AtomAt.standsIn {t u : Tree} {a : Atom} {name : Name} (h : AtomAt i j k t a)
    (hi : i.IsIn source.chars) (hu : Tree.prunes [t] = [u]) (hname : name ∈ a.names) :
    name.StandsIn source u := by
  have hne : i.offset ≠ k.offset := by
    obtain ⟨⟨text, hacross, htight⟩, -⟩ := h.reads hi
    have hlt := hacross.offset_lt htight.ne_nil
    have hle := (h.isIn hi).2
    omega
  cases h with
  | literal => cases hname
  | name h _ _ =>
    obtain rfl := List.mem_singleton.mp hname
    rw [h.prunes] at hu
    refine h.standsIn hi ?_
    rw [← (List.cons.inj hu).1]
    exact Tree.mem_nodes_self _
  | path h _ _ =>
    obtain rfl := List.mem_singleton.mp hname
    rw [prunes_nodeAt hne, prunes_cons, h.prunes, List.singleton_append] at hu
    refine h.standsIn hi ?_
    rw [← (List.cons.inj hu).1]
    exact Tree.mem_nodes_of_mem_children List.mem_cons_self (Tree.mem_nodes_self _)

/-- A step of a path that is read has the trimmed span of its node. -/
theorem span_of_attributeOf {cs : List Char} {t : Tree} {a : Attribute}
    (h : attributeOf cs t = .ok a) : a.span = t.trimmedSpan cs := by
  unfold attributeOf at h
  split at h
  · cases h
  · obtain ⟨text, -, rfl⟩ := exists_of_map_eq_ok h
    rfl

theorem span_of_literalOf {cs : List Char} {t : Tree} {l : Literal}
    (h : literalOf cs t = .ok l) : l.span = t.trimmedSpan cs := by
  unfold literalOf at h
  split at h
  · cases h
  · split at h
    · cases h
      rfl
    · cases h
  · obtain ⟨text, -, rfl⟩ := exists_of_map_eq_ok h
    rfl

/-- Each step of a path is written at a node of its own. -/
theorem AttributesAt.marks {ts : List Tree} {as : List Attribute} {a : Attribute}
    (h : AttributesAt i j k ts as) (hi : i.IsIn source.chars) (ha : a ∈ as) :
    a.span.start < a.span.stop ∧ ∃ v ∈ Tree.prunes ts, v.trimmedSpan source.chars = a.span := by
  have hstep : ∀ {i j k l : Cursor} {w : List Char}, i.IsIn source.chars → i.Across ['.'] j →
      NameAt w j k l → i.offset < k.offset ∧
      ∃ v ∈ Tree.prunes [nodeAt .attr i l [nameNode j k l]],
        v.trimmedSpan source.chars = ⟨i.offset, k.offset⟩ := by
    intro i j k l w hi hdot hname
    obtain ⟨⟨text, hacross, htight⟩, c, hprunes, -, -, -, hread⟩ := attribute_reads hi hdot hname
    refine ⟨hacross.offset_lt htight.ne_nil, c, ?_, (span_of_attributeOf hread).symm⟩
    rw [hprunes]
    exact List.mem_singleton.mpr rfl
  induction h with
  | last hdot hname _ =>
    obtain rfl := List.mem_singleton.mp ha
    exact hstep hi hdot hname
  | more hdot hname _ ih =>
    rw [prunes_cons]
    rcases List.mem_cons.mp ha with rfl | ha
    · obtain ⟨hlt, v, hv, hspan⟩ := hstep hi hdot hname
      exact ⟨hlt, v, List.mem_append_left _ hv, hspan⟩
    · obtain ⟨hlt, v, hv, hspan⟩ := ih (hname.isIn (hi.across hdot)) ha
      exact ⟨hlt, v, List.mem_append_right _ hv, hspan⟩

theorem AtomAt.marks {t u : Tree} {a : Atom} {s : Span} (h : AtomAt i j k t a)
    (hi : i.IsIn source.chars) (hu : Tree.prunes [t] = [u]) (hs : s ∈ a.marks) :
    u.Marks source s := by
  obtain ⟨⟨text, hacross, htight⟩, hspan, u', hu', hatom, -, hread⟩ := h.reads hi
  obtain rfl : u' = u := (List.cons.inj (hu'.symm.trans hu)).1
  have hlt := hacross.offset_lt htight.ne_nil
  have hne : i.offset ≠ k.offset := by
    have hle := (h.isIn hi).2
    omega
  cases h with
  | literal =>
    obtain rfl := List.mem_singleton.mp hs
    refine ⟨hlt, ?_⟩
    -- The literal is read from the only node under that of the atom.
    rw [prunes_nodeAt hne, prunes_nodeAt hne] at hu
    rw [← (List.cons.inj hu).1] at hread ⊢
    obtain ⟨l, hl, heq⟩ := exists_of_map_eq_ok (f := Atom.literal) hread
    cases heq
    refine ⟨_, ?_, (span_of_literalOf hl).symm⟩
    exact Tree.mem_nodes_of_mem_children List.mem_cons_self (Tree.mem_nodes_self _)
  | name => cases hs
  | path h _ hattrs =>
    obtain ⟨a, ha, rfl⟩ := List.mem_map.mp hs
    obtain ⟨hlt, v, hv, hspan⟩ := hattrs.marks (h.isIn hi) ha
    refine ⟨hlt, v, ?_, hspan⟩
    rw [prunes_nodeAt hne, prunes_cons] at hu
    rw [← (List.cons.inj hu).1]
    exact Tree.mem_nodes_of_mem_children (List.mem_append_right _ hv) (Tree.mem_nodes_self _)

/-! ## Values -/

/-- The atom is written at a node under what is left of the trees without the empty nodes. -/
def WritesAtom (cs : List Char) (ts : List Tree) (a : Atom) : Prop :=
  ∃ i j k t, AtomAt i j k t a ∧ i.IsIn cs ∧
    ∀ v ∈ Tree.prunes [t], ∃ w ∈ Tree.prunes ts, v ∈ w.nodes

theorem WritesAtom.mono {cs : List Char} {ts us : List Tree} {a : Atom} (h : WritesAtom cs ts a)
    (hsub : ∀ w ∈ Tree.prunes ts, ∃ w' ∈ Tree.prunes us, w ∈ w'.nodes) : WritesAtom cs us a := by
  obtain ⟨i, j, k, t, hat, hi, hnodes⟩ := h
  refine ⟨i, j, k, t, hat, hi, fun v hv => ?_⟩
  obtain ⟨w, hw, hvw⟩ := hnodes v hv
  obtain ⟨w', hw', hww'⟩ := hsub w hw
  exact ⟨w', hw', Tree.mem_nodes_trans hww' hvw⟩

theorem WritesAtom.append_left {cs : List Char} {ts : List Tree} {a : Atom}
    (h : WritesAtom cs ts a) (us : List Tree) : WritesAtom cs (ts ++ us) a := by
  refine h.mono fun w hw => ⟨w, ?_, w.mem_nodes_self⟩
  rw [Tree.prunes_append]
  exact List.mem_append_left _ hw

theorem WritesAtom.append_right {cs : List Char} {us : List Tree} {a : Atom}
    (h : WritesAtom cs us a) (ts : List Tree) : WritesAtom cs (ts ++ us) a := by
  refine h.mono fun w hw => ⟨w, ?_, w.mem_nodes_self⟩
  rw [Tree.prunes_append]
  exact List.mem_append_right _ hw

/-- What is written under the children of a node is written under the node. -/
theorem WritesAtom.node {cs : List Char} {ts : List Tree} {a : Atom} (h : WritesAtom cs ts a)
    (r : Rule) (hij : i.offset ≠ j.offset) : WritesAtom cs [nodeAt r i j ts] a := by
  refine h.mono fun w hw => ⟨nodeAt r i j (Tree.prunes ts), ?_, ?_⟩
  · rw [prunes_nodeAt hij]
    exact List.mem_singleton.mpr rfl
  · exact Tree.mem_nodes_of_mem_children hw w.mem_nodes_self

theorem OptionAt.writesAtom {t : Tree} {item : Item} {o : Name × Atom} {cs : List Char}
    (h : OptionAt i j t item) (hi : i.IsIn cs) (ho : item.option? = some o) :
    WritesAtom cs [t] o.2 := by
  have hlt := (h.reads hi).2.1
  cases h with
  | @mk _ _ l _ _ _ _ t a hmark hkey hvalue hgap =>
    cases ho
    have hvalue : WritesAtom cs [t] a :=
      ⟨l, _, _, t, hvalue, hkey.isIn (hi.across hmark), fun v hv => ⟨v, hv, v.mem_nodes_self⟩⟩
    exact ((hvalue.append_left [_]).append_right [_]).node .option (Nat.ne_of_lt hlt)

theorem OptionsAt.writesAtom {ts : List Tree} {items : List Item} {o : Name × Atom}
    {cs : List Char} (h : OptionsAt i j ts items) (hi : i.IsIn cs)
    (ho : o ∈ items.filterMap Item.option?) : WritesAtom cs ts o.2 := by
  induction h with
  | last h _ =>
    obtain ⟨item, hitem, ho⟩ := List.mem_filterMap.mp ho
    rw [List.mem_singleton.mp hitem] at ho
    exact h.writesAtom hi ho
  | more h _ ih =>
    obtain ⟨item, hitem, hoption⟩ := List.mem_filterMap.mp ho
    rcases List.mem_cons.mp hitem with rfl | hitem
    · exact (h.writesAtom hi hoption).append_left _
    · exact (ih (h.reads hi).1 (List.mem_filterMap.mpr ⟨item, hitem, hoption⟩)).append_right [_]

/-- The value of an option in a row is written under the nodes of the row. -/
theorem Written.writesAtom {part : Part} {ts : List Tree} {items : List Item} {o : Name × Atom}
    {cs : List Char} (h : Written mayOpen n part i j ts items) (hi : i.IsIn cs)
    (ho : o ∈ items.filterMap Item.option?) : WritesAtom cs ts o.2 := by
  induction h with
  | atom | call | nil => cases ho
  | operand h _ ihv ihr =>
    rw [List.filterMap_append] at ho
    rcases List.mem_append.mp ho with ho | ho
    · exact (ihv hi ho).append_left _
    · exact (ihr (h.isIn hi) ho).append_right _
  | options h _ ihr =>
    obtain ⟨hj, hlt, -⟩ := h.reads hi
    rw [List.filterMap_append] at ho
    rcases List.mem_append.mp ho with ho | ho
    · exact ((h.writesAtom hi ho).node .optionList (Nat.ne_of_lt hlt)).append_left _
    · exact (ihr hj ho).append_right [_]

/-- An atom that is written under trees has its node there. -/
theorem WritesAtom.exists_node {ts : List Tree} {a : Atom} (h : WritesAtom source.chars ts a) :
    ∃ w ∈ Tree.prunes ts, ∃ u ∈ w.nodes,
      (∀ name ∈ a.names, name.StandsIn source u) ∧ ∀ s ∈ a.marks, u.Marks source s := by
  obtain ⟨i, j, k, t, hat, hi, hsub⟩ := h
  obtain ⟨u, hu, -, -⟩ := hat.isAt hi
  obtain ⟨w, hw, huw⟩ := hsub u (by rw [hu]; exact List.mem_singleton.mpr rfl)
  exact ⟨w, hw, u, huw, fun name => hat.standsIn hi hu, fun s => hat.marks hi hu⟩

/-- The operator of a call and the values of its options are under the node of the call. -/
theorem Written.call_marks {a l m o p q : Cursor} {w : List Char} {ts : List Tree}
    {items : List Item} {u : Tree} (hrow : Written mayOpen n .row m o ts items)
    (hi : i.IsIn source.chars) (hopen : i.Across ['('] a) (hgap : Spaced a k) (hop : NameAt w k l m)
    (hclose : o.Across [')'] p) (hgap' : Spaced p q)
    (hu : u = nodeAt .expression i q (Tree.prunes (nodeAt .lpar i k [gapNode i i, gapNode a k] ::
      nodeAt .operator k m [nameNode k l m] ::
        (ts ++ [nodeAt .rpar o q [gapNode o o, gapNode p q]]))))
    (hspan : u.trimmedSpan source.chars = ⟨i.offset, p.offset⟩) :
    (∀ name ∈ names (.call (nameForm w k l) items ⟨i.offset, p.offset⟩), name.StandsIn source u) ∧
      ∀ s ∈ marks (.call (nameForm w k l) items ⟨i.offset, p.offset⟩), u.Marks source s := by
  have hk := hgap.isIn (hi.across hopen)
  have hm := hop.isIn hk
  rw [prunes_call hopen hgap hop hclose hgap'] at hu
  have hoperator : nodeAt .operator k m [nodeAt .identifier k m (Tree.prunes [gapNode l m])] ∈
      u.children := by
    rw [hu]
    exact List.mem_cons_of_mem _ List.mem_cons_self
  have hoption : ∀ {x}, x ∈ items.filterMap Item.option? → ∃ u' ∈ u.nodes,
      (∀ name ∈ x.2.names, name.StandsIn source u') ∧ ∀ s ∈ x.2.marks, u'.Marks source s := by
    intro x hx
    obtain ⟨c, hc, u', hu', hstands, hmarks⟩ := (hrow.writesAtom hm hx).exists_node
    refine ⟨u', Tree.mem_nodes_of_mem_children ?_ hu', hstands, hmarks⟩
    rw [hu]
    exact List.mem_cons_of_mem _ (List.mem_cons_of_mem _ (List.mem_append_left _ hc))
  constructor
  · intro name hname
    rcases List.mem_cons.mp hname with rfl | hname
    · refine hop.standsIn hk (Tree.mem_nodes_of_mem_children hoperator ?_)
      exact Tree.mem_nodes_of_mem_children List.mem_cons_self (Tree.mem_nodes_self _)
    · obtain ⟨x, hx, hname⟩ := List.mem_flatMap.mp hname
      obtain ⟨u', hu', hstands, -⟩ := hoption hx
      exact (hstands name hname).trans hu'
  · intro s hs
    rcases List.mem_cons.mp hs with rfl | hs
    · obtain ⟨text, hmo⟩ := hrow.derives.across
      exact ⟨call_offset_lt hopen hgap hop hmo hclose, u, u.mem_nodes_self, hspan⟩
    · obtain ⟨x, hx, hs⟩ := List.mem_flatMap.mp hs
      obtain ⟨u', hu', -, hmarks⟩ := hoption hx
      exact (hmarks s hs).trans hu'

/-- A written form stands at a node, and what is looked up for it and where it can fail are under
that node. -/
theorem Written.marks {ts : List Tree} {f : Form}
    (h : Written mayOpen n .value i j ts [.operand f]) (hi : i.IsIn source.chars) :
    ∃ v u, Tree.prunes ts = [v] ∧ u ∈ v.nodes ∧ f.IsAt source u ∧
      (∀ name ∈ f.names, name.StandsIn source u) ∧ ∀ s ∈ f.marks, u.Marks source s := by
  have hne := Nat.ne_of_lt h.offset_lt
  obtain ⟨v, hv, -, u, hu, hat⟩ := h.content hi
  refine ⟨v, u, hv, ?_, hat, ?_⟩
  · exact Tree.mem_nodes_of_mem_children (List.mem_of_find?_eq_some hu) (Tree.mem_nodes_self _)
  -- The node is what is left of the first tree under the value.
  have hfirst : ∀ {t g u' : Tree}, ts = [nodeAt .value i j [t, g]] → Tree.prunes [t] = [u'] →
      u'.rule ≠ .spacing → u = u' := by
    intro t g u' hts hu' hrule
    rw [hts, prunes_nodeAt hne, prunes_cons, hu', List.singleton_append] at hv
    have hfind : (u' :: Tree.prunes [g]).find? (·.rule != .spacing) = some u := by
      rw [← (List.cons.inj hv).1] at hu
      exact hu
    rw [List.find?_cons_of_pos (by simpa using hrule)] at hfind
    exact (Option.some.inj hfind).symm
  cases h with
  | atom ha _ =>
    obtain ⟨u', hu', hrule, -⟩ := ha.isAt hi
    obtain rfl := hfirst rfl hu' hrule
    exact ⟨fun name => ha.standsIn hi hu', fun s => ha.marks hi hu'⟩
  | call ho hopen hgap hop hrow hclose hgap' =>
    have hu' := hfirst rfl (prunes_nodeAt hne) Rule.noConfusion
    exact hrow.call_marks hi hopen hgap hop hclose hgap' hu' hat.span.symm

end Grammar

end Fexpr
