import Fexpr.Proofs.Tree.Shape
import Fexpr.Proofs.Tree.Trimmed

/-!
# Reading forms from licensed trees

A licensed tree whose nodes cover whole characters lacks nothing that a form needs: each part of a
form is read without a fault, from the names and literals up to calls (`ofTree_eq_ok`).

`Form.Hands` tells which forms an evaluation can hand to procedures as operands. Each of them is
what a node of the tree stands for (`exists_node_of_hands`).
-/

namespace Fexpr

open Text (Span slice?)
open Grammar
open Grammar.Clause (IsAtom)

namespace Form

/-- Evaluating the first form can hand the second one to a procedure: it is an operand of a call in
it, at any depth. -/
inductive Hands : Form → Form → Prop
  | operand {operator : Name} {items : List Item} {span : Span} {g : Form}
      (h : .operand g ∈ items) : Hands (.call operator items span) g
  | inside {operator : Name} {items : List Item} {span : Span} {f g : Form}
      (h : .operand f ∈ items) (hg : Hands f g) : Hands (.call operator items span) g

/-- What an operand can hand over, the form with the operand can. -/
theorem Hands.trans {f g k : Form} (h : f.Hands g) (h' : g.Hands k) : f.Hands k := by
  induction h with
  | operand hmem => exact .inside hmem h'
  | inside hmem _ ih => exact .inside hmem (ih h')

variable {cs : List Char} {t : Tree}

/-! ## Names and literals -/

theorem trimmedText_eq_ok (hs : t.Sliceable cs) : ∃ text, trimmedText cs t = .ok text := by
  obtain ⟨text, htext⟩ := Option.isSome_iff_exists.mp (Tree.slice?_trimmedSpan_isSome hs)
  exact ⟨text, by rw [trimmedText, htext]⟩

theorem nameOf_eq_ok (hs : t.Sliceable cs) :
    ∃ n, nameOf cs t = .ok n ∧ n.span = t.trimmedSpan cs := by
  obtain ⟨text, htext⟩ := trimmedText_eq_ok hs
  exact ⟨⟨String.ofList text, t.trimmedSpan cs⟩, by rw [nameOf, htext]; rfl, rfl⟩

theorem literalOf_eq_ok (hs : t.Sliceable cs) {kind : LiteralKind}
    (hk : literalKind? t.rule = some kind) :
    ∃ l, literalOf cs t = .ok l ∧ l.span = t.trimmedSpan cs := by
  obtain ⟨text, htext⟩ := trimmedText_eq_ok hs
  obtain ⟨whole, hwhole⟩ := Option.isSome_iff_exists.mp (hs t t.mem_nodes_self)
  by_cases hlong : kind = .longString
  · subst hlong
    exact ⟨⟨.longString, whole, t.trimmedSpan cs⟩, by rw [literalOf, hk]; simp [hwhole], rfl⟩
  · refine ⟨⟨kind, text, t.trimmedSpan cs⟩, ?_, rfl⟩
    rw [literalOf, hk]
    cases kind <;> simp_all [Except.map]

/-! ## Atoms -/

theorem attributeOf_eq_ok (hl : t.Licensed) (hs : t.Sliceable cs) (hr : t.rule = .attr) :
    ∃ a, attributeOf cs t = .ok a := by
  obtain ⟨key, hchildren, _⟩ :=
    List.map_eq_singleton_iff.mp (Clause.of_attr_allows (hl.allows hr))
  have hkey : key ∈ t.children := by
    rw [hchildren]
    exact List.mem_cons_self
  obtain ⟨text, htext⟩ := trimmedText_eq_ok (hs.of_mem hkey)
  exact ⟨⟨String.ofList text, t.trimmedSpan cs⟩,
    by simp [attributeOf, hchildren, htext, Except.map]⟩

theorem attributesOf_eq_ok {ts : List Tree}
    (h : ∀ t ∈ ts, t.Licensed ∧ t.Sliceable cs ∧ t.rule = .attr) :
    ∃ as, attributesOf cs ts = .ok as := by
  induction ts with
  | nil => exact ⟨[], rfl⟩
  | cons t ts ih =>
    obtain ⟨hl, hs, hr⟩ := h t List.mem_cons_self
    obtain ⟨a, ha⟩ := attributeOf_eq_ok hl hs hr
    obtain ⟨as, has⟩ := ih fun t' ht' => h t' (List.mem_cons_of_mem t ht')
    exact ⟨a :: as, by simp [attributesOf, ha, has, Except.map]⟩

theorem atomOf_eq_ok (hl : t.Licensed) (hs : t.Sliceable cs) (hr : IsAtom t.rule) :
    ∃ a, atomOf cs t = .ok a ∧ (slice? cs a.span).isSome = true := by
  have htrim := Tree.slice?_trimmedSpan_isSome hs
  rcases hr with hr | hr | hr
  · obtain ⟨r, hmem, hone⟩ := Clause.of_literal_allows (hl.allows hr)
    obtain ⟨inner, hchildren, hrule⟩ := List.map_eq_singleton_iff.mp hone
    have hinner : inner ∈ t.children := by
      rw [hchildren]
      exact List.mem_cons_self
    have hkind : ∃ kind, literalKind? inner.rule = some kind := by
      rw [hrule]
      simp only [List.mem_cons, List.not_mem_nil, or_false] at hmem
      rcases hmem with rfl | rfl | rfl | rfl | rfl | rfl <;> exact ⟨_, rfl⟩
    obtain ⟨kind, hkind⟩ := hkind
    obtain ⟨l, hok, hspan⟩ := literalOf_eq_ok (hs.of_mem hinner) hkind
    refine ⟨.literal l, by simp [atomOf, hr, hchildren, hok, Except.map], ?_⟩
    rw [Atom.span, hspan]
    exact Tree.slice?_trimmedSpan_isSome (hs.of_mem hinner)
  · obtain ⟨rest, hattrs, hword⟩ := Clause.of_identifierAttr_allows (hl.allows hr)
    obtain ⟨base, steps, hchildren, _, hsteps⟩ := List.map_eq_cons_iff.mp hword
    have hmem : ∀ c ∈ base :: steps, c ∈ t.children := fun c hc => hchildren ▸ hc
    obtain ⟨name, hname, _⟩ := nameOf_eq_ok (hs.of_mem (hmem base List.mem_cons_self))
    have hall : ∀ c ∈ steps, c.Licensed ∧ c.Sliceable cs ∧ c.rule = .attr := by
      intro c hc
      have hc' := hmem c (List.mem_cons_of_mem base hc)
      refine ⟨hl.of_mem hc', hs.of_mem hc', hattrs _ ?_⟩
      rw [← hsteps]
      exact List.mem_map_of_mem hc
    obtain ⟨as, has⟩ := attributesOf_eq_ok hall
    exact ⟨.path name as (t.trimmedSpan cs),
      by simp [atomOf, hr, hchildren, hname, has, Except.map], htrim⟩
  · obtain ⟨name, hname, hspan⟩ := nameOf_eq_ok hs
    refine ⟨.name name, by simp [atomOf, hr, hname, Except.map], ?_⟩
    rw [Atom.span, hspan]
    exact htrim

/-! ## Calls -/

theorem optionOf_eq_ok (hl : t.Licensed) (hs : t.Sliceable cs) (hr : t.rule = .option) :
    ∃ item, optionOf cs t = .ok item := by
  obtain ⟨r, rest, hatom, hword⟩ := Clause.of_option_allows (hl.allows hr)
  obtain ⟨key, more, hchildren, hkey, hmore⟩ := List.map_eq_cons_iff.mp hword
  obtain ⟨value, others, rfl, hvalue, _⟩ := List.map_eq_cons_iff.mp hmore
  have hmem : ∀ c ∈ key :: value :: others, c ∈ t.children := fun c hc => hchildren ▸ hc
  have hkeyMem : key ∈ t.children := hmem key List.mem_cons_self
  have hvalueMem : value ∈ t.children := hmem value (List.mem_cons_of_mem key List.mem_cons_self)
  have hkeep : (value.rule != .spacing) = true := by
    rw [hvalue]
    rcases hatom with rfl | rfl | rfl <;> rfl
  have hfilter : t.children.filter (·.rule != .spacing) =
      key :: value :: others.filter (·.rule != .spacing) := by
    rw [hchildren, List.filter_cons_of_pos (by rw [hkey]; rfl),
      List.filter_cons_of_pos (p := fun c : Tree => c.rule != .spacing) hkeep]
  obtain ⟨name, hname, _⟩ := nameOf_eq_ok (hs.of_mem hkeyMem)
  obtain ⟨a, ha, _⟩ := atomOf_eq_ok (hl.of_mem hvalueMem) (hs.of_mem hvalueMem) (hvalue ▸ hatom)
  exact ⟨.option name a, by simp [optionOf, hfilter, hname, ha, Except.map]⟩

theorem optionsOf_eq_ok {ts : List Tree}
    (h : ∀ t ∈ ts, t.Licensed ∧ t.Sliceable cs ∧ t.rule = .option) :
    ∃ items, optionsOf cs ts = .ok items := by
  induction ts with
  | nil => exact ⟨[], rfl⟩
  | cons t ts ih =>
    obtain ⟨hl, hs, hr⟩ := h t List.mem_cons_self
    obtain ⟨item, hitem⟩ := optionOf_eq_ok hl hs hr
    obtain ⟨items, hitems⟩ := ih fun t' ht' => h t' (List.mem_cons_of_mem t ht')
    exact ⟨item :: items, by simp [optionsOf, hitem, hitems, Except.map]⟩

theorem optionsOf_children_eq_ok (hl : t.Licensed) (hs : t.Sliceable cs)
    (hr : t.rule = .optionList) : ∃ items, optionsOf cs t.children = .ok items := by
  refine optionsOf_eq_ok fun c hc => ⟨hl.of_mem hc, hs.of_mem hc, ?_⟩
  exact Clause.eq_of_mem_of_plus_allows rfl (hl.allows hr) (List.mem_map_of_mem hc)

theorem operatorOf_eq_ok (span : Span) (hl : t.Licensed) (hs : t.Sliceable cs)
    (hr : t.rule = .operator) : ∃ n, operatorOf cs span t = .ok n := by
  obtain ⟨name, hchildren, _⟩ :=
    List.map_eq_singleton_iff.mp ((Clause.allows_rule (r := .identifier) rfl).mp (hl.allows hr))
  have hname : name ∈ t.children := by
    rw [hchildren]
    exact List.mem_cons_self
  obtain ⟨n, hn, _⟩ := nameOf_eq_ok (hs.of_mem hname)
  exact ⟨n, by rw [operatorOf, hchildren]; exact hn⟩

/-- The items of a call, if its values are read. -/
theorem itemsOf_eq_ok (span : Span) {ts : List Tree}
    (hl : ∀ t ∈ ts, t.Licensed) (hs : ∀ t ∈ ts, t.Sliceable cs)
    (hr : ∀ t ∈ ts, t.rule = .optionList ∨ t.rule = .value ∨ t.rule = .rpar)
    (hvalue : ∀ t ∈ ts, t.rule = .value → ∃ f, ofTree cs t = .ok f) :
    ∃ items, itemsOf cs span ts = .ok items := by
  induction ts with
  | nil => exact ⟨[], by rw [itemsOf]⟩
  | cons t ts ih =>
    obtain ⟨items, hitems⟩ := ih (fun t' ht' => hl t' (List.mem_cons_of_mem t ht'))
      (fun t' ht' => hs t' (List.mem_cons_of_mem t ht'))
      (fun t' ht' => hr t' (List.mem_cons_of_mem t ht'))
      (fun t' ht' => hvalue t' (List.mem_cons_of_mem t ht'))
    have ht : t ∈ t :: ts := List.mem_cons_self
    obtain ⟨rule, s, children⟩ := t
    rcases hr _ ht with hrule | hrule | hrule
    · obtain ⟨options, hoptions⟩ := optionsOf_children_eq_ok (hl _ ht) (hs _ ht) hrule
      simp only [Tree.children] at hoptions
      obtain rfl : rule = .optionList := hrule
      exact ⟨options ++ items, by simp [itemsOf, hoptions, hitems, Except.map]⟩
    · obtain ⟨f, hf⟩ := hvalue _ ht hrule
      obtain rfl : rule = .value := hrule
      rw [ofTree] at hf
      exact ⟨.operand f :: items, by simp [itemsOf, hf, hitems, Except.map]⟩
    · obtain rfl : rule = .rpar := hrule
      exact ⟨items, by simp [itemsOf, hitems]⟩

theorem ofFirst_eq_ofTree (r : Rule) {c : Tree} {rest : List Tree} (hc : c.rule ≠ .spacing) :
    ofFirst cs r (c :: rest) = ofTree cs c := by
  rw [ofFirst, if_neg hc]

theorem ofFirst_spacing (r : Rule) {c : Tree} {rest : List Tree} (hc : c.rule = .spacing) :
    ofFirst cs r (c :: rest) = ofFirst cs r rest := by
  rw [ofFirst, if_pos hc]

theorem ofTree_eq_atomOf (hr : IsAtom t.rule) : ofTree cs t = (atomOf cs t).map .atom := by
  obtain ⟨rule, s, children⟩ := t
  rcases hr with hr | hr | hr <;> obtain rfl : rule = _ := hr <;> rw [ofTree] <;> simp

/-- The call of an expression, if its values are read. -/
theorem callOf_eq_ok (span : Span) (hl : t.Licensed) (hs : t.Sliceable cs)
    (hr : t.rule = .expression)
    (hvalue : ∀ c ∈ t.children, c.rule = .value → ∃ f, ofTree cs c = .ok f) :
    ∃ operator items, callOf cs span t.children = .ok (.call operator items span) := by
  obtain ⟨items, hitems, hword⟩ := Clause.of_expression_allows (hl.allows hr)
  obtain ⟨lpar, more, hchildren, hlpar, hmore⟩ := List.map_eq_cons_iff.mp hword
  obtain ⟨op, others, rfl, hop, hothers⟩ := List.map_eq_cons_iff.mp hmore
  have hmem : ∀ c ∈ op :: others, c ∈ t.children := by
    rw [hchildren]
    exact fun c hc => List.mem_cons_of_mem lpar hc
  have hopMem : op ∈ t.children := hmem op List.mem_cons_self
  have hotherMem : ∀ c ∈ others, c ∈ t.children :=
    fun c hc => hmem c (List.mem_cons_of_mem op hc)
  have hrules : ∀ c ∈ others, c.rule = .optionList ∨ c.rule = .value ∨ c.rule = .rpar := by
    intro c hc
    have hc' : c.rule ∈ items ++ [.rpar] := by
      rw [← hothers]
      exact List.mem_map_of_mem hc
    rcases List.mem_append.mp hc' with hc' | hc'
    · rcases hitems _ hc' with h | h
      · exact .inl h
      · exact .inr (.inl h)
    · exact .inr (.inr (List.mem_singleton.mp hc'))
  obtain ⟨name, hname⟩ := operatorOf_eq_ok span (hl.of_mem hopMem) (hs.of_mem hopMem) hop
  obtain ⟨read, hread⟩ := itemsOf_eq_ok span (fun c hc => hl.of_mem (hotherMem c hc))
    (fun c hc => hs.of_mem (hotherMem c hc)) hrules fun c hc => hvalue c (hotherMem c hc)
  refine ⟨name, read, ?_⟩
  rw [hchildren, callOf, if_neg (by rw [hlpar]; decide), callOf, if_pos hop, hname]
  simp [hread, Except.map]

/-- The rules that are read as forms. -/
def IsForm (r : Rule) : Prop := r = .script ∨ r = .value ∨ r = .expression ∨ IsAtom r

/-- A licensed tree of whole characters is read without a fault, and so is everything in it. -/
theorem ofTree_eq_ok (hl : t.Licensed) (hs : t.Sliceable cs) (hr : IsForm t.rule) :
    ∃ f, ofTree cs t = .ok f ∧ (slice? cs f.span).isSome = true := by
  induction t with
  | node rule s children ih =>
    rcases hr with hr | hr | hr | hr
    · -- A script is read by its value, with spacing or without it.
      obtain ⟨rest, hword⟩ := Clause.of_script_allows (hl.allows hr)
      obtain rfl : rule = .script := hr
      rcases hword with hword | hword
      · obtain ⟨c, others, rfl, hc, _⟩ := List.map_eq_cons_iff.mp hword
        have hmem : c ∈ c :: others := List.mem_cons_self
        rw [ofTree, ofFirst_eq_ofTree _ (by rw [hc]; decide)]
        exact ih c hmem (hl.of_mem hmem) (hs.of_mem hmem) (.inr (.inl hc))
      · obtain ⟨d, more, rfl, hd, hmore⟩ := List.map_eq_cons_iff.mp hword
        obtain ⟨c, others, rfl, hc, _⟩ := List.map_eq_cons_iff.mp hmore
        have hmem : c ∈ d :: c :: others := List.mem_cons_of_mem d List.mem_cons_self
        rw [ofTree, ofFirst_spacing _ hd, ofFirst_eq_ofTree _ (by rw [hc]; decide)]
        exact ih c hmem (hl.of_mem hmem) (hs.of_mem hmem) (.inr (.inl hc))
    · obtain ⟨r, rest, hform, hword⟩ := Clause.of_value_allows (hl.allows hr)
      obtain rfl : rule = .value := hr
      obtain ⟨c, others, rfl, hc, _⟩ := List.map_eq_cons_iff.mp hword
      have hmem : c ∈ c :: others := List.mem_cons_self
      have hsig : c.rule ≠ .spacing := by
        rw [hc]
        rcases hform with rfl | rfl | rfl | rfl <;> decide
      rw [ofTree, ofFirst_eq_ofTree _ hsig]
      exact ih c hmem (hl.of_mem hmem) (hs.of_mem hmem) (.inr (.inr (hc ▸ hform)))
    · obtain rfl : rule = .expression := hr
      have hvalue : ∀ c ∈ children, c.rule = .value → ∃ f, ofTree cs c = .ok f := by
        intro c hc hrule
        obtain ⟨f, hf, _⟩ := ih c hc (hl.of_mem hc) (hs.of_mem hc) (.inr (.inl hrule))
        exact ⟨f, hf⟩
      obtain ⟨operator, items, hcall⟩ := callOf_eq_ok
        ((Tree.node .expression s children).trimmedSpan cs) hl hs rfl hvalue
      refine ⟨_, by rw [ofTree]; exact hcall, ?_⟩
      exact Tree.slice?_trimmedSpan_isSome hs
    · obtain ⟨a, ha, hspan⟩ := atomOf_eq_ok hl hs hr
      exact ⟨.atom a, by rw [ofTree_eq_atomOf hr, ha]; rfl, hspan⟩

/-! ## Where operands come from -/

/-- A reading that goes on with a result has one. -/
theorem exists_of_map_eq_ok {α β : Type} {f : α → β} {x : Except Fault α} {b : β}
    (h : x.map f = .ok b) : ∃ a, x = .ok a ∧ f a = b := by
  cases x with
  | error e => cases h
  | ok a => exact ⟨a, rfl, Except.ok.inj h⟩

theorem exists_of_ofFirst {r : Rule} {ts : List Tree} {f : Form} (h : ofFirst cs r ts = .ok f) :
    ∃ c, ts.find? (·.rule != .spacing) = some c ∧ ofTree cs c = .ok f := by
  induction ts with
  | nil =>
    rw [ofFirst] at h
    cases h
  | cons t ts ih =>
    rw [ofFirst] at h
    split at h
    next hspacing =>
      obtain ⟨c, hc, hread⟩ := ih h
      exact ⟨c, by rw [List.find?_cons_of_neg (by simp [hspacing]), hc], hread⟩
    next hspacing => exact ⟨t, by rw [List.find?_cons_of_pos (by simp [hspacing])], h⟩

theorem exists_of_callOf {span : Span} {ts : List Tree} {f : Form}
    (h : callOf cs span ts = .ok f) :
    ∃ operator items rest, f = .call operator items span ∧ (∀ c ∈ rest, c ∈ ts) ∧
      itemsOf cs span rest = .ok items := by
  induction ts with
  | nil =>
    rw [callOf] at h
    cases h
  | cons t ts ih =>
    rw [callOf] at h
    split at h
    · split at h
      · cases h
      next operator _ =>
        obtain ⟨items, hitems, rfl⟩ := exists_of_map_eq_ok h
        exact ⟨operator, items, ts, rfl, fun c hc => List.mem_cons_of_mem t hc, hitems⟩
    · obtain ⟨operator, items, rest, hf, hrest, hitems⟩ := ih h
      exact ⟨operator, items, rest, hf, fun c hc => List.mem_cons_of_mem t (hrest c hc), hitems⟩

theorem operand_not_mem_optionsOf {ts : List Tree} {items : List Item}
    (h : optionsOf cs ts = .ok items) (g : Form) : .operand g ∉ items := by
  induction ts generalizing items with
  | nil =>
    cases h
    exact List.not_mem_nil
  | cons t ts ih =>
    rw [optionsOf] at h
    split at h
    · cases h
    next item hitem =>
      obtain ⟨rest, hrest, rfl⟩ := exists_of_map_eq_ok h
      have hoption : item ≠ .operand g := by
        unfold optionOf at hitem
        split at hitem
        · split at hitem
          · cases hitem
          · obtain ⟨a, _, rfl⟩ := exists_of_map_eq_ok hitem
            exact Item.noConfusion
        · cases hitem
      intro hmem
      rcases List.mem_cons.mp hmem with hmem | hmem
      · exact hoption hmem.symm
      · exact ih hrest hmem

/-- An operand among the items of a call is what one of the values stands for. -/
theorem exists_of_operand_mem {span : Span} {ts : List Tree} {items : List Item} {g : Form}
    (h : itemsOf cs span ts = .ok items) (hg : .operand g ∈ items) :
    ∃ t ∈ ts, t.rule = .value ∧ ofTree cs t = .ok g := by
  induction ts generalizing items with
  | nil =>
    rw [itemsOf] at h
    cases h
    cases hg
  | cons t ts ih =>
    have hlater : ∀ {items'}, itemsOf cs span ts = .ok items' → .operand g ∈ items' →
        ∃ t' ∈ t :: ts, t'.rule = .value ∧ ofTree cs t' = .ok g := by
      intro items' hitems' hg'
      obtain ⟨t', ht', hread⟩ := ih hitems' hg'
      exact ⟨t', List.mem_cons_of_mem t ht', hread⟩
    obtain ⟨rule, s, children⟩ := t
    by_cases hvalue : rule = .value
    · subst hvalue
      rw [itemsOf] at h
      split at h
      · cases h
      next f hf =>
        obtain ⟨rest, hrest, rfl⟩ := exists_of_map_eq_ok h
        rcases List.mem_cons.mp hg with hg | hg
        · cases hg
          exact ⟨_, List.mem_cons_self, rfl, by rw [ofTree]; exact hf⟩
        · exact hlater hrest hg
    by_cases hoptions : rule = .optionList
    · subst hoptions
      rw [itemsOf] at h
      split at h
      · cases h
      next options hread =>
        obtain ⟨rest, hrest, rfl⟩ := exists_of_map_eq_ok h
        rcases List.mem_append.mp hg with hg | hg
        · exact absurd hg (operand_not_mem_optionsOf hread g)
        · exact hlater hrest hg
    -- Of the other rules only a parenthesis and spacing are let through, and add nothing.
    cases rule with
    | value => exact absurd rfl hvalue
    | optionList => exact absurd rfl hoptions
    | rpar => exact hlater (by rwa [itemsOf] at h) hg
    | spacing => exact hlater (by rwa [itemsOf] at h) hg
    | _ => simp [itemsOf] at h

/-- The node `u` is the content of a value of the tree. -/
def IsOperandNode (t u : Tree) : Prop :=
  ∃ v ∈ t.nodes, v.rule = .value ∧ v.firstSignificant? = some u

theorem IsOperandNode.of_mem_children {c u : Tree} (h : IsOperandNode c u) (hc : c ∈ t.children) :
    IsOperandNode t u := by
  obtain ⟨v, hv, hrule, hu⟩ := h
  exact ⟨v, Tree.mem_nodes_of_mem_children hc hv, hrule, hu⟩

/-- In a licensed tree of whole characters the content of a value is read without a fault. -/
theorem IsOperandNode.ofTree_eq_ok {u : Tree} (h : IsOperandNode t u) (hl : t.Licensed)
    (hs : t.Sliceable cs) : ∃ f, ofTree cs u = .ok f ∧ (slice? cs f.span).isSome = true := by
  obtain ⟨v, hv, hrule, hu⟩ := h
  have hlv : v.Licensed := fun w hw => hl w (Tree.mem_nodes_trans hv hw)
  have hsv : v.Sliceable cs := fun w hw => hs w (Tree.mem_nodes_trans hv hw)
  have hmem : u ∈ v.children := List.mem_of_find?_eq_some hu
  obtain ⟨r, rest, hform, hword⟩ := Clause.of_value_allows (hlv.allows hrule)
  obtain ⟨c, others, hchildren, hc, _⟩ := List.map_eq_cons_iff.mp hword
  have hsig : (c.rule != .spacing) = true := by
    rw [hc]
    rcases hform with rfl | rfl | rfl | rfl <;> rfl
  -- The first child is no spacing, so it is the content.
  have hcu : c = u := by
    rw [Tree.firstSignificant?, hchildren,
      List.find?_cons_of_pos (p := fun w : Tree => w.rule != .spacing) hsig] at hu
    exact Option.some.inj hu
  subst hcu
  exact Form.ofTree_eq_ok (hlv.of_mem hmem) (hsv.of_mem hmem) (.inr (.inr (hc ▸ hform)))

/-- What evaluating the form of a tree can hand to procedures is what the contents of values of the
tree stand for. -/
theorem exists_node_of_hands {f g : Form} (h : ofTree cs t = .ok f) (hg : f.Hands g) :
    ∃ u, IsOperandNode t u ∧ ofTree cs u = .ok g := by
  induction t generalizing f with
  | node rule s children ih =>
    have hfirst : ∀ {r}, ofFirst cs r children = .ok f →
        ∃ u, IsOperandNode (Tree.node rule s children) u ∧ ofTree cs u = .ok g := by
      intro r hread
      obtain ⟨c, hfind, hread⟩ := exists_of_ofFirst hread
      have hc : c ∈ children := List.mem_of_find?_eq_some hfind
      obtain ⟨u, hu, hug⟩ := ih c hc hread hg
      exact ⟨u, hu.of_mem_children hc, hug⟩
    by_cases hscript : rule = .script
    · subst hscript
      exact hfirst (by rwa [ofTree] at h)
    by_cases hvalue : rule = .value
    · subst hvalue
      exact hfirst (by rwa [ofTree] at h)
    by_cases hcall : rule = .expression
    · subst hcall
      rw [ofTree] at h
      obtain ⟨operator, items, rest, rfl, hrest, hitems⟩ := exists_of_callOf h
      cases hg with
      | operand hmem =>
        obtain ⟨v, hv, hrule, hread⟩ := exists_of_operand_mem hitems hmem
        obtain ⟨rule', s', children'⟩ := v
        obtain rfl : rule' = .value := hrule
        rw [ofTree] at hread
        obtain ⟨u, hu, hug⟩ := exists_of_ofFirst hread
        exact ⟨u, ⟨_, Tree.mem_nodes_of_mem_children (hrest _ hv) (Tree.mem_nodes_self _), rfl, hu⟩,
          hug⟩
      | inside hmem hg =>
        obtain ⟨v, hv, _, hread⟩ := exists_of_operand_mem hitems hmem
        obtain ⟨u, hu, hug⟩ := ih v (hrest v hv) hread hg
        exact ⟨u, hu.of_mem_children (hrest v hv), hug⟩
    -- Any other node is an atom, which hands nothing over.
    have hatom : ofTree cs (.node rule s children) =
        (atomOf cs (.node rule s children)).map .atom := by
      cases rule <;> first | (rw [ofTree] <;> simp) | contradiction
    rw [hatom] at h
    obtain ⟨a, _, rfl⟩ := exists_of_map_eq_ok h
    cases hg

end Form

end Fexpr
