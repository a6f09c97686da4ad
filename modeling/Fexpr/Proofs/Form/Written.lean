import Fexpr.Proofs.Form.Reading
import Fexpr.Proofs.Grammar.Written
import Fexpr.Proofs.Tree.Spacing

/-!
# The forms of written scripts

Without the nodes that cover nothing, the trees of a written text are read as the form that was
handed out with them. The spans of this form are those of the lexemes: what trails them is cut off by
the significant spans of the nodes, and trimming has nothing left to do.
-/

namespace Fexpr

open Text (Span slice? Tight isBlank byteSize)
open Grammar

/-! ## Texts that are tight -/

/-- What stands between two tight texts does not matter. -/
theorem Text.Tight.enclose {a b c : List Char} (ha : Tight a) (hc : Tight c) :
    Tight (a ++ (b ++ c)) where
  ne_nil := List.append_ne_nil_of_left_ne_nil ha.ne_nil _
  head := fun x hx => by
    obtain ⟨d, a, rfl⟩ := List.exists_cons_of_ne_nil ha.ne_nil
    exact ha.head x hx
  last := fun x hx => by
    obtain ⟨c', d, rfl⟩ := (List.eq_nil_or_concat c).resolve_left hc.ne_nil
    rw [List.concat_eq_append] at hc hx
    rw [← List.append_assoc, ← List.append_assoc, List.getLast?_concat] at hx
    exact hc.last x (by rwa [List.getLast?_concat])

theorem Text.Tight.singleton {c : Char} (hc : isBlank c = false) : Tight [c] :=
  .of_forall (List.cons_ne_nil c []) fun _ hd => List.mem_singleton.mp hd ▸ hc

theorem isBlank_eq_false_of_isSolid {c : Char} (hc : isSolid c = true) : isBlank c = false := by
  simp only [isSolid, Bool.and_eq_true, Bool.not_eq_true'] at hc
  exact hc.1.1

theorem tight_of_isWord {w : List Char} (h : isWord w = true) : Tight w := by
  refine .of_forall ?_ fun c hc => isBlank_eq_false_of_isSolid (solid_of_isWord h c hc)
  rintro rfl
  cases h

/-! ## Trees without empty nodes -/

namespace Tree

theorem prunes_eq_flatMap (ts : List Tree) : prunes ts = ts.flatMap prune := by
  induction ts with
  | nil => rw [prunes_nil, List.flatMap_nil]
  | cons t ts ih => rw [prunes, ih, List.flatMap_cons]

/-- What holds of all rules in a tree holds of those that are left without the empty nodes. -/
theorem forall_rule_prune {G : Rule → Prop} {t : Tree} (h : ∀ u ∈ t.nodes, G u.rule) :
    ∀ t' ∈ t.prune, ∀ u ∈ t'.nodes, G u.rule := by
  induction t with
  | node r s cs ih =>
    intro t' ht' u hu
    rw [prune] at ht'
    split at ht'
    · cases ht'
    · obtain rfl := List.mem_singleton.mp ht'
      rw [nodes_node] at hu
      rcases List.mem_cons.mp hu with rfl | hu
      · exact h (node r s cs) (mem_nodes_self _)
      · obtain ⟨c', hc', hu⟩ := List.mem_flatMap.mp hu
        rw [prunes_eq_flatMap] at hc'
        obtain ⟨c, hc, hc'⟩ := List.mem_flatMap.mp hc'
        exact ih c hc (fun v hv => h v (mem_nodes_of_mem_children hc hv)) c' hc' u hu

end Tree

/-! ## Names and literals -/

namespace Grammar

open Form

variable {cs : List Char} {i j k : Cursor}

theorem prunes_nodeAt {r : Rule} {children : List Tree} (h : i.offset ≠ j.offset) :
    Tree.prunes [nodeAt r i j children] = [nodeAt r i j (Tree.prunes children)] :=
  Tree.prunes_node h

theorem prunes_cons (t : Tree) (ts : List Tree) :
    Tree.prunes (t :: ts) = Tree.prunes [t] ++ Tree.prunes ts := by
  rw [← Tree.prunes_append, List.singleton_append]

/-- There is a node for a gap if it is not empty. -/
theorem prunes_gapNode_cases (i j : Cursor) :
    (i.offset = j.offset ∧ Tree.prunes [gapNode i j] = []) ∨
      Tree.prunes [gapNode i j] = [gapNode i j] := by
  by_cases h : i.offset = j.offset
  · exact .inl ⟨h, Tree.prunes_empty h⟩
  · refine .inr ?_
    rw [gapNode, prunes_nodeAt h, Tree.prunes_nil]

/-- A gap that closes a node is not significant. -/
theorem significantStop_gap (r : Rule) (s : Span) (i j : Cursor) :
    (Tree.node r s (Tree.prunes [gapNode i j])).significantStop j.offset = i.offset := by
  rcases prunes_gapNode_cases i j with ⟨hij, hgap⟩ | hgap
  · rw [hgap, Tree.significantStop, Tree.significantStopLast, hij]
  · rw [hgap, ← List.nil_append [gapNode i j], Tree.significantStop_concat,
      if_neg (fun h => h rfl), if_pos (show (gapNode i j).rule = .spacing from rfl)]
    rfl

/-- A node starts where it does, if the gap in it comes later. -/
theorem significantStart_gap (r : Rule) (s : Span) {i j k : Cursor} (h : i.offset ≠ j.offset) :
    (Tree.node r s (Tree.prunes [gapNode j k])).significantStart i.offset = i.offset := by
  rcases prunes_gapNode_cases j k with ⟨-, hgap⟩ | hgap
  · rw [hgap, Tree.significantStart]
  · have hstart : (gapNode j k).span.start ≠ i.offset := Ne.symm h
    rw [hgap, Tree.significantStart, if_pos hstart]

/-- The trimmed span of a node whose significant text is tight. -/
theorem trimmedSpan_eq {t : Tree} {text : List Char} (hi : i.IsIn cs) (hij : i.Across text j)
    (ht : Tight text) (hstart : t.significantStart t.span.start = i.offset)
    (hstop : t.significantStop t.span.stop = j.offset) :
    t.trimmedSpan cs = ⟨i.offset, j.offset⟩ := by
  have hspan : t.significantSpan = ⟨i.offset, j.offset⟩ := by
    simp only [Tree.significantSpan, hstart, hstop, Nat.max_eq_left hij.offset_le]
  rw [Tree.trimmedSpan, hspan, Text.Span.trimmed_eq_self (hi.slice? hij) ht]

theorem trimmedText_eq {t : Tree} {text : List Char} (hi : i.IsIn cs) (hij : i.Across text j)
    (hspan : t.trimmedSpan cs = ⟨i.offset, j.offset⟩) : trimmedText cs t = .ok text := by
  rw [trimmedText, hspan, hi.slice? hij]

section Names

variable {w : List Char}

theorem NameAt.offset_lt (h : NameAt w i j k) : i.offset < j.offset :=
  h.across.offset_lt (tight_of_isWord h.word).ne_nil

theorem NameAt.isIn (h : NameAt w i j k) (hi : i.IsIn cs) : k.IsIn cs := by
  obtain ⟨gap, hgap, -⟩ := h.spaced
  exact (hi.across h.across).across hgap

theorem NameAt.prunes (h : NameAt w i j k) :
    Tree.prunes [nameNode i j k] = [nodeAt .identifier i k (Tree.prunes [gapNode j k])] := by
  have hlt := h.offset_lt
  have hle := h.spaced.offset_le
  exact prunes_nodeAt (by omega)

theorem NameAt.trimmedSpan (h : NameAt w i j k) (hi : i.IsIn cs) :
    (nodeAt .identifier i k (Tree.prunes [gapNode j k])).trimmedSpan cs =
      ⟨i.offset, j.offset⟩ :=
  trimmedSpan_eq hi h.across (tight_of_isWord h.word)
    (significantStart_gap _ _ (Nat.ne_of_lt h.offset_lt)) (significantStop_gap _ _ j k)

theorem NameAt.nameOf (h : NameAt w i j k) (hi : i.IsIn cs) :
    nameOf cs (nodeAt .identifier i k (Tree.prunes [gapNode j k])) = .ok (nameForm w i j) := by
  rw [Form.nameOf, trimmedText_eq hi h.across (h.trimmedSpan hi), h.trimmedSpan hi]
  rfl

end Names

theorem Spaced.isIn (h : Spaced i j) (hi : i.IsIn cs) : j.IsIn cs := by
  obtain ⟨gap, hgap, -⟩ := h
  exact hi.across hgap

/-- The nodes of a literal have no spacing in them, and its span needs no trimming. -/
theorem literal_trimmedSpan {r : Rule} {us : List Tree} {text : List Char} {mayOpen : Nat → Prop}
    {n : Nat} {F : (Char → Bool) → Prop} (hi : i.IsIn cs) (hij : i.Across text j) (ht : Tight text)
    (h : Derives mayOpen n (.rule r) i (.success j [nodeAt r i j us]))
    (hr : (Clause.rule r).Within F (· ≠ .spacing)) :
    (nodeAt r i j (Tree.prunes us)).trimmedSpan cs = ⟨i.offset, j.offset⟩ := by
  have hne : i.offset ≠ j.offset := Nat.ne_of_lt (hij.offset_lt ht.ne_nil)
  have hrules : ∀ u ∈ (nodeAt r i j (Tree.prunes us)).nodes, u.rule ≠ .spacing := by
    have hall := h.forall_rule hr _ (List.mem_singleton.mpr rfl)
    refine Tree.forall_rule_prune (G := (· ≠ .spacing)) hall _ ?_
    have hprune : Tree.prunes [nodeAt r i j us] = _ := prunes_nodeAt hne
    rw [Tree.prunes_eq_flatMap, List.flatMap_singleton] at hprune
    rw [hprune]
    exact List.mem_singleton.mpr rfl
  exact trimmedSpan_eq hi hij ht (Tree.significantStart_eq hrules _)
    (Tree.significantStop_eq hrules _)

/-- A literal is read as what it is. -/
theorem literalOf_eq {kind : LiteralKind} {us : List Tree} {text : List Char} {mayOpen : Nat → Prop}
    {n : Nat} (hi : i.IsIn cs) (hij : i.Across text j)
    (h : Derives mayOpen n (.rule kind.rule) i (.success j [nodeAt kind.rule i j us])) :
    Tree.prunes [nodeAt kind.rule i j us] = [nodeAt kind.rule i j (Tree.prunes us)] ∧
      literalOf cs (nodeAt kind.rule i j (Tree.prunes us)) =
        .ok ⟨kind, text, ⟨i.offset, j.offset⟩⟩ := by
  obtain ⟨text', hij', htight⟩ := exists_tight_of_kind h
  obtain rfl : text = text' := List.append_cancel_right (hij.1.symm.trans hij'.1)
  have hne : i.offset ≠ j.offset := Nat.ne_of_lt (hij.offset_lt htight.ne_nil)
  have hspan := literal_trimmedSpan hi hij htight h (.literalKind kind)
  refine ⟨prunes_nodeAt hne, ?_⟩
  have hkind : literalKind? (nodeAt kind.rule i j (Tree.prunes us)).rule = some kind :=
    literalKind?_rule kind
  have htext := trimmedText_eq hi hij hspan
  rw [literalOf, hkind]
  by_cases hlong : kind = .longString
  · subst hlong
    have hwhole : slice? cs (nodeAt LiteralKind.longString.rule i j (Tree.prunes us)).span =
        some text := hi.slice? hij
    simp only [hwhole, hspan]
  · cases kind <;> first | exact absurd rfl hlong | (simp only [htext, hspan]; rfl)

/-- A step of a path is read as what it is: the dot and the name, without the gap. -/
theorem attribute_reads {l : Cursor} {w : List Char} (hi : i.IsIn cs) (hdot : i.Across ['.'] j)
    (hname : NameAt w j k l) :
    (∃ text, i.Across text k ∧ Tight text) ∧
    ∃ c, Tree.prunes [nodeAt .attr i l [nameNode j k l]] = [c] ∧ c.span.stop = l.offset ∧
      c.rule = .attr ∧ c.significantStop l.offset = k.offset ∧
      attributeOf cs c = .ok ⟨String.ofList w, ⟨i.offset, k.offset⟩⟩ := by
  have hlt := hdot.offset_lt (List.cons_ne_nil _ _)
  have hlt' := hname.offset_lt
  have hle := hname.spaced.offset_le
  have hj := hi.across hdot
  have htight : Tight ('.' :: w) :=
    (Text.Tight.singleton rfl).enclose (b := []) (tight_of_isWord hname.word)
  have hacross : i.Across ('.' :: w) k := hdot.trans hname.across
  -- The gap belongs to the node of the name, so that the end is found through two nodes.
  have hstop : (nodeAt .attr i l [nodeAt .identifier j l
      (Tree.prunes [gapNode k l])]).significantStop l.offset = k.offset := by
    refine (Tree.significantStop_last _ _ [] rfl ?_).trans (significantStop_gap _ _ k l)
    exact Rule.noConfusion
  have hspan := trimmedSpan_eq (t := nodeAt .attr i l [nodeAt .identifier j l
    (Tree.prunes [gapNode k l])]) hi hacross htight
    (Tree.significantStart_later _ _ _ (Nat.ne_of_gt hlt)) hstop
  refine ⟨⟨_, hacross, htight⟩, _, ?_, rfl, rfl, hstop, ?_⟩
  · rw [prunes_nodeAt (by omega), hname.prunes]
  · have htext := trimmedText_eq hj hname.across (hname.trimmedSpan hj)
    simp only [attributeOf, nodeAt, Tree.children] at htext hspan ⊢
    rw [htext, hspan]
    rfl

/-- Steps of a path are read as what they are. -/
theorem AttributesAt.reads {ts : List Tree} {as : List Attribute} (h : AttributesAt i j k ts as)
    (hi : i.IsIn cs) :
    attributesOf cs (Tree.prunes ts) = .ok as ∧ (∃ text, i.Across text j ∧ Tight text) ∧
      ∃ us c, Tree.prunes ts = us ++ [c] ∧ c.span.stop = k.offset ∧ c.rule = .attr ∧
        c.significantStop k.offset = j.offset := by
  induction h with
  | last hdot hname _ =>
    obtain ⟨htext, c, hprunes, hspan, hrule, hstop, hread⟩ := attribute_reads hi hdot hname
    refine ⟨?_, htext, [], c, hprunes, hspan, hrule, hstop⟩
    rw [hprunes, attributesOf, hread]
    rfl
  | more hdot hname _ ih =>
    obtain ⟨⟨text, hacross, htight⟩, c, hprunes, -, -, -, hread⟩ := attribute_reads hi hdot hname
    obtain ⟨hreads, ⟨text', hacross', htight'⟩, us, d, hprunes', hspan, hrule, hstop⟩ :=
      ih (hname.isIn (hi.across hdot))
    obtain ⟨gap, hgap, -⟩ := hname.spaced
    refine ⟨?_, ⟨_, hacross.trans (hgap.trans hacross'), htight.enclose htight'⟩, c :: us, d, ?_,
      hspan, hrule, hstop⟩
    · rw [prunes_cons, hprunes, List.singleton_append, attributesOf, hread]
      simp only [hreads]
      rfl
    · rw [prunes_cons, hprunes, hprunes', List.singleton_append, List.cons_append]

theorem AttributesAt.offset_le {ts : List Tree} {as : List Attribute}
    (h : AttributesAt i j k ts as) : j.offset ≤ k.offset := by
  induction h with
  | last _ hname _ => exact hname.spaced.offset_le
  | more _ _ _ ih => exact ih

/-! ## Atoms and options -/

/-- A path is read as what it is: the name and the steps, without the gap behind the last one. -/
theorem path_reads {l m : Cursor} {w : List Char} {ts : List Tree} {as : List Attribute}
    (hi : i.IsIn cs) (h : NameAt w i j k) (hattrs : AttributesAt k l m ts as) :
    (∃ text, i.Across text l ∧ Tight text) ∧
    ∃ u, u = nodeAt .identifierAttr i m
        (nodeAt .identifier i k (Tree.prunes [gapNode j k]) :: Tree.prunes ts) ∧
      Tree.prunes [nodeAt .identifierAttr i m (nameNode i j k :: ts)] = [u] ∧
      u.trimmedSpan cs = ⟨i.offset, l.offset⟩ ∧
      atomOf cs u = .ok (.path (nameForm w i j) as ⟨i.offset, l.offset⟩) := by
  obtain ⟨hread, ⟨text, hacross, htight⟩, us, c, hprunes, hspan, hrule, hstop⟩ :=
    hattrs.reads (h.isIn hi)
  obtain ⟨gap, hgap, -⟩ := h.spaced
  have hall := h.across.trans (hgap.trans hacross)
  have htight' : Tight (w ++ (gap ++ text)) := (tight_of_isWord h.word).enclose htight
  -- The start is found in the name and the end in the last step.
  have hspan' := trimmedSpan_eq (t := nodeAt .identifierAttr i m
    (nodeAt .identifier i k (Tree.prunes [gapNode j k]) :: Tree.prunes ts)) hi hall htight' ?_ ?_
  · refine ⟨⟨_, hall, htight'⟩, _, rfl, ?_, hspan', ?_⟩
    · have hlt := hall.offset_lt htight'.ne_nil
      have hle := hattrs.offset_le
      rw [prunes_nodeAt (by omega), prunes_cons, h.prunes, List.singleton_append]
    · simp only [atomOf, nodeAt, Tree.rule, Tree.children] at hspan' ⊢
      have hbase := h.nameOf hi
      simp only [nodeAt] at hbase
      rw [hbase, hread]
      simp only [hspan']
      rfl
  · refine (Tree.significantStart_first _ _ _ rfl Rule.noConfusion).trans ?_
    exact significantStart_gap _ _ (Nat.ne_of_lt h.offset_lt)
  · rw [hprunes, ← List.cons_append]
    refine (Tree.significantStop_last _ _ _ hspan ?_).trans hstop
    rw [hrule]
    exact Rule.noConfusion

/-- An atom is read as what it is. -/
theorem AtomAt.reads {t : Tree} {a : Atom} (h : AtomAt i j k t a) (hi : i.IsIn cs) :
    (∃ text, i.Across text j ∧ Tight text) ∧ a.span = ⟨i.offset, j.offset⟩ ∧
    ∃ u, Tree.prunes [t] = [u] ∧ Clause.IsAtom u.rule ∧
      u.trimmedSpan cs = ⟨i.offset, j.offset⟩ ∧ atomOf cs u = .ok a := by
  cases h with
  | @literal _ kind us text h htext =>
    -- The node of a literal says of which kind it is, so that the derivation is of this kind.
    obtain ⟨kind', us', hkind, htrees⟩ := exists_kind_of_literal (h (fun _ => True) 0)
    simp only [nodeAt, List.cons.injEq, Tree.node.injEq, and_true, true_and] at htrees
    obtain ⟨hrule, rfl⟩ := htrees
    obtain rfl : kind = kind' := by
      have hsome := literalKind?_rule kind
      rw [hrule, literalKind?_rule] at hsome
      exact (Option.some.inj hsome).symm
    obtain ⟨text', htext', htight⟩ := exists_tight_of_kind hkind
    obtain ⟨hprunes, hread⟩ := literalOf_eq hi htext hkind
    have hlt := htext'.offset_lt htight.ne_nil
    refine ⟨⟨text', htext', htight⟩, rfl,
      nodeAt .literal i j [nodeAt kind.rule i j (Tree.prunes us)], ?_, .inl rfl, ?_, ?_⟩
    · rw [prunes_nodeAt (Nat.ne_of_lt hlt), hprunes]
    · rw [← hprunes]
      exact literal_trimmedSpan hi htext' htight (h (fun _ => True) 0) .literal
    · show (literalOf cs (nodeAt kind.rule i j (Tree.prunes us))).map Atom.literal = _
      rw [hread]
      rfl
  | name h _ _ =>
    refine ⟨⟨_, h.across, tight_of_isWord h.word⟩, rfl, _, h.prunes, .inr (.inr rfl),
      h.trimmedSpan hi, ?_⟩
    show (nameOf cs (nodeAt .identifier i k (Tree.prunes [gapNode j k]))).map Atom.name = _
    rw [h.nameOf hi]
    rfl
  | path h _ hattrs =>
    obtain ⟨htext, u, rfl, hnode, hspan, hread⟩ := path_reads hi h hattrs
    exact ⟨htext, rfl, _, hnode, .inr (.inl rfl), hspan, hread⟩

theorem ne_spacing_of_isAtom {r : Rule} (h : Clause.IsAtom r) : r ≠ .spacing := by
  rcases h with rfl | rfl | rfl <;> exact Rule.noConfusion

theorem AtomAt.isIn {t : Tree} {a : Atom} (h : AtomAt i j k t a) (hi : i.IsIn cs) :
    k.IsIn cs ∧ j.offset ≤ k.offset := by
  obtain ⟨text, hacross⟩ := (h.lexes (fun _ => True) 0).across
  refine ⟨hi.across hacross, ?_⟩
  cases h with
  | literal _ _ => exact Nat.le_refl _
  | name h _ _ => exact h.spaced.offset_le
  | path _ _ hattrs => exact hattrs.offset_le

/-- An option is read as what it is. -/
theorem OptionAt.reads {t : Tree} {item : Item} (h : OptionAt i j t item) (hi : i.IsIn cs) :
    j.IsIn cs ∧ i.offset < j.offset ∧
      ∃ u, Tree.prunes [t] = [u] ∧ optionOf cs u = .ok item := by
  cases h with
  | @mk l m o p q _ w t a hmark hkey hvalue hgap =>
    have hl := hi.across hmark
    have ho := hkey.isIn hl
    obtain ⟨-, -, u, hprunes, hatom, -, hread⟩ := hvalue.reads ho
    have hlt : i.offset < j.offset := by
      have h1 := hmark.offset_lt (List.cons_ne_nil _ _)
      have h2 := hkey.offset_lt
      have h3 := hkey.spaced.offset_le
      obtain ⟨text, hacross⟩ := (hvalue.lexes (fun _ => True) 0).across
      have h4 := hacross.offset_le
      have h5 := hgap.offset_le
      omega
    have hchildren : Tree.prunes [nameNode l m o, t, gapNode q j] =
        nodeAt .identifier l o (Tree.prunes [gapNode m o]) :: u :: Tree.prunes [gapNode q j] := by
      rw [prunes_cons, prunes_cons t, hkey.prunes, hprunes]
      rfl
    refine ⟨hgap.isIn (hvalue.isIn ho).1, hlt, nodeAt .option i j
      (nodeAt .identifier l o (Tree.prunes [gapNode m o]) :: u :: Tree.prunes [gapNode q j]), ?_, ?_⟩
    · rw [prunes_nodeAt (Nat.ne_of_lt hlt), hchildren]
    · have hrule : (u.rule != .spacing) = true := bne_iff_ne.mpr (ne_spacing_of_isAtom hatom)
      have hname := hkey.nameOf hl
      simp only [optionOf, nodeAt, Tree.children] at hname ⊢
      rw [List.filter_cons_of_pos (by rfl),
        List.filter_cons_of_pos (p := fun c : Tree => c.rule != .spacing) hrule]
      simp only [hname, hread]
      rfl

/-- Options are read as what they are. -/
theorem OptionsAt.reads {ts : List Tree} {items : List Item} (h : OptionsAt i j ts items)
    (hi : i.IsIn cs) :
    j.IsIn cs ∧ i.offset < j.offset ∧ optionsOf cs (Tree.prunes ts) = .ok items := by
  induction h with
  | last h _ =>
    obtain ⟨hj, hlt, u, hprunes, hread⟩ := h.reads hi
    refine ⟨hj, hlt, ?_⟩
    rw [hprunes, optionsOf, hread]
    rfl
  | more h _ ih =>
    obtain ⟨hj, hlt, u, hprunes, hread⟩ := h.reads hi
    obtain ⟨hk, hlt', hreads⟩ := ih hj
    refine ⟨hk, by omega, ?_⟩
    rw [prunes_cons, hprunes, List.singleton_append, optionsOf, hread]
    simp only [hreads]
    rfl

/-! ## Values and calls -/

theorem Written.isIn {mayOpen : Nat → Prop} {n : Nat} {part : Part} {ts : List Tree}
    {items : List Item} (h : Written mayOpen n part i j ts items) (hi : i.IsIn cs) :
    j.IsIn cs := by
  obtain ⟨text, hacross⟩ := h.derives.across
  exact hi.across hacross

/-- A call covers something, up to its closing parenthesis. -/
theorem call_offset_lt {l m o p : Cursor} {w text : List Char} (hopen : i.Across ['('] j)
    (hgap : Spaced j k) (hop : NameAt w k l m) (hmo : m.Across text o) (hclose : o.Across [')'] p) :
    i.offset < p.offset :=
  calc i.offset < j.offset := hopen.offset_lt (List.cons_ne_nil _ _)
    _ ≤ k.offset := hgap.offset_le
    _ ≤ l.offset := Nat.le_of_lt hop.offset_lt
    _ ≤ m.offset := hop.spaced.offset_le
    _ ≤ o.offset := hmo.offset_le
    _ ≤ p.offset := hclose.offset_le

/-- What is left in the node of a call without the empty nodes. -/
theorem prunes_call {l m o p q : Cursor} {w : List Char} {ts : List Tree} (hopen : i.Across ['('] j)
    (hgap : Spaced j k) (hop : NameAt w k l m) (hclose : o.Across [')'] p) (hgap' : Spaced p q) :
    Tree.prunes (nodeAt .lpar i k [gapNode i i, gapNode j k] ::
        nodeAt .operator k m [nameNode k l m] ::
          (ts ++ [nodeAt .rpar o q [gapNode o o, gapNode p q]])) =
      nodeAt .lpar i k (Tree.prunes [gapNode j k]) ::
        nodeAt .operator k m [nodeAt .identifier k m (Tree.prunes [gapNode l m])] ::
          (Tree.prunes ts ++ [nodeAt .rpar o q (Tree.prunes [gapNode p q])]) := by
  have h1 := hopen.offset_lt (List.cons_ne_nil _ _)
  have h2 := hgap.offset_le
  have h3 := hop.offset_lt
  have h4 := hop.spaced.offset_le
  have h5 := hclose.offset_lt (List.cons_ne_nil _ _)
  have h6 := hgap'.offset_le
  -- The gaps in front of the parentheses are empty.
  have hempty : ∀ i : Cursor, Tree.prunes [gapNode i i] = [] := fun i => Tree.prunes_empty rfl
  rw [prunes_cons, prunes_cons (nodeAt .operator k m _), Tree.prunes_append,
    prunes_nodeAt (by omega), prunes_nodeAt (by omega), prunes_nodeAt (by omega),
    prunes_cons (gapNode i i), prunes_cons (gapNode o o), hempty, hempty, hop.prunes]
  rfl

/-- The node of a call is read as the call, if its row is read. -/
theorem call_reads {l m o p q : Cursor} {w : List Char} {ts : List Tree} {items : List Item}
    (hi : i.IsIn cs) (hopen : i.Across ['('] j) (hgap : Spaced j k) (hop : NameAt w k l m)
    {text : List Char} (hmo : m.Across text o) (hclose : o.Across [')'] p) (hgap' : Spaced p q)
    (hrow : ∀ span rest items', itemsOf cs span rest = .ok items' →
      itemsOf cs span (Tree.prunes ts ++ rest) = .ok (items ++ items')) :
    ∃ u, Tree.prunes [nodeAt .expression i q
        (nodeAt .lpar i k [gapNode i i, gapNode j k] :: nodeAt .operator k m [nameNode k l m] ::
          (ts ++ [nodeAt .rpar o q [gapNode o o, gapNode p q]]))] = [u] ∧
      u.rule ≠ .spacing ∧ u.trimmedSpan cs = ⟨i.offset, p.offset⟩ ∧
      ofTree cs u = .ok (.call (nameForm w k l) items ⟨i.offset, p.offset⟩) := by
  have hk := hgap.isIn (hi.across hopen)
  have hlt := call_offset_lt hopen hgap hop hmo hclose
  have hle := hgap'.offset_le
  obtain ⟨inner, hinner⟩ : ∃ inner, j.Across inner o := by
    obtain ⟨gap, hjk, -⟩ := hgap
    obtain ⟨gap', hlm, -⟩ := hop.spaced
    exact ⟨_, hjk.trans (hop.across.trans (hlm.trans hmo))⟩
  have hspan := trimmedSpan_eq (t := nodeAt .expression i q
    (nodeAt .lpar i k (Tree.prunes [gapNode j k]) ::
      nodeAt .operator k m [nodeAt .identifier k m (Tree.prunes [gapNode l m])] ::
        (Tree.prunes ts ++ [nodeAt .rpar o q (Tree.prunes [gapNode p q])])))
    hi (hopen.trans (hinner.trans hclose))
    ((Text.Tight.singleton rfl).enclose (Text.Tight.singleton rfl)) ?_ ?_
  · refine ⟨_, ?_, Rule.noConfusion, hspan, ?_⟩
    · rw [prunes_nodeAt (by omega), prunes_call hopen hgap hop hclose hgap']
    · have hrest : itemsOf cs ⟨i.offset, p.offset⟩
          [nodeAt .rpar o q (Tree.prunes [gapNode p q])] = .ok [] := by
        rw [nodeAt, itemsOf, itemsOf]
      have hname := hop.nameOf hk
      have hitems := hrow ⟨i.offset, p.offset⟩ _ _ hrest
      simp only [nodeAt] at hspan hname hitems ⊢
      rw [ofTree, hspan, callOf, if_neg Rule.noConfusion, callOf]
      simp only [operatorOf, Tree.rule, if_true, Tree.children, hname, hitems, List.append_nil]
      rfl
  · refine (Tree.significantStart_first _ _ _ rfl Rule.noConfusion).trans ?_
    exact significantStart_gap _ _ (Nat.ne_of_lt (hopen.offset_lt (List.cons_ne_nil _ _)))
  · rw [← List.cons_append, ← List.cons_append]
    refine (Tree.significantStop_last (c := nodeAt .rpar o q (Tree.prunes [gapNode p q])) _ _ _
      rfl ?_).trans (significantStop_gap _ _ p q)
    exact Rule.noConfusion

/-- The node of an atom is read as the atom. -/
theorem atom_reads {t : Tree} {a : Atom} (h : AtomAt i j k t a) (hi : i.IsIn cs) :
    ∃ u, Tree.prunes [t] = [u] ∧ u.rule ≠ .spacing ∧ u.trimmedSpan cs = a.span ∧
      ofTree cs u = .ok (.atom a) := by
  obtain ⟨-, hspan, u, hprunes, hatom, hspan', hread⟩ := h.reads hi
  refine ⟨u, hprunes, ne_spacing_of_isAtom hatom, hspan'.trans hspan.symm, ?_⟩
  rw [ofTree_eq_atomOf hatom, hread]
  rfl

/-- The items of a call in which a value is followed by other nodes. -/
theorem itemsOf_value {t g u : Tree} {f : Form} {span : Span} {rest : List Tree}
    {items : List Item} (hij : i.offset ≠ j.offset) (hprunes : Tree.prunes [t] = [u])
    (hrule : u.rule ≠ .spacing) (hread : ofTree cs u = .ok f)
    (hrest : itemsOf cs span rest = .ok items) :
    itemsOf cs span (Tree.prunes [nodeAt .value i j [t, g]] ++ rest) = .ok (.operand f :: items) := by
  rw [prunes_nodeAt hij, prunes_cons, hprunes, List.singleton_append, List.singleton_append, nodeAt,
    itemsOf, ofFirst_eq_ofTree _ hrule, hread]
  simp only [hrest]
  rfl

section Parts

variable {mayOpen : Nat → Prop} {n : Nat} {ts : List Tree} {items : List Item}

theorem Written.offset_lt (h : Written mayOpen n .value i j ts items) : i.offset < j.offset := by
  obtain ⟨text, hij, hne⟩ := h.derives.across_ne_nil rfl
  exact hij.offset_lt hne

/-- The items of a call in which a value or a row is followed by other nodes. -/
theorem Written.itemsOf {part : Part} (h : Written mayOpen n part i j ts items) (hi : i.IsIn cs)
    (span : Span) (rest : List Tree) (items' : List Item)
    (hrest : itemsOf cs span rest = .ok items') :
    itemsOf cs span (Tree.prunes ts ++ rest) = .ok (items ++ items') := by
  induction h generalizing span rest items' with
  | atom ha hgap =>
    obtain ⟨u, hprunes, hrule, -, hread⟩ := atom_reads ha hi
    have hvalue : Written mayOpen 0 .value _ _ _ _ := .atom ha hgap
    have hlt := hvalue.offset_lt
    exact itemsOf_value (Nat.ne_of_lt hlt) hprunes hrule hread hrest
  | call ho hopen hgap hop hrow hclose hgap' ih =>
    obtain ⟨text, hmo⟩ := hrow.derives.across
    have hm := hop.isIn (hgap.isIn (hi.across hopen))
    obtain ⟨u, hprunes, hrule, -, hread⟩ := call_reads hi hopen hgap hop hmo hclose hgap' (ih hm)
    have hlt := (Written.call ho hopen hgap hop hrow hclose hgap').offset_lt
    exact itemsOf_value (Nat.ne_of_lt hlt) hprunes hrule hread hrest
  | nil _ => simpa [Tree.prunes_nil] using hrest
  | operand h _ ihv ihr =>
    rw [Tree.prunes_append, List.append_assoc, List.append_assoc]
    exact ihv hi span _ _ (ihr (h.isIn hi) span rest items' hrest)
  | options h _ ihr =>
    obtain ⟨hj, hlt, hread⟩ := h.reads hi
    have hrow := ihr hj span rest items' hrest
    rw [prunes_cons, prunes_nodeAt (Nat.ne_of_lt hlt), List.append_assoc, List.singleton_append,
      nodeAt, Form.itemsOf, hread]
    simp only [hrow]
    rw [List.append_assoc]
    rfl

/-- A written value is read as the form that is handed out with it. -/
theorem Written.reads {f : Form} (h : Written mayOpen n .value i j ts [.operand f])
    (hi : i.IsIn cs) :
    ∃ t k u, ts = [nodeAt .value i j [t, gapNode k j]] ∧ Tree.prunes [t] = [u] ∧
      u.rule ≠ .spacing ∧ u.trimmedSpan cs = f.span ∧ ofTree cs u = .ok f := by
  cases h with
  | @atom _ _ _ k _ t a ha hgap =>
    obtain ⟨u, hprunes, hrule, hspan, hread⟩ := atom_reads ha hi
    exact ⟨t, k, u, rfl, hprunes, hrule, hspan, hread⟩
  | call ho hopen hgap hop hrow hclose hgap' =>
    obtain ⟨text, hmo⟩ := hrow.derives.across
    have hm := hop.isIn (hgap.isIn (hi.across hopen))
    obtain ⟨u, hprunes, hrule, hspan, hread⟩ :=
      call_reads hi hopen hgap hop hmo hclose hgap' (hrow.itemsOf hm)
    exact ⟨_, j, u, rfl, hprunes, hrule, hspan, hread⟩

end Parts

end Grammar

end Fexpr
