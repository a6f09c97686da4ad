import Fexpr.Proofs.Form.Relocation
import Fexpr.Proofs.Form.Written

/-!
# Carrying what is written to another text

A script whose spacing is changed, or a part of a script that is cut out, reads as before. Both are
cases of one statement. Places of two texts correspond, and a `Carriage` says that each lexeme that
stands between places of the first text stands between the corresponding places of the second one,
and that what must not follow a lexeme does not follow it there either. Then all that is written in
the first text is written in the second one, with the same trees and forms at other places
(`Written.carry`).

Of the lexemes, gaps, literals and closing parentheses can be torn apart by the change. That they
are not is a condition on the nodes of the tree.
-/

namespace Fexpr

open Text (Span)
open Grammar

/-! ## All nodes of some trees -/

/-- The property holds of all nodes of the trees. -/
def Tree.Forall (P : Tree → Prop) (ts : List Tree) : Prop := ∀ t ∈ ts, ∀ u ∈ t.nodes, P u

namespace Tree

variable {P : Tree → Prop}

theorem forall_cons {t : Tree} {ts : List Tree} :
    Forall P (t :: ts) ↔ Forall P [t] ∧ Forall P ts := by
  simp [Forall]

theorem forall_append {ts us : List Tree} : Forall P (ts ++ us) ↔ Forall P ts ∧ Forall P us := by
  simp only [Forall, List.mem_append]
  constructor
  · exact fun h => ⟨fun t ht => h t (.inl ht), fun t ht => h t (.inr ht)⟩
  · rintro ⟨hts, hus⟩ t (ht | ht)
    · exact hts t ht
    · exact hus t ht

theorem forall_node {r : Rule} {s : Span} {ts : List Tree} :
    Forall P [node r s ts] ↔ P (node r s ts) ∧ Forall P ts := by
  constructor
  · intro h
    have hnode := h _ (List.mem_singleton.mpr rfl)
    exact ⟨hnode _ (mem_nodes_self _), fun t ht u hu => hnode u (mem_nodes_of_mem_children ht hu)⟩
  · rintro ⟨hnode, hts⟩ t ht u hu
    obtain rfl := List.mem_singleton.mp ht
    rw [nodes_node] at hu
    rcases List.mem_cons.mp hu with rfl | hu
    · exact hnode
    · obtain ⟨t, ht, hu⟩ := List.mem_flatMap.mp hu
      exact hts t ht u hu

end Tree

namespace Grammar

open Form

/-! ## Corresponding places -/

/-- If a quote stands here, it starts a literal that is left in one piece. -/
def Guarded (Fits : Tree → Prop) (i : Cursor) : Prop :=
  i.rest.head? = some '"' → ∃ j t, Lexes (.rule .literal) i j [t] ∧ Fits t

/-- Places of two texts correspond to each other, and lexemes that are left in one piece are carried
from the one to the other. -/
structure Carriage (φ : Nat → Nat) (Fits : Tree → Prop) (R : Cursor → Cursor → Prop) : Prop where
  offset_eq : ∀ {i i'}, R i i' → i'.offset = φ i.offset
  /-- Solid characters are carried. -/
  word : ∀ {i i' j x}, R i i' → i.Across x j → (∀ c ∈ x, isSolid c = true) →
    ∃ j', i'.Across x j' ∧ R j j'
  close : ∀ {i i' j k us}, R i i' → i.Across [')'] j → Spaced j k → Fits (nodeAt .rpar i k us) →
    ∃ j', i'.Across [')'] j' ∧ R j j'
  gap : ∀ {i i' j}, R i i' → Spaced i j → Fits (gapNode i j) → ∃ j', Spaced i' j' ∧ R j j'
  literal : ∀ {i i' j t text}, R i i' → i.Across text j → Lexes (.rule .literal) i j [t] → Fits t →
    Guarded Fits j →
    ∃ j', i'.Across text j' ∧ Lexes (.rule .literal) i' j' [t.relocate φ] ∧ R j j'
  /-- What is not ahead here is not ahead there. -/
  stop : ∀ {i i'} {f : Char → Bool}, R i i' → Solid f → (∀ c ∈ i.rest.head?, f c = false) →
    ∀ c ∈ i'.rest.head?, f c = false
  step : ∀ {i i'}, R i i' → attributeAhead i.rest = false → attributeAhead i'.rest = false
  mark : ∀ {i i'}, R i i' → ¬ ['#', ':'] <+: i.rest → ¬ ['#', ':'] <+: i'.rest
  /-- The end of a call is. -/
  last : ∀ {i i'}, R i i' → i.rest.head? = some ')' → i'.rest.head? = some ')'

section Carrying

variable {φ : Nat → Nat} {Fits : Tree → Prop} {R : Cursor → Cursor → Prop}

namespace Carriage

variable (hR : Carriage φ Fits R) {i i' j j' k k' : Cursor}

include hR

theorem relocate_span (hi : R i i') (hj : R j j') :
    Text.Span.relocate φ ⟨i.offset, j.offset⟩ = ⟨i'.offset, j'.offset⟩ := by
  rw [Text.Span.relocate, hR.offset_eq hi, hR.offset_eq hj]

theorem relocate_nodeAt (hi : R i i') (hj : R j j') (r : Rule) (children : List Tree) :
    (nodeAt r i j children).relocate φ = nodeAt r i' j' (Tree.relocates φ children) := by
  rw [nodeAt, nodeAt, Tree.relocate_node, hR.relocate_span hi hj]

theorem relocate_gapNode (hi : R i i') (hj : R j j') : (gapNode i j).relocate φ = gapNode i' j' := by
  rw [gapNode, hR.relocate_nodeAt hi hj, Tree.relocates_nil, gapNode]

theorem relocate_nameNode (hi : R i i') (hj : R j j') (hk : R k k') :
    (nameNode i j k).relocate φ = nameNode i' j' k' := by
  rw [nameNode, hR.relocate_nodeAt hi hk, Tree.relocates_cons, Tree.relocates_nil,
    hR.relocate_gapNode hj hk, nameNode]

theorem relocate_nameForm (hi : R i i') (hj : R j j') (w : List Char) :
    (nameForm w i j).relocate φ = nameForm w i' j' := by
  rw [nameForm, Name.relocate, hR.relocate_span hi hj, nameForm]

end Carriage

variable {i i' j k : Cursor}

theorem NameAt.carry (hR : Carriage φ Fits R) {w : List Char} (h : NameAt w i j k) (hi : R i i')
    (hfits : Tree.Forall Fits [nameNode i j k]) :
    ∃ j' k', NameAt w i' j' k' ∧ R j j' ∧ R k k' := by
  obtain ⟨-, hgap⟩ := Tree.forall_node.mp hfits
  obtain ⟨j', hij', hj⟩ := hR.word hi h.across (solid_of_isWord h.word)
  obtain ⟨k', hjk', hk⟩ := hR.gap hj h.spaced (Tree.forall_node.mp hgap).1
  exact ⟨j', k', ⟨h.word, hij', hR.stop hj solid_isNameChar h.stop, hjk'⟩, hj, hk⟩

theorem AttributesAt.carry (hR : Carriage φ Fits R) {ts : List Tree} {as : List Attribute}
    (h : AttributesAt i j k ts as) (hi : R i i') (hfits : Tree.Forall Fits ts) :
    ∃ j' k', AttributesAt i' j' k' (Tree.relocates φ ts) (as.map (·.relocate φ)) ∧ R j j' ∧
      R k k' := by
  induction h generalizing i' with
  | last hdot hname hend =>
    obtain ⟨-, hfits⟩ := Tree.forall_node.mp hfits
    obtain ⟨l', hdot', hl⟩ := hR.word hi hdot (List.all_eq_true.mp rfl)
    obtain ⟨j', k', hname', hj, hk⟩ := hname.carry hR hl hfits
    refine ⟨j', k', ?_, hj, hk⟩
    simp only [Tree.relocates_cons, Tree.relocates_nil, hR.relocate_nodeAt hi hk,
      hR.relocate_nameNode hl hj hk, List.map_cons, List.map_nil, Attribute.relocate,
      hR.relocate_span hi hj]
    exact .last hdot' hname' (hR.step hk hend)
  | more hdot hname _ ih =>
    obtain ⟨hfit, hfits⟩ := Tree.forall_cons.mp hfits
    obtain ⟨-, hfit⟩ := Tree.forall_node.mp hfit
    obtain ⟨l', hdot', hl⟩ := hR.word hi hdot (List.all_eq_true.mp rfl)
    obtain ⟨m', o', hname', hm, ho⟩ := hname.carry hR hl hfit
    obtain ⟨j', k', hrest', hj, hk⟩ := ih ho hfits
    refine ⟨j', k', ?_, hj, hk⟩
    simp only [Tree.relocates_cons, Tree.relocates_nil, hR.relocate_nodeAt hi ho,
      hR.relocate_nameNode hl hm ho, List.map_cons, Attribute.relocate, hR.relocate_span hi hm]
    exact .more hdot' hname' hrest'

theorem AtomAt.carry (hR : Carriage φ Fits R) {t : Tree} {a : Atom} (h : AtomAt i j k t a)
    (hi : R i i') (hfits : Tree.Forall Fits [t]) (hk : Guarded Fits k) :
    ∃ j' k', AtomAt i' j' k' (t.relocate φ) (a.relocate φ) ∧ R k k' := by
  cases h with
  | @literal _ kind us text h htext =>
    obtain ⟨hfit, -⟩ := Tree.forall_node.mp hfits
    obtain ⟨j', htext', h', hj⟩ := hR.literal hi htext h hfit hk
    refine ⟨j', j', ?_, hj⟩
    simp only [Tree.relocates_cons, Tree.relocates_nil, hR.relocate_nodeAt hi hj] at h' ⊢
    simp only [Atom.relocate, Literal.relocate, hR.relocate_span hi hj]
    exact .literal h' htext'
  | name h hnil hend =>
    obtain ⟨j', k', h', hj, hk⟩ := h.carry hR hi hfits
    refine ⟨j', k', ?_, hk⟩
    simp only [hR.relocate_nameNode hi hj hk, Atom.relocate, hR.relocate_nameForm hi hj]
    exact .name h' hnil (hR.step hk hend)
  | path h hnil hattrs =>
    obtain ⟨-, hfits⟩ := Tree.forall_node.mp hfits
    obtain ⟨hfit, hfits⟩ := Tree.forall_cons.mp hfits
    obtain ⟨l', m', h', hl, hm⟩ := h.carry hR hi hfit
    obtain ⟨j', k', hattrs', hj, hk⟩ := hattrs.carry hR hm hfits
    refine ⟨j', k', ?_, hk⟩
    simp only [hR.relocate_nodeAt hi hk, Tree.relocates_cons, hR.relocate_nameNode hi hl hm,
      Atom.relocate, hR.relocate_nameForm hi hl, hR.relocate_span hi hj]
    exact .path h' hnil hattrs'

/-- A gap does not stand before a quote that starts right here. -/
theorem Guarded.of_spaced (hij : Spaced i j) (hj : Guarded Fits j) : Guarded Fits i := by
  intro hquote
  obtain rfl := hij.eq fun c hc => by
    cases Option.some.inj (hquote.symm.trans hc)
    rfl
  exact hj hquote

theorem OptionAt.carry (hR : Carriage φ Fits R) {t : Tree} {item : Item} (h : OptionAt i j t item)
    (hi : R i i') (hfits : Tree.Forall Fits [t]) (hj : Guarded Fits j) :
    ∃ j' item', OptionAt i' j' (t.relocate φ) item' ∧
      (∀ items, relocates φ (item :: items) = item' :: relocates φ items) ∧ R j j' := by
  cases h with
  | mk hmark hkey hvalue hgap =>
    obtain ⟨-, hfits⟩ := Tree.forall_node.mp hfits
    obtain ⟨hfitkey, hfits⟩ := Tree.forall_cons.mp hfits
    obtain ⟨hfitvalue, hfitgap⟩ := Tree.forall_cons.mp hfits
    obtain ⟨l', hmark', hl⟩ := hR.word hi hmark (List.all_eq_true.mp rfl)
    obtain ⟨m', o', hkey', hm, ho⟩ := hkey.carry hR hl hfitkey
    obtain ⟨p', q', hvalue', hq⟩ := hvalue.carry hR ho hfitvalue (hj.of_spaced hgap)
    obtain ⟨j', hgap', hj⟩ := hR.gap hq hgap (Tree.forall_node.mp hfitgap).1
    refine ⟨j', _, ?_, fun items => relocates_option _ _ items, hj⟩
    simp only [hR.relocate_nodeAt hi hj, Tree.relocates_cons, Tree.relocates_nil,
      hR.relocate_nameNode hl hm ho, hR.relocate_gapNode hq hj, hR.relocate_nameForm hl hm]
    exact .mk hmark' hkey' hvalue' hgap'

theorem OptionAt.head?_eq {t : Tree} {item : Item} (h : OptionAt i j t item) :
    i.rest.head? = some '#' := by
  cases h with
  | mk hmark _ _ _ => rw [hmark.1]; rfl

theorem OptionsAt.head?_eq {ts : List Tree} {items : List Item} (h : OptionsAt i j ts items) :
    i.rest.head? = some '#' := by
  cases h with
  | last h _ => exact h.head?_eq
  | more h _ => exact h.head?_eq

theorem Guarded.of_head {c : Char} (hi : i.rest.head? = some c) (hc : c ≠ '"') : Guarded Fits i :=
  fun hquote => absurd (Option.some.inj (hi.symm.trans hquote)) hc

theorem OptionsAt.carry (hR : Carriage φ Fits R) {ts : List Tree} {items : List Item}
    (h : OptionsAt i j ts items) (hi : R i i') (hfits : Tree.Forall Fits ts) (hj : Guarded Fits j) :
    ∃ j', OptionsAt i' j' (Tree.relocates φ ts) (relocates φ items) ∧ R j j' := by
  induction h generalizing i' with
  | last h hend =>
    obtain ⟨j', item', h', hitem, hj⟩ := h.carry hR hi hfits hj
    refine ⟨j', ?_, hj⟩
    rw [hitem, relocates_nil, Tree.relocates_cons, Tree.relocates_nil]
    exact .last h' (hR.mark hj hend)
  | more h hs ih =>
    obtain ⟨hfit, hfits⟩ := Tree.forall_cons.mp hfits
    obtain ⟨l', item', h', hitem, hl⟩ := h.carry hR hi hfit (.of_head hs.head?_eq (by decide))
    obtain ⟨j', hs', hj⟩ := ih hl hfits hj
    refine ⟨j', ?_, hj⟩
    rw [hitem, Tree.relocates_cons]
    exact .more h' hs'

theorem NameAt.guarded {w : List Char} (h : NameAt w i j k) : Guarded Fits i := by
  obtain ⟨c, cs, hi, hc⟩ := h.exists_head
  refine .of_head (by rw [hi]; rfl) ?_
  rintro rfl
  cases hc

/-- The nodes of a call, but for its closing parenthesis, fit. -/
theorem forall_call {m o q : Cursor} {us vs ts ws : List Tree}
    (h : Tree.Forall Fits [nodeAt .expression i q
      (nodeAt .lpar i k us :: nodeAt .operator k m vs :: (ts ++ [nodeAt .rpar o q ws]))]) :
    Tree.Forall Fits us ∧ Tree.Forall Fits vs ∧ Tree.Forall Fits ts ∧
      Tree.Forall Fits [nodeAt .rpar o q ws] := by
  obtain ⟨-, h⟩ := Tree.forall_node.mp h
  obtain ⟨hlpar, h⟩ := Tree.forall_cons.mp h
  obtain ⟨hoperator, h⟩ := Tree.forall_cons.mp h
  obtain ⟨hrow, hrpar⟩ := Tree.forall_append.mp h
  exact ⟨(Tree.forall_node.mp hlpar).2, (Tree.forall_node.mp hoperator).2, hrow, hrpar⟩

/-- The start of a call, up to its row, is carried. -/
theorem exists_carried_open (hR : Carriage φ Fits R) {l m : Cursor} {w : List Char} (hi : R i i')
    (hopen : i.Across ['('] j) (hgap : Spaced j k) (hop : NameAt w k l m)
    (hlpar : Tree.Forall Fits [gapNode i i, gapNode j k])
    (hoperator : Tree.Forall Fits [nameNode k l m]) :
    ∃ j' k' l' m', i'.Across ['('] j' ∧ Spaced j' k' ∧ NameAt w k' l' m' ∧ R j j' ∧ R k k' ∧
      R l l' ∧ R m m' := by
  obtain ⟨-, hfitgap⟩ := Tree.forall_cons.mp hlpar
  obtain ⟨j', hopen', hj⟩ := hR.word hi hopen (List.all_eq_true.mp rfl)
  obtain ⟨k', hgap', hk⟩ := hR.gap hj hgap (Tree.forall_node.mp hfitgap).1
  obtain ⟨l', m', hop', hl, hm⟩ := hop.carry hR hk hoperator
  exact ⟨j', k', l', m', hopen', hgap', hop', hj, hk, hl, hm⟩

section Parts

variable {mayOpen : Nat → Prop} {n : Nat} {ts : List Tree} {items : List Item}

theorem Written.guarded_of_value (h : Written mayOpen n .value i j ts items)
    (hfits : Tree.Forall Fits ts) : Guarded Fits i := by
  cases h with
  | atom ha _ =>
    obtain ⟨-, hfits⟩ := Tree.forall_node.mp hfits
    obtain ⟨hfit, -⟩ := Tree.forall_cons.mp hfits
    cases ha with
    | literal h _ => exact fun _ => ⟨_, _, h, (Tree.forall_node.mp hfit).1⟩
    | name h _ _ => exact h.guarded
    | path h _ _ => exact h.guarded
  | call _ hopen _ _ _ _ _ => exact .of_head (by rw [hopen.1]; rfl) (by decide)

theorem Written.guarded_of_row (h : Written mayOpen n .row i j ts items)
    (hfits : Tree.Forall Fits ts) : Guarded Fits i := by
  cases h with
  | nil h => exact .of_head h (by decide)
  | operand h _ => exact h.guarded_of_value (Tree.forall_append.mp hfits).1
  | options h _ => exact .of_head h.head?_eq (by decide)

/-- What is written in the one text is written in the other one, with as many calls open as there may
be. -/
theorem Written.carry (hR : Carriage φ Fits R) {mayOpen' : Nat → Prop} {n' : Nat} {part : Part}
    (h : Written mayOpen n part i j ts items) (hi : R i i') (hfits : Tree.Forall Fits ts)
    (hj : part = .value → Guarded Fits j) (hopen : ∀ d, mayOpen (n + d) → mayOpen' (n' + d)) :
    ∃ j', Written mayOpen' n' part i' j' (Tree.relocates φ ts) (relocates φ items) ∧ R j j' := by
  -- A row ends at a closing parenthesis, so that only the end of a value needs a guard.
  induction h generalizing i' n' with
  | atom ha hgap =>
    obtain ⟨-, hfits⟩ := Tree.forall_node.mp hfits
    obtain ⟨hfit, hfitgap⟩ := Tree.forall_cons.mp hfits
    obtain ⟨l', k', ha', hk⟩ := ha.carry hR hi hfit ((hj rfl).of_spaced hgap)
    obtain ⟨j', hgap', hj⟩ := hR.gap hk hgap (Tree.forall_node.mp hfitgap).1
    refine ⟨j', ?_, hj⟩
    simp only [Tree.relocates_cons, Tree.relocates_nil, hR.relocate_nodeAt hi hj,
      hR.relocate_gapNode hk hj, relocates_operand, relocates_nil, relocate_atom]
    exact .atom ha' hgap'
  | @call n i j k l m o p q w ts items ho hstart hgap hop hrow hclose hgapq ih =>
    obtain ⟨-, hfits⟩ := Tree.forall_node.mp hfits
    obtain ⟨hfits, -⟩ := Tree.forall_cons.mp hfits
    obtain ⟨hlpar, hoperator, hfitrow, hrpar⟩ := forall_call hfits
    obtain ⟨hfitrpar, hfits⟩ := Tree.forall_node.mp hrpar
    obtain ⟨-, hfitgap⟩ := Tree.forall_cons.mp hfits
    obtain ⟨j', k', l', m', hstart', hgap', hop', hj, hk, hl, hm⟩ :=
      exists_carried_open hR hi hstart hgap hop hlpar hoperator
    have hopen' : ∀ d, mayOpen (n + 1 + d) → mayOpen' (n' + 1 + d) := by
      intro d hd
      rw [Nat.add_assoc] at hd ⊢
      exact hopen (1 + d) hd
    obtain ⟨o', hrow', ho'⟩ := ih hm hfitrow (fun hpart => nomatch hpart) hopen'
    obtain ⟨p', hclose', hp⟩ := hR.close ho' hclose hgapq hfitrpar
    obtain ⟨q', hgapq', hq⟩ := hR.gap hp hgapq (Tree.forall_node.mp hfitgap).1
    refine ⟨q', ?_, hq⟩
    simp only [Tree.relocates_cons, Tree.relocates_nil, Tree.relocates_append,
      hR.relocate_nodeAt hi hq, hR.relocate_nodeAt hi hk, hR.relocate_nodeAt hk hm,
      hR.relocate_nodeAt ho' hq, hR.relocate_gapNode hi hi, hR.relocate_gapNode hj hk,
      hR.relocate_gapNode ho' ho', hR.relocate_gapNode hp hq, hR.relocate_gapNode hq hq,
      hR.relocate_nameNode hk hl hm, relocates_operand, relocates_nil, relocate_call,
      hR.relocate_nameForm hk hl, hR.relocate_span hi hp]
    exact .call (hopen 0 ho) hstart' hgap' hop' hrow' hclose' hgapq'
  | nil h =>
    rw [Tree.relocates_nil, relocates_nil]
    exact ⟨i', .nil (hR.last hi h), hi⟩
  | operand h hrow ihv ihr =>
    obtain ⟨hfit, hfits⟩ := Tree.forall_append.mp hfits
    obtain ⟨l', h', hl⟩ := ihv hi hfit (fun _ => hrow.guarded_of_row hfits) hopen
    obtain ⟨j', hrow', hj⟩ := ihr hl hfits (fun hpart => nomatch hpart) hopen
    refine ⟨j', ?_, hj⟩
    rw [Tree.relocates_append, relocates_append]
    exact .operand h' hrow'
  | options h hrow ih =>
    obtain ⟨hfit, hfits⟩ := Tree.forall_cons.mp hfits
    obtain ⟨-, hfit⟩ := Tree.forall_node.mp hfit
    obtain ⟨l', h', hl⟩ := h.carry hR hi hfit (hrow.guarded_of_row hfits)
    obtain ⟨j', hrow', hj⟩ := ih hl hfits (fun hpart => nomatch hpart) hopen
    refine ⟨j', ?_, hj⟩
    rw [Tree.relocates_cons, relocates_append, hR.relocate_nodeAt hi hl]
    exact .options h' hrow'

end Parts

end Carrying

end Grammar

end Fexpr
