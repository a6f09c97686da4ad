import Fexpr.Operand
import Fexpr.Proofs.Form.Carrying
import Fexpr.Proofs.Form.Script
import Fexpr.Proofs.Grammar.Border

/-!
# Operands as scripts of their own

The text of an operand is cut out of the script at its trimmed span. It is a script by itself, and
its tree is that of the operand, with the spans moved to the start of the text and clipped at its
end. The spacing that trailed the operand is clipped to nothing and leaves no node.

Inside a call the border of the cut is the last parenthesis, and all that stands before it is carried
over. An atom is cut right behind its last character.
-/

namespace Fexpr

open Text (Span byteSize slice?)
open Grammar

/-- Offsets from `a` on, counted from there, and no further than `b`. -/
def Text.clip (a b m : Nat) : Nat := min m b - a

namespace Tree

/-- Nodes that cover nothing may be left out before or after the tree is moved. -/
theorem prunes_relocates_prunes (φ : Nat → Nat) (ts : List Tree)
    (ih : ∀ t ∈ ts, prunes (relocates φ (prunes [t])) = prunes [t.relocate φ]) :
    prunes (relocates φ (prunes ts)) = prunes (relocates φ ts) := by
  induction ts with
  | nil => rw [prunes_nil]
  | cons t ts ih' =>
    rw [prunes_cons, relocates_append, prunes_append, ih t List.mem_cons_self,
      ih' fun u hu => ih u (List.mem_cons_of_mem t hu), relocates_cons,
      prunes_cons (t.relocate φ) (relocates φ ts)]

theorem prunes_relocate_prune (φ : Nat → Nat) (t : Tree) :
    prunes (relocates φ (prunes [t])) = prunes [t.relocate φ] := by
  induction t with
  | node r s children ih =>
    by_cases hs : s.start = s.stop
    · have hs' : φ s.start = φ s.stop := by rw [hs]
      rw [prunes_empty hs, relocates_nil, prunes_nil, relocate_node]
      exact (prunes_empty hs').symm
    · rw [prunes_node hs, relocates_cons, relocates_nil, relocate_node, relocate_node]
      by_cases hs' : φ s.start = φ s.stop
      · exact (prunes_empty hs').trans (prunes_empty hs').symm
      · refine (prunes_node hs').trans (Eq.trans ?_ (prunes_node hs').symm)
        rw [prunes_relocates_prunes φ children ih]

end Tree

namespace Grammar

open Form Text

variable {φ : Nat → Nat} {a b : Nat} {i i' j k : Cursor}

/-! ## Cutting atoms out -/

/-- The end of a text is a border for whatever followed there. -/
theorem border_nil (y : List Char) (hφ : ∀ m s, a ≤ m → m + s ≤ b → φ (m + s) = φ m + s) :
    Border φ a b y [] where
  shift := hφ
  delimited := fun _ hc => nomatch hc
  ended := fun _ => rfl
  clear := fun _ _ hc => nomatch hc

theorem Before.offset_clip {y y' : List Char} {j' : Cursor} (h : Before φ a b y y' j j')
    (hclip : ∀ m, b ≤ m → φ m = φ b) (hj : j.offset = b) (hjk : j.offset ≤ k.offset) :
    φ k.offset = j'.offset := by
  rw [hclip _ (hj ▸ hjk), h.2.1, hj]

/-- A name whose end is the border. -/
theorem NameAt.cut {w y : List Char} (hb : Border φ a b y []) (h : NameAt w i j k)
    (hi : Before φ a b y [] i i') (hj : j.offset = b) :
    ∃ j', NameAt w i' j' j' ∧ j'.rest = [] ∧ Before φ a b y [] j j' := by
  obtain ⟨j', hij', hjj'⟩ := hi.across hb h.across (Nat.le_of_eq hj)
  have hrest := (hjj'.rest_of_border hj).2
  have hnone : ∀ {p : Char → Prop}, ∀ c ∈ j'.rest.head?, p c := by
    intro p c hc
    rw [hrest] at hc
    cases hc
  exact ⟨j', ⟨h.word, hij', hnone, .refl hnone⟩, hrest, hjj'⟩

/-- A name that ends before the border, with the gap behind it. -/
theorem NameAt.before {w y y' : List Char} (hb : Border φ a b y y') (h : NameAt w i j k)
    (hi : Before φ a b y y' i i') (hk : k.offset ≤ b) :
    ∃ j' k', NameAt w i' j' k' ∧ Before φ a b y y' j j' ∧ Before φ a b y y' k k' := by
  have hle := h.spaced.offset_le
  obtain ⟨j', hij', hjj'⟩ := hi.across hb h.across (by omega)
  obtain ⟨k', hjk', hkk'⟩ := hjj'.spaced hb h.spaced hk
  exact ⟨j', k', ⟨h.word, hij', hjj'.stop hb solid_isNameChar h.stop, hjk'⟩, hjj', hkk'⟩

theorem AttributesAt.offset_lt {ts : List Tree} {as : List Attribute}
    (h : AttributesAt i j k ts as) : i.offset < j.offset := by
  induction h with
  | last hdot hname _ => exact Nat.lt_of_le_of_lt hdot.offset_le hname.offset_lt
  | more hdot hname _ ih =>
    have hlt := hname.offset_lt
    have hle := hdot.offset_le
    have hle' := hname.spaced.offset_le
    omega

theorem AttributesAt.cut {y : List Char} (hb : Border φ a b y []) (hclip : ∀ m, b ≤ m → φ m = φ b)
    {ts : List Tree} {as : List Attribute} (h : AttributesAt i j k ts as)
    (hi : Before φ a b y [] i i') (hj : j.offset = b) :
    ∃ j', AttributesAt i' j' j' (Tree.relocates φ ts) (as.map (·.relocate φ)) ∧ j'.rest = [] ∧
      Before φ a b y [] j j' := by
  induction h generalizing i' with
  | last hdot hname _ =>
    have hlt := hname.offset_lt
    have hle := hname.spaced.offset_le
    obtain ⟨l', hdot', hl⟩ := hi.across hb hdot (by omega)
    obtain ⟨j', hname', hrest, hjj'⟩ := hname.cut hb hl hj
    refine ⟨j', ?_, hrest, hjj'⟩
    have hk := hjj'.offset_clip hclip hj hle
    simp only [nodeAt, gapNode, nameNode, Tree.relocates_cons, Tree.relocates_nil,
      Tree.relocate_node, Span.relocate, List.map_cons, List.map_nil, Attribute.relocate, hk,
      ← hi.2.1, ← hl.2.1, ← hjj'.2.1]
    exact .last hdot' hname' (by rw [hrest]; rfl)
  | more hdot hname hmore ih =>
    have hlt := hname.offset_lt
    have hle := hname.spaced.offset_le
    have hlt' := hmore.offset_lt
    obtain ⟨l', hdot', hl⟩ := hi.across hb hdot (by omega)
    obtain ⟨m', o', hname', hm, ho⟩ := hname.before hb hl (by omega)
    obtain ⟨j', hmore', hrest, hjj'⟩ := ih ho hj
    refine ⟨j', ?_, hrest, hjj'⟩
    simp only [nodeAt, gapNode, nameNode, Tree.relocates_cons, Tree.relocates_nil,
      Tree.relocate_node, Span.relocate, List.map_cons, Attribute.relocate, ← hi.2.1, ← hl.2.1,
      ← hm.2.1, ← ho.2.1]
    exact .more hdot' hname' hmore'

/-- An atom stands by itself where the text ends with it. -/
theorem AtomAt.cut {y : List Char} (hb : Border φ a b y []) (hclip : ∀ m, b ≤ m → φ m = φ b)
    {t : Tree} {x : Atom} (h : AtomAt i j k t x) (hi : Before φ a b y [] i i') (hj : j.offset = b) :
    ∃ j', AtomAt i' j' j' (t.relocate φ) (x.relocate φ) ∧ j'.rest = [] ∧
      Before φ a b y [] j j' := by
  cases h with
  | literal h htext =>
    obtain ⟨j', htext', h', hjj'⟩ := hi.literal hb htext h (Nat.le_of_eq hj)
      (fun hlt => absurd hj (Nat.ne_of_lt hlt))
    refine ⟨j', ?_, (hjj'.rest_of_border hj).2, hjj'⟩
    simp only [nodeAt, Tree.relocates_cons, Tree.relocates_nil, Tree.relocate_node, Span.relocate,
      Atom.relocate, Literal.relocate, ← hi.2.1, ← hjj'.2.1] at h' ⊢
    exact .literal h' htext'
  | name h hnil _ =>
    obtain ⟨j', h', hrest, hjj'⟩ := h.cut hb hi hj
    refine ⟨j', ?_, hrest, hjj'⟩
    have hk := hjj'.offset_clip hclip hj h.spaced.offset_le
    simp only [nodeAt, gapNode, nameNode, nameForm, Tree.relocates_cons, Tree.relocates_nil,
      Tree.relocate_node, Span.relocate, Atom.relocate, Name.relocate, hk, ← hi.2.1, ← hjj'.2.1]
    exact .name h' hnil (by rw [hrest]; rfl)
  | path h hnil hattrs =>
    have hlt := hattrs.offset_lt
    obtain ⟨l', m', h', hl, hm⟩ := h.before hb hi (by omega)
    obtain ⟨j', hattrs', hrest, hjj'⟩ := hattrs.cut hb hclip hm hj
    refine ⟨j', ?_, hrest, hjj'⟩
    have hk := hjj'.offset_clip hclip hj hattrs.offset_le
    simp only [nodeAt, gapNode, nameNode, nameForm, Tree.relocates_cons, Tree.relocates_nil,
      Tree.relocate_node, Span.relocate, Atom.relocate, Name.relocate, hk, ← hi.2.1, ← hl.2.1,
      ← hm.2.1, ← hjj'.2.1]
    exact .path h' hnil hattrs'

/-! ## Cutting calls out -/

/-- What stands before a border where both texts close a call is carried over. -/
theorem Border.carriage {y y' : List Char} (hb : Border φ a b y y') (hy : Delimited y)
    (hy' : y'.head? = some ')') : Carriage φ (·.span.stop ≤ b) (Before φ a b y y') where
  offset_eq h := h.2.1
  word h hij hx := h.word hb hy hij hx
  close h hij hjk hfits := h.across hb hij (Nat.le_trans hjk.offset_le hfits)
  gap h hij hfits := h.spaced hb hij hfits
  literal := by
    intro i i' j t text h htext hlexes hfits hguard
    obtain ⟨us, rfl⟩ := hlexes.exists_nodeAt
    refine h.literal hb htext hlexes hfits fun _ hquote => ?_
    obtain ⟨k, u, hu, hfits⟩ := hguard hquote
    obtain ⟨vs, rfl⟩ := hu.exists_nodeAt
    exact ⟨k, _, hu, hfits⟩
  stop h hf hi := h.stop hb hf hi
  step h hi := h.attributeAhead_eq_false hb hi
  mark h hi hi' := hi (h.ahead hb (List.all_eq_true.mp rfl) hi')
  last := by
    rintro i i' ⟨-, -, x, hi, hi', -⟩ hhead
    rw [hi']
    rw [hi] at hhead
    cases x with
    | nil => exact hy'
    | cons c x => exact hhead

theorem clip_add {m s : Nat} (ha : a ≤ m) (hb : m + s ≤ b) : clip a b (m + s) = clip a b m + s := by
  simp only [clip]
  omega

theorem clip_of_le {m : Nat} (hm : b ≤ m) : clip a b m = clip a b b := by
  simp only [clip]
  omega

theorem Before.eq_end {y y' text : List Char} {j' : Cursor}
    (h : Before (clip i.offset j.offset) a b y y' j j') (hij : i.Across text j)
    (hrest : j'.rest = []) : j' = ⟨[], byteSize text⟩ := by
  obtain ⟨rest, offset⟩ := j'
  obtain rfl : rest = [] := hrest
  have hoffset : offset = clip i.offset j.offset j.offset := h.2.1
  have hsize := hij.2
  simp only [clip] at hoffset
  rw [show offset = byteSize text by omega]

/-- A text, cut out, that ends in another text. -/
theorem before_clip {x y : List Char} {e o : Cursor} (hie : i.Across x o) (hoe : o.Across y e) :
    Before (clip i.offset e.offset) i.offset o.offset (y ++ e.rest) y i ⟨x ++ y, 0⟩ := by
  refine ⟨Nat.le_refl _, ?_, x, ?_, rfl, hie.2.symm⟩
  · simp only [clip]
    omega
  · rw [hie.1, hoe.1]

/-- The last parenthesis of a call is a border where the call is cut out. -/
theorem border_close {o p : Cursor} (hclose : o.Across [')'] p) :
    Border (clip a p.offset) a o.offset ([')'] ++ p.rest) [')'] where
  shift _ _ ha hm := clip_add ha (Nat.le_trans hm hclose.offset_le)
  delimited c hc := by
    cases hc
    rfl
  ended hnil := nomatch hnil
  clear _ c hc := by
    cases hc
    rfl

theorem spaced_end (m : Nat) : Spaced ⟨[], m⟩ ⟨[], m⟩ := .refl fun _ hc => nomatch hc

section Values

variable {mayOpen : Nat → Prop} {n : Nat} {ts : List Tree}

/-- A call stands by itself where the text ends with it. -/
theorem Written.cut_call {l m o p q : Cursor} {w x : List Char} {items : List Item}
    (hopen : i.Across ['('] j) (hgap : Spaced j k) (hop : NameAt w k l m)
    (hrow : Written mayOpen (n + 1) .row m o ts items) (hclose : o.Across [')'] p)
    (hgap' : Spaced p q) (hx : i.Across x o) (hdepth : ∀ d, mayOpen (n + d) → d < maxNesting)
    (h0 : mayOpen n) :
    Written (· < maxNesting) 0 .value ⟨x ++ [')'], 0⟩ ⟨[], byteSize (x ++ [')'])⟩
      [nodeAt .value ⟨x ++ [')'], 0⟩ ⟨[], byteSize (x ++ [')'])⟩
        [(nodeAt .expression i q
          (nodeAt .lpar i k [gapNode i i, gapNode j k] :: nodeAt .operator k m [nameNode k l m] ::
            (ts ++ [nodeAt .rpar o q [gapNode o o, gapNode p q]]))).relocate
              (clip i.offset p.offset),
          gapNode ⟨[], byteSize (x ++ [')'])⟩ ⟨[], byteSize (x ++ [')'])⟩]]
      [.operand ((Form.call (nameForm w k l) items ⟨i.offset, p.offset⟩).relocate
        (clip i.offset p.offset))] := by
  have hR := (border_close (a := i.offset) hclose).carriage (fun c hc => by cases hc; rfl) rfl
  have hi := before_clip hx hclose
  -- All nodes of the call up to its row end before the last parenthesis.
  have hmo : m.offset ≤ o.offset := by
    obtain ⟨r, hr⟩ := hrow.derives.across
    exact hr.offset_le
  have hkm : k.offset ≤ m.offset := by
    have hlt := hop.offset_lt
    have hle := hop.spaced.offset_le
    omega
  have hlpar : Tree.Forall (·.span.stop ≤ o.offset) [gapNode i i, gapNode j k] := by
    have hle := hopen.offset_le
    have hle' := hgap.offset_le
    refine Tree.forall_cons.mpr ⟨Tree.forall_node.mpr ⟨?_, fun t ht => nomatch ht⟩,
      Tree.forall_node.mpr ⟨?_, fun t ht => nomatch ht⟩⟩
    · show i.offset ≤ o.offset
      omega
    · show k.offset ≤ o.offset
      omega
  have hoperator : Tree.Forall (·.span.stop ≤ o.offset) [nameNode k l m] := by
    intro t ht u hu
    have hu := (hop.lexes mayOpen n).forall_between t ht u hu
    omega
  have hfits : Tree.Forall (·.span.stop ≤ o.offset) ts :=
    fun t ht u hu => (hrow.derives.forall_between t ht u hu).2.2
  obtain ⟨j', k', l', m', hopen', hgap'', hop', hj, hk, hl, hm⟩ :=
    exists_carried_open hR hi hopen hgap hop hlpar hoperator
  have hdepth' : ∀ d, mayOpen (n + 1 + d) → 0 + 1 + d < maxNesting := by
    intro d hd
    have hlt := hdepth (1 + d) (by rwa [← Nat.add_assoc])
    omega
  obtain ⟨o', hrow', ho⟩ : ∃ o', Written (· < maxNesting) (0 + 1) .row m' o'
      (Tree.relocates (clip i.offset p.offset) ts) (relocates (clip i.offset p.offset) items) ∧ _ :=
    hrow.carry hR hm hfits (fun hpart => nomatch hpart) hdepth'
  -- Behind the row there is nothing but the parenthesis.
  have hsize : clip i.offset p.offset p.offset = byteSize (x ++ [')']) := by
    have hxo := hx.2
    have hop := hclose.2
    rw [Text.byteSize_append]
    simp only [clip]
    omega
  have hclose' : o'.Across [')'] ⟨[], byteSize (x ++ [')'])⟩ := by
    refine ⟨(ho.rest_of_border rfl).2, ?_⟩
    have hle := hx.offset_le
    rw [ho.2.1, ← hsize, hclose.2]
    simp only [clip]
    omega
  have hq : clip i.offset p.offset q.offset = byteSize (x ++ [')']) := by
    rw [clip_of_le hgap'.offset_le, hsize]
  simp only [nodeAt, gapNode, nameNode, nameForm, Tree.relocates_cons, Tree.relocates_nil,
    Tree.relocates_append, Tree.relocate_node, relocate_call, Name.relocate, Span.relocate, hq,
    hsize, ← hi.2.1, ← hj.2.1, ← hk.2.1, ← hl.2.1, ← hm.2.1, ← ho.2.1]
  refine .call ?_ hopen' hgap'' hop' hrow' hclose' (spaced_end _)
  exact hdepth 0 h0

/-- A written value stands by itself where the text ends with it. -/
theorem Written.cut {cs : List Char} {f : Form}
    (h : Written mayOpen n .value i j ts [.operand f]) (hi : i.IsIn cs)
    (hdepth : ∀ d, mayOpen (n + d) → d < maxNesting) :
    ∃ e text t k, i.Across text e ∧ f.span = ⟨i.offset, e.offset⟩ ∧
      ts = [nodeAt .value i j [t, gapNode k j]] ∧
      Written (· < maxNesting) 0 .value ⟨text, 0⟩ ⟨[], byteSize text⟩
        [nodeAt .value ⟨text, 0⟩ ⟨[], byteSize text⟩
          [t.relocate (clip i.offset e.offset),
            gapNode ⟨[], byteSize text⟩ ⟨[], byteSize text⟩]]
        [.operand (f.relocate (clip i.offset e.offset))] := by
  cases h with
  | @atom _ _ e k _ t x hx hgap =>
    obtain ⟨⟨text, htext, -⟩, hspan, -⟩ := hx.reads hi
    have hbefore := before_clip htext (.refl e)
    rw [List.append_nil, List.nil_append] at hbefore
    obtain ⟨e', hx', hrest, he⟩ := hx.cut (border_nil e.rest fun m s => clip_add)
      (fun m hm => clip_of_le hm) hbefore rfl
    obtain rfl := he.eq_end htext hrest
    refine ⟨e, text, t, k, htext, hspan, rfl, ?_⟩
    rw [relocate_atom]
    exact .atom hx' (spaced_end _)
  | call ho hopen hgap hop hrow hclose hgap' =>
    obtain ⟨g, hg, -⟩ := id hgap
    obtain ⟨g', hg', -⟩ := hop.spaced
    obtain ⟨r, hr⟩ := hrow.derives.across
    have hx := hopen.trans (hg.trans (hop.across.trans (hg'.trans hr)))
    exact ⟨_, _, _, _, hx.trans hclose, rfl, rfl,
      cut_call hopen hgap hop hrow hclose hgap' hx hdepth ho⟩

/-! ## The operands of a script -/

theorem OptionsAt.operand_not_mem {items : List Item} (h : OptionsAt i j ts items) (g : Form) :
    .operand g ∉ items := by
  have hone : ∀ {i j t item}, OptionAt i j t item → .operand g ≠ item := by
    rintro i j t item ⟨⟩ hg
    cases hg
  induction h with
  | last h _ => exact fun hg => hone h (List.mem_singleton.mp hg)
  | more h _ ih =>
    intro hg
    rcases List.mem_cons.mp hg with hg | hg
    · exact hone h hg
    · exact ih hg

/-- An operand among the items is written as a value. -/
theorem Written.exists_operand {cs : List Char} {part : Part} {items : List Item}
    (h : Written mayOpen n part i j ts items) (hi : i.IsIn cs) {g : Form}
    (hg : .operand g ∈ items) :
    ∃ m k l us, Written mayOpen m .value k l us [.operand g] ∧ k.IsIn cs ∧ ∀ t ∈ us, t ∈ ts := by
  induction h with
  | atom ha hgap =>
    cases List.mem_singleton.mp hg
    exact ⟨0, _, _, _, .atom ha hgap, hi, fun _ ht => ht⟩
  | call ho hopen hgap hop hrow hclose hgap' _ =>
    cases List.mem_singleton.mp hg
    exact ⟨_, _, _, _, .call ho hopen hgap hop hrow hclose hgap', hi, fun _ ht => ht⟩
  | nil _ => cases hg
  | operand h _ ihv ihr =>
    rcases List.mem_append.mp hg with hg | hg
    · obtain ⟨m, k, l, us, hus, hk, hsub⟩ := ihv hi hg
      exact ⟨m, k, l, us, hus, hk, fun t ht => List.mem_append_left _ (hsub t ht)⟩
    · obtain ⟨m, k, l, us, hus, hk, hsub⟩ := ihr (h.isIn hi) hg
      exact ⟨m, k, l, us, hus, hk, fun t ht => List.mem_append_right _ (hsub t ht)⟩
  | options h _ ihr =>
    rcases List.mem_append.mp hg with hg | hg
    · exact absurd hg (h.operand_not_mem g)
    · obtain ⟨m, k, l, us, hus, hk, hsub⟩ := ihr (h.reads hi).1 hg
      exact ⟨m, k, l, us, hus, hk, fun t ht => List.mem_cons_of_mem _ (hsub t ht)⟩

/-- The nodes of the row of a call are nodes of the call. -/
theorem mem_nodes_of_row {r r' : Rule} {q : Cursor} {t t' v g : Tree} {us : List Tree}
    (hiq : i.offset ≠ q.offset) (hv : v ∈ Tree.prunes ts) :
    ∃ w ∈ Tree.prunes [nodeAt r i q [nodeAt r' i q (t :: t' :: (ts ++ us)), g]], v ∈ w.nodes := by
  refine ⟨_, by rw [prunes_nodeAt hiq]; exact List.mem_singleton.mpr rfl, ?_⟩
  have hcall : nodeAt r' i q (Tree.prunes (t :: t' :: (ts ++ us))) ∈
      (nodeAt r i q (Tree.prunes [nodeAt r' i q (t :: t' :: (ts ++ us)), g])).children := by
    show _ ∈ Tree.prunes _
    rw [prunes_cons, prunes_nodeAt hiq]
    exact List.mem_cons_self
  refine Tree.mem_nodes_of_mem_children hcall (Tree.mem_nodes_of_mem_children ?_ v.mem_nodes_self)
  show v ∈ Tree.prunes _
  rw [prunes_cons, prunes_cons t', Tree.prunes_append]
  simp [hv]

theorem Written.exists_of_mem {cs : List Char} {operator : Name} {items : List Item} {span : Span}
    {g : Form} (h : Written mayOpen n .value i j ts [.operand (.call operator items span)])
    (hi : i.IsIn cs) (hg : .operand g ∈ items) :
    ∃ m k l us, Written mayOpen m .value k l us [.operand g] ∧ k.IsIn cs ∧
      ∀ v ∈ Tree.prunes us, ∃ t ∈ Tree.prunes ts, v ∈ t.nodes := by
  have hlt := h.offset_lt
  cases h with
  | call _ hopen hgap hop hrow _ _ =>
    have hm := hop.isIn (hgap.isIn (hi.across hopen))
    obtain ⟨m, k, l, us, hus, hk, hsub⟩ := hrow.exists_operand hm hg
    refine ⟨m, k, l, us, hus, hk, fun v hv => mem_nodes_of_row (Nat.ne_of_lt hlt) ?_⟩
    rw [Tree.prunes_eq_flatMap] at hv ⊢
    obtain ⟨t, ht, hv⟩ := List.mem_flatMap.mp hv
    exact List.mem_flatMap.mpr ⟨t, hsub t ht, hv⟩

/-- What evaluating a written value can hand to procedures is written in it. -/
theorem Written.exists_of_hands {cs : List Char} {f g : Form}
    (h : Written mayOpen n .value i j ts [.operand f]) (hi : i.IsIn cs) (hg : f.Hands g) :
    ∃ m k l us, Written mayOpen m .value k l us [.operand g] ∧ k.IsIn cs ∧
      ∀ v ∈ Tree.prunes us, ∃ t ∈ Tree.prunes ts, v ∈ t.nodes := by
  induction hg generalizing n i j ts with
  | operand hmem => exact h.exists_of_mem hi hmem
  | inside hmem _ ih =>
    obtain ⟨m, k, l, us, hus, hk, hsub⟩ := h.exists_of_mem hi hmem
    obtain ⟨m', k', l', us', hus', hk', hsub'⟩ := ih hus hk
    refine ⟨m', k', l', us', hus', hk', fun v hv => ?_⟩
    obtain ⟨t, ht, hvt⟩ := hsub' v hv
    obtain ⟨w, hw, htw⟩ := hsub t ht
    exact ⟨w, hw, Tree.mem_nodes_trans htw hvt⟩

end Values

end Grammar

theorem Grammar.mem_nodes_of_scriptNode {cs : List Char} {i : Cursor} {t w tree : Tree}
    (h : Tree.prunes [scriptNode cs i t] = [tree]) (hw : w ∈ Tree.prunes [t]) : w ∈ tree.nodes := by
  by_cases hsize : 0 = byteSize cs
  · rw [scriptNode, Tree.prunes_empty hsize] at h
    cases h
  · rw [scriptNode, Tree.prunes_node hsize] at h
    obtain rfl := (List.cons.inj h).1
    refine Tree.mem_nodes_of_mem_children ?_ w.mem_nodes_self
    show w ∈ Tree.prunes _
    rw [prunes_cons, prunes_cons t]
    simp [hw]

/-- The content of a value that is written in a script is the content of a value of the tree. -/
theorem Grammar.Written.isOperandNode {mayOpen : Nat → Prop} {n : Nat} {cs : List Char}
    {i k l k₀ : Cursor} {t t₀ u tree : Tree} {g : Form}
    (h : Written mayOpen n .value k l [nodeAt .value k l [t₀, gapNode k₀ l]] [.operand g])
    (hu : Tree.prunes [t₀] = [u]) (hrule : u.rule ≠ .spacing)
    (htree : Tree.prunes [scriptNode cs i t] = [tree])
    (hsub : ∀ v ∈ Tree.prunes [nodeAt .value k l [t₀, gapNode k₀ l]],
      ∃ w ∈ Tree.prunes [t], v ∈ w.nodes) : Form.IsOperandNode tree u := by
  have hv : Tree.prunes [nodeAt .value k l [t₀, gapNode k₀ l]] =
      [nodeAt .value k l (u :: Tree.prunes [gapNode k₀ l])] := by
    rw [prunes_nodeAt (Nat.ne_of_lt h.offset_lt), prunes_cons, hu, List.singleton_append]
  obtain ⟨w, hw, hvw⟩ := hsub _ (hv ▸ List.mem_singleton.mpr rfl)
  exact ⟨_, Tree.mem_nodes_trans (mem_nodes_of_scriptNode htree hw) hvw, rfl,
    List.find?_cons_of_pos (by simpa using hrule)⟩

/-- The text of an operand between two places of its source. -/
theorem Operand.text_eq {x : Operand} {text : List Char} {i e : Cursor}
    (hi : i.IsIn x.source.chars) (hie : i.Across text e)
    (hspan : x.span = ⟨i.offset, e.offset⟩) : x.text = String.ofList text := by
  rw [Operand.text, Source.slice, hspan, Text.slice, hi.slice? hie]
  rfl

/-- A value that is all of a text is a program. -/
theorem Program.exists_of_written {source : Source} {m : Nat} {t g : Tree} {f : Form}
    (h : Written (· < maxNesting) 0 .value ⟨source.chars, 0⟩ ⟨[], m⟩
      [nodeAt .value ⟨source.chars, 0⟩ ⟨[], m⟩ [t, g]] [.operand f]) :
    ∃ root u, compile source = .ok ⟨source, [root], .ok f⟩ ∧ u.IsContentOf root ∧
      Tree.prunes [t] = [u] ∧ Form.ofTree source.chars u = .ok f := by
  have hscript : ScriptAt source.chars _ _ _ f := ⟨.refl h.clear_start, h, rfl⟩
  obtain ⟨root, t', k, u, hroot, -, ht, hu, hcontent, -, hread⟩ := hscript.reads
  simp only [nodeAt, Tree.node.injEq, List.cons.injEq, true_and, and_true] at ht
  refine ⟨root, u, ?_, hcontent, by rw [ht.1, hu], hread⟩
  rw [← hroot]
  exact compile_eq_ok hscript

open Text (clip)

/-- Every operand stands on its own. Each operand that a call of a compiled script can hand to its
procedure is the content of a value of the tree, and its text, which is cut out at the trimmed span,
compiles by itself. The content of the tree of this text is the subtree of the operand, counted from
the start of the operand, clipped at its trimmed end, and without what is clipped to nothing. It has
the same shape and the same text. -/
theorem operand_text_compiles {source : Source} {p : Program}
    (h : Program.compile source = .ok p) :
    ∃ tree form, p.tree? = some tree ∧ p.body = .ok form ∧
      ∀ x : Operand, x.source = source → form.Hands x.form → ∃ u, Form.IsOperandNode tree u ∧
        Form.ofTree source.chars u = .ok x.form ∧ u.trimmedSpan source.chars = x.span ∧
        ∀ name, ∃ p' root u' f, Program.compile ⟨name, x.text⟩ = .ok p' ∧ p'.tree? = some root ∧
          p'.body = .ok f ∧ u'.IsContentOf root ∧ Form.ofTree x.text.toList u' = .ok f ∧
          Tree.prunes [u.relocate (clip x.span.start x.span.stop)] = [u'] ∧
          f = x.form.relocate (clip x.span.start x.span.stop) ∧
          ({ x with source := ⟨name, x.text⟩, form := f } : Operand).shape = x.shape ∧
          ({ x with source := ⟨name, x.text⟩, form := f } : Operand).text = x.text := by
  obtain ⟨i, j, t, form, hscript, rfl⟩ := Program.exists_scriptAt_of_compile h
  obtain ⟨tree, -, -, -, hprunes, -⟩ := hscript.reads
  refine ⟨tree, form, by rw [Program.tree?, hprunes]; rfl, rfl, ?_⟩
  rintro x rfl hhands
  obtain ⟨m, k, l, us, hus, hk, hsub⟩ := hscript.value.exists_of_hands hscript.isIn hhands
  obtain ⟨t₀, k₀, u, rfl, hu, hrule, hspan, hread⟩ := hus.reads hk
  -- The same derivation is cut out of the text and starts at zero, with no calls open.
  obtain ⟨e, text, t₁, k₁, htext, hspan', htree, hcut⟩ :=
    hus.cut hk (fun d hd => Nat.lt_of_le_of_lt (Nat.le_add_left d m) hd)
  obtain rfl : t₀ = t₁ := by
    simp only [nodeAt, List.cons.injEq, Tree.node.injEq, true_and, and_true] at htree
    exact htree.1
  refine ⟨u, hus.isOperandNode hu hrule hprunes hsub, hread, hspan, fun name => ?_⟩
  have hspan' : x.span = ⟨k.offset, e.offset⟩ := hspan'
  have hchars : (⟨name, x.text⟩ : Source).chars = text := by
    rw [Operand.text_eq hk htext hspan']
    exact String.toList_ofList
  rw [← hchars] at hcut
  obtain ⟨root, u', hcompile, hcontent, hu', hread'⟩ := Program.exists_of_written hcut
  have hf : ∀ f, f = x.form.relocate (clip k.offset e.offset) →
      f.span = ⟨0, byteSize text⟩ := by
    rintro f rfl
    rw [Form.span_relocate, show x.form.span = _ from hspan']
    have hsize := htext.2
    simp only [Text.Span.relocate, clip, Text.Span.mk.injEq]
    omega
  rw [hspan']
  refine ⟨_, root, u', _, hcompile, rfl, rfl, hcontent, hread', ?_, rfl,
    Form.shape_relocate _ x.form, ?_⟩
  · have hcommute := Tree.prunes_relocate_prune (clip k.offset e.offset) t₀
    rw [hu, Tree.relocates_cons, Tree.relocates_nil] at hcommute
    rw [hcommute, hu']
  · have hall : Cursor.Across ⟨text, 0⟩ text ⟨[], byteSize text⟩ :=
      ⟨(List.append_nil _).symm, (Nat.zero_add _).symm⟩
    refine (Operand.text_eq (i := ⟨text, 0⟩) ?_ hall (hf _ rfl)).trans ?_
    · exact ⟨[], hchars, rfl⟩
    · rw [Operand.text_eq hk htext hspan']

namespace Form

mutual

/-- The operands in a form, at any depth. -/
def operands : Form → List Form
  | atom _ => []
  | call _ items _ => operandsOf items

def operandsOf : List Item → List Form
  | [] => []
  | .operand f :: items => f :: (f.operands ++ operandsOf items)
  | .option _ _ :: items => operandsOf items

end

mutual

theorem hands_of_mem_operands {f g : Form} (h : g ∈ f.operands) : f.Hands g := by
  cases f with
  | atom a =>
    rw [operands] at h
    cases h
  | call operator items span =>
    rw [operands] at h
    exact hands_of_mem_operandsOf h operator span

theorem hands_of_mem_operandsOf {items : List Item} {g : Form} (h : g ∈ operandsOf items)
    (operator : Name) (span : Span) : Hands (.call operator items span) g := by
  have hmore : ∀ {item items}, Hands (.call operator items span) g →
      Hands (.call operator (item :: items) span) g := by
    intro item items hg
    cases hg with
    | operand hmem => exact .operand (List.mem_cons_of_mem _ hmem)
    | inside hmem hg => exact .inside (List.mem_cons_of_mem _ hmem) hg
  cases items with
  | nil =>
    rw [operandsOf] at h
    cases h
  | cons item items =>
    cases item with
    | operand f =>
      rw [operandsOf] at h
      rcases List.mem_cons.mp h with rfl | h
      · exact .operand List.mem_cons_self
      · rcases List.mem_append.mp h with h | h
        · exact .inside List.mem_cons_self (hands_of_mem_operands h)
        · exact hmore (hands_of_mem_operandsOf h operator span)
    | option key value =>
      rw [operandsOf] at h
      exact hmore (hands_of_mem_operandsOf h operator span)

end

end Form

/-- A path in a call in a call, with a comment behind it. Before it there are two strings that could
be taken for the start of a long one. -/
def nestedPath : Source := ⟨"script", "(f \"\"\"a\" (g x .y ; c\n))"⟩

/-- The nested path is a script of its own. -/
theorem operand_text_compiles_nestedPath :
    ∃ p form f, Program.compile nestedPath = .ok p ∧ p.body = .ok form ∧ form.Hands f ∧
      nestedPath.slice f.span = "x .y" ∧
      ∃ p' f', Program.compile ⟨"operand", "x .y"⟩ = .ok p' ∧ p'.body = .ok f' ∧
        f'.shape = f.shape ∧ f' = f.relocate (clip f.span.start f.span.stop) := by
  have htexts : ((Program.compile nestedPath).toOption.bind fun p => p.body.toOption).map
      (fun form => form.operands.map fun f => nestedPath.slice f.span) =
        some ["\"\"", "\"a\"", "(g x .y ; c\n)", "x .y"] := by
    decide +kernel
  obtain ⟨form, hread, htexts⟩ := Option.map_eq_some_iff.mp htexts
  obtain ⟨p, hp, hread⟩ := Option.bind_eq_some_iff.mp hread
  have hp := Program.compile_eq_ok_of_toOption hp
  obtain ⟨tree, form', -, hform, hstands⟩ := operand_text_compiles hp
  rw [hform] at hread
  obtain rfl : form' = form := Option.some.inj hread
  have hmem : "x .y" ∈ form'.operands.map fun f => nestedPath.slice f.span := by
    rw [htexts]
    decide
  obtain ⟨f, hf, htext⟩ := List.mem_map.mp hmem
  have hhands := Form.hands_of_mem_operands hf
  obtain ⟨u, -, -, -, hu⟩ := hstands ⟨nestedPath, f, .root, 0⟩ rfl hhands
  obtain ⟨p', root, u', f', hcompile, -, hbody, -, -, -, hrelocate, hshape, -⟩ := hu "operand"
  exact ⟨p, form', f, hp, hform, hhands, htext, p', f', htext ▸ hcompile, hbody, hshape, hrelocate⟩

end Fexpr
