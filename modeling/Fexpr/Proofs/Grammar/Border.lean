import Fexpr.Proofs.Grammar.Written

/-!
# Changing the text behind a border

Two texts are the same up to a border, and neither goes on with a solid character there. Then each
lexeme before the border stands in both texts: words end in front of the border anyway, and gaps and
literals do if they are not torn apart by it. What must not follow a lexeme follows it in neither
text.
-/

namespace Fexpr

open Text (byteSize Span)

/-- Only the offsets that occur in a tree matter when it is moved. -/
theorem Tree.relocate_congr {φ ψ : Nat → Nat} {t : Tree}
    (h : ∀ u ∈ t.nodes, u.span.relocate φ = u.span.relocate ψ) : t.relocate φ = t.relocate ψ := by
  induction t with
  | node r s children ih =>
    have hspan := h _ (mem_nodes_self _)
    have hchildren : relocates φ children = relocates ψ children := by
      rw [relocates_eq_map, relocates_eq_map]
      refine List.map_congr_left fun c hc => ih c hc fun u hu => h u ?_
      exact mem_nodes_of_mem_children hc hu
    rw [relocate_node, relocate_node, hchildren]
    exact congrArg (node r · _) hspan

namespace Grammar

/-- The nodes of a match lie between its places. -/
theorem Derives.forall_between {mayOpen : Nat → Prop} {n : Nat} {c : Clause} {i j : Cursor}
    {ts : List Tree} (h : Derives mayOpen n c i (.success j ts)) :
    ∀ t ∈ ts, ∀ u ∈ t.nodes, i.offset ≤ u.span.start ∧ u.span.start ≤ u.span.stop ∧
      u.span.stop ≤ j.offset := by
  have hall := h.holds_of_closed (M := fun i ts j => i.offset ≤ j.offset ∧ ∀ t ∈ ts, ∀ u ∈ t.nodes,
    i.offset ≤ u.span.start ∧ u.span.start ≤ u.span.stop ∧ u.span.stop ≤ j.offset)
    ?_ ?_ ?_ ?_
  · exact hall.2
  · exact fun i => ⟨Nat.le_refl _, fun t ht => nomatch ht⟩
  · exact fun i c j hij => ⟨hij.offset_le, fun t ht => nomatch ht⟩
  · rintro i j k ts us ⟨hij, hts⟩ ⟨hjk, hus⟩
    refine ⟨Nat.le_trans hij hjk, fun t ht u hu => ?_⟩
    rcases List.mem_append.mp ht with ht | ht
    · have hu := hts t ht u hu
      omega
    · have hu := hus t ht u hu
      omega
  · rintro n r i j ts - ⟨hij, hts⟩
    refine ⟨hij, fun t ht u hu => ?_⟩
    obtain rfl := List.mem_singleton.mp ht
    rw [Tree.nodes_node] at hu
    rcases List.mem_cons.mp hu with rfl | hu
    · exact ⟨Nat.le_refl _, hij, Nat.le_refl _⟩
    · obtain ⟨t, ht, hu⟩ := List.mem_flatMap.mp hu
      exact hts t ht u hu

theorem Lexes.exists_nodeAt {r : Rule} {i j : Cursor} {t : Tree} (h : Lexes (.rule r) i j [t]) :
    ∃ us, t = nodeAt r i j us := by
  obtain ⟨us, hus⟩ := (h (fun _ => True) 0).exists_node
  exact ⟨us, (List.cons.inj hus).1⟩

/-- A literal that starts with a quote ends with another one. -/
theorem exists_quoted {mayOpen : Nat → Prop} {n : Nat} {i j : Cursor} {ts : List Tree}
    (h : Derives mayOpen n (.rule .literal) i (.success j ts)) (hi : i.rest.head? = some '"') :
    ∃ a, i.Across ('"' :: (a ++ ['"'])) j := by
  have hnumber : ∀ c ∈ i.rest.head?, startsNumber c = false := by
    intro c hc
    cases Option.some.inj (hi.symm.trans hc)
    rfl
  obtain ⟨kind, us, hkind, -⟩ := exists_kind_of_literal h
  cases kind with
  | nil =>
    obtain ⟨hij, -, -⟩ := nilLiteral_iff.mp hkind
    rw [hij.1] at hi
    cases hi
  | bool =>
    obtain ⟨hij | hij, -, -⟩ := boolLiteral_iff.mp hkind <;>
    · rw [hij.1] at hi
      cases hi
  | integer => exact (integerLiteral_fails hnumber).elim hkind
  | float => exact (floatLiteral_fails hnumber).elim hkind
  | string =>
    obtain ⟨a, hij, -⟩ := exists_of_stringLiteral hkind
    exact ⟨a, hij⟩
  | longString => exact exists_of_longStringLiteral hkind

/-! ## Borders -/

/-- Solid characters do not reach into a closed text. -/
theorem Delimited.prefix_of_append {w x y : List Char} (hy : Delimited y)
    (hw : ∀ c ∈ w, isSolid c = true) (h : w <+: x ++ y) : w <+: x := by
  obtain ⟨rest, hrest⟩ := h
  rcases List.append_eq_append_iff.mp hrest with ⟨mid, rfl, -⟩ | ⟨mid, rfl, rfl⟩
  · exact List.prefix_append w mid
  · cases mid with
    | nil => exact ⟨[], by rw [List.append_nil, List.append_nil]⟩
    | cons c mid =>
      have hsolid := hw c (List.mem_append_right x List.mem_cons_self)
      rw [hy c rfl] at hsolid
      cases hsolid

/-- From `a` up to the border `b` offsets move by the same distance. There the text `y` becomes the
text `y'`, which is closed, and which does not extend a gap. -/
structure Border (φ : Nat → Nat) (a b : Nat) (y y' : List Char) : Prop where
  shift : ∀ m s, a ≤ m → m + s ≤ b → φ (m + s) = φ m + s
  delimited : Delimited y'
  ended : y = [] → y' = []
  clear : (∀ c ∈ y.head?, startsGap c = false) → ∀ c ∈ y'.head?, startsGap c = false

/-- The two places are the same place before the border. -/
def Before (φ : Nat → Nat) (a b : Nat) (y y' : List Char) (i i' : Cursor) : Prop :=
  a ≤ i.offset ∧ i'.offset = φ i.offset ∧
    ∃ x, i.rest = x ++ y ∧ i'.rest = x ++ y' ∧ i.offset + byteSize x = b

namespace Before

variable {φ : Nat → Nat} {a b : Nat} {y y' : List Char} {i i' j : Cursor}

theorem offset_le (h : Before φ a b y y' i i') : i.offset ≤ b := by
  obtain ⟨-, -, x, -, -, hx⟩ := h
  omega

theorem rest_of_border (h : Before φ a b y y' i i') (hi : i.offset = b) :
    i.rest = y ∧ i'.rest = y' := by
  obtain ⟨-, -, x, hrest, hrest', hx⟩ := h
  have hnil : x = [] := by
    by_contra hne
    have hpos := Text.byteSize_pos hne
    omega
  subst hnil
  exact ⟨hrest, hrest'⟩

/-- What ends before the border is in both texts. -/
theorem across (hb : Border φ a b y y') (h : Before φ a b y y' i i') {x : List Char}
    (hij : i.Across x j) (hj : j.offset ≤ b) :
    ∃ j', i'.Across x j' ∧ Before φ a b y y' j j' := by
  obtain ⟨ha, hoffset, z, hi, hi', hz⟩ := h
  have hsize : byteSize x ≤ byteSize z := by
    have hij2 := hij.2
    omega
  obtain ⟨mid, rfl, hj'⟩ := Text.exists_append_of_byteSize_le (hij.1.symm.trans hi) hsize
  have hshift := hb.shift i.offset (byteSize x) ha (by rw [← hij.2]; exact hj)
  refine ⟨⟨mid ++ y', i'.offset + byteSize x⟩, ⟨by rw [hi', List.append_assoc], rfl⟩, ?_, ?_, mid,
    hj', rfl, ?_⟩
  · rw [hij.2]
    omega
  · rw [hij.2, hshift, hoffset]
  · rw [Text.byteSize_append] at hz
    rw [hij.2, ← hz, Nat.add_assoc]

/-- Solid characters do not reach over the border, if the first text is closed there, too. -/
theorem word (hb : Border φ a b y y') (hy : Delimited y) (h : Before φ a b y y' i i')
    {x : List Char} (hij : i.Across x j) (hx : ∀ c ∈ x, isSolid c = true) :
    ∃ j', i'.Across x j' ∧ Before φ a b y y' j j' := by
  refine across hb h hij ?_
  obtain ⟨-, -, z, hi, -, hz⟩ := h
  obtain ⟨mid, rfl⟩ := hy.prefix_of_append hx ⟨j.rest, hij.1.symm.trans hi⟩
  rw [hij.2, ← hz, Text.byteSize_append]
  omega

theorem stop (hb : Border φ a b y y') (h : Before φ a b y y' i i') {f : Char → Bool} (hf : Solid f)
    (hi : ∀ c ∈ i.rest.head?, f c = false) : ∀ c ∈ i'.rest.head?, f c = false := by
  obtain ⟨-, -, z, hrest, hrest', -⟩ := h
  intro c hc
  rw [hrest'] at hc
  rw [hrest] at hi
  cases z with
  | nil => exact hf.eq_false (hb.delimited c hc)
  | cons d z => exact hi c hc

/-- Solid characters that are not ahead in the one text are not ahead in the other. -/
theorem ahead (hb : Border φ a b y y') (h : Before φ a b y y' i i') {w : List Char}
    (hw : ∀ c ∈ w, isSolid c = true) (hi' : w <+: i'.rest) : w <+: i.rest := by
  obtain ⟨-, -, z, hrest, hrest', -⟩ := h
  rw [hrest'] at hi'
  rw [hrest]
  exact (hb.delimited.prefix_of_append hw hi').trans (List.prefix_append z y)

theorem attributeAhead_eq_false (hb : Border φ a b y y') (h : Before φ a b y y' i i')
    (hi : attributeAhead i.rest = false) : attributeAhead i'.rest = false := by
  refine Bool.eq_false_iff.mpr fun hi' => Bool.eq_false_iff.mp hi ?_
  obtain ⟨d, hd, hahead⟩ := attributeAhead_iff.mp hi'
  refine attributeAhead_iff.mpr ⟨d, hd, h.ahead hb ?_ hahead⟩
  intro c hc
  rcases List.mem_cons.mp hc with rfl | hc
  · rfl
  · rw [List.mem_singleton.mp hc]
    exact solid_isNameStart d hd

/-- A gap that ends before the border is one in both texts. -/
theorem spaced (hb : Border φ a b y y') (h : Before φ a b y y' i i') (hij : Spaced i j)
    (hj : j.offset ≤ b) : ∃ j', Spaced i' j' ∧ Before φ a b y y' j j' := by
  obtain ⟨gap, hgap, hbefore⟩ := hij
  obtain ⟨j', hgap', hjj'⟩ := h.across hb hgap hj
  refine ⟨j', ⟨gap, hgap', ?_⟩, hjj'⟩
  obtain ⟨-, -, z, hrest, hrest', -⟩ := hjj'
  have hclear := hbefore.startsGap_eq_false
  rw [hrest] at hbefore hclear
  rw [hrest']
  refine hbefore.change (fun hnil => ?_) ?_
  · obtain ⟨rfl, hy⟩ := List.append_eq_nil_iff.mp hnil
    exact hb.ended hy
  cases z with
  | nil => exact hb.clear hclear
  | cons d z => exact hclear

/-- A literal that ends before the border is one in both texts, if a quote between it and the border
is closed before the border. -/
theorem literal (hb : Border φ a b y y') (h : Before φ a b y y' i i') {text : List Char} {t : Tree}
    (hij : i.Across text j) (hlit : Lexes (.rule .literal) i j [t]) (hj : j.offset ≤ b)
    (hquote : j.offset < b → j.rest.head? = some '"' →
      ∃ k u, Lexes (.rule .literal) j k [u] ∧ k.offset ≤ b) :
    ∃ j', i'.Across text j' ∧ Lexes (.rule .literal) i' j' [t.relocate φ] ∧
      Before φ a b y y' j j' := by
  obtain ⟨j', hij', hjj'⟩ := h.across hb hij hj
  refine ⟨j', hij', fun mayOpen n => ?_, hjj'⟩
  obtain ⟨ha, hoffset, -⟩ := h
  obtain ⟨-, hoffset', z, hz, hz', hzb⟩ := hjj'
  have hclosed : z.head? = some '"' → '"' ∈ z.tail := by
    intro hhead
    have hj0 : j.rest.head? = some '"' := by rw [hz, List.head?_append, hhead]; rfl
    have hlt : j.offset < b := by
      have hne : z ≠ [] := by
        rintro rfl
        cases hhead
      have hpos := Text.byteSize_pos hne
      omega
    obtain ⟨k, u, hu, hk⟩ := hquote hlt hj0
    obtain ⟨q, hjk⟩ := exists_quoted (hu mayOpen n) hj0
    -- The closing quote is before the border.
    have hsize : byteSize ('"' :: (q ++ ['"'])) ≤ byteSize z := by
      have hjk2 := hjk.2
      omega
    obtain ⟨mid, hmid, -⟩ := Text.exists_append_of_byteSize_le (hjk.1.symm.trans hz) hsize
    rw [hmid]
    simp
  have hmove : Derives mayOpen n (.rule .literal) ⟨text ++ z ++ y, i.offset⟩
      (.success ⟨z ++ y, j.offset⟩ [t]) := by
    rw [List.append_assoc, ← hz, ← hij.1]
    exact hlit mayOpen n
  have hψ : Translates (fun m => φ i.offset + (m - i.offset)) i.offset := by
    intro m s hm
    show φ i.offset + (m + s - i.offset) = φ i.offset + (m - i.offset) + s
    omega
  have hagree : ∀ m, i.offset ≤ m → m ≤ j.offset → φ i.offset + (m - i.offset) = φ m := by
    intro m hm hmj
    have hshift := hb.shift i.offset (m - i.offset) ha (by omega)
    rw [Nat.add_sub_cancel' hm] at hshift
    exact hshift.symm
  have htree : t.relocate (fun m => φ i.offset + (m - i.offset)) = t.relocate φ := by
    refine Tree.relocate_congr fun u hu => ?_
    have hu := (hlit mayOpen n).forall_between t (List.mem_singleton.mpr rfl) u hu
    rw [Span.relocate, Span.relocate, hagree _ hu.1 (by omega), hagree _ (by omega) hu.2.2]
  have hchanged := (literal_change hb.delimited hclosed hmove).translate hψ
  simp only [Ending.relocate, Tree.relocates_cons, Tree.relocates_nil, htree, Nat.sub_self,
    Nat.add_zero, hagree j.offset hij.offset_le (Nat.le_refl _)] at hchanged
  rw [← hoffset, ← hoffset', ← hz', List.append_assoc, ← hz', ← hij'.1] at hchanged
  exact hchanged

end Before

end Grammar

end Fexpr
