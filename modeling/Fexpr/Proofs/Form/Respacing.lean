import Fexpr.Proofs.Form.Carrying
import Fexpr.Proofs.Form.Script
import Fexpr.Proofs.Grammar.Border

/-!
# Scripts with other spacing

A gap of a script may be exchanged for any other gap that is not empty: blanks, and comments that are
closed by the end of their line. The text stays a script, and its log stays the same but for the
offsets behind the gap, which move by the difference in length.

A node of the tree lies on one side of the gap, or has all of it inside. No literal has a gap inside.
So up to the gap both texts are the same, with the gaps as a border, and behind it the one is the
other, moved.
-/

namespace Fexpr

open Text (Span byteSize)
open Grammar

/-- The token at other offsets. -/
def Grammar.Token.relocate (φ : Nat → Nat) (t : Token) : Token := ⟨t.rule, t.span.relocate φ⟩

namespace Tree

/-! ## Nodes and tokens -/

theorem postorders_relocates {φ : Nat → Nat} {ts : List Tree}
    (h : ∀ t ∈ ts, (t.relocate φ).postorder = t.postorder.map (·.relocate φ)) :
    postorders (relocates φ ts) = (postorders ts).map (·.relocate φ) := by
  induction ts with
  | nil => rw [relocates_nil, postorders_nil, List.map_nil]
  | cons t ts ih =>
    rw [relocates_cons, postorders_cons, postorders_cons, List.map_append, h t List.mem_cons_self,
      ih fun u hu => h u (List.mem_cons_of_mem t hu)]

theorem postorder_relocate (φ : Nat → Nat) (t : Tree) :
    (t.relocate φ).postorder = t.postorder.map (·.relocate φ) := by
  induction t with
  | node r s children ih =>
    rw [relocate_node, postorder_node, postorder_node, postorders_relocates ih, List.map_append]
    rfl

/-- If the same nodes cover nothing afterwards, the log moves along with the tree. -/
theorem logged_relocate {φ : Nat → Nat} {t : Tree}
    (h : ∀ u ∈ t.nodes, φ u.span.start = φ u.span.stop ↔ u.span.start = u.span.stop) :
    logged [t.relocate φ] = (logged [t]).map (·.relocate φ) := by
  simp only [logged, postorders_cons, postorders_nil, List.append_nil, postorder_relocate,
    List.filter_map]
  refine congrArg _ (List.filter_congr fun token htoken => ?_)
  obtain ⟨u, hu, rfl⟩ := mem_postorder_iff.mp htoken
  have hspan := h u hu
  by_cases hempty : u.span.start = u.span.stop
  · simp [Token.relocate, Span.relocate, Span.isEmpty, hempty]
  · simp [Token.relocate, Span.relocate, Span.isEmpty, hempty, hspan]

end Tree

namespace Grammar

variable {mayOpen : Nat → Prop} {n : Nat} {c : Clause} {i j : Cursor} {ts : List Tree}

/-! ## Nodes beside a gap -/

/-- What holds of every application of a rule, at the places that a match can come to, holds of all
nodes. -/
theorem Derives.forall_applied {Q : Cursor → Prop} {P : Tree → Prop}
    (hQ : ∀ i cs j, Q i → i.Across cs j → Q j)
    (hP : ∀ n r i j ts, Q i → Derives mayOpen n (.of r) i (.success j ts) → P (nodeAt r i j ts))
    (h : Derives mayOpen n c i (.success j ts)) (hi : Q i) : Tree.Forall P ts := by
  have hall : (Ending.success j ts).Holds fun j ts => Q i → Q j ∧ Tree.Forall P ts := by
    refine h.holds_of_closed (M := fun i ts j => Q i → Q j ∧ Tree.Forall P ts) ?_ ?_ ?_ ?_
    · exact fun i hi => ⟨hi, fun t ht => nomatch ht⟩
    · exact fun i c j hij hi => ⟨hQ i [c] j hi hij, fun t ht => nomatch ht⟩
    · intro i j k ts us hp hq hi
      obtain ⟨hj, hts⟩ := hp hi
      obtain ⟨hk, hus⟩ := hq hj
      exact ⟨hk, Tree.forall_append.mpr ⟨hts, hus⟩⟩
    · intro n r i j ts hr ih hi
      obtain ⟨hj, hts⟩ := ih hi
      exact ⟨hj, Tree.forall_node.mpr ⟨hP n r i j ts hi hr, hts⟩⟩
  exact (hall hi).2

/-- The node `v` is the node `u` or inside it. -/
def Encloses (u v : Tree) : Prop :=
  v ∈ u.nodes ∧ u.span.start ≤ v.span.start ∧ v.span.stop ≤ u.span.stop

/-- One of the two nodes is inside the other, or they are apart. -/
def Laminar (u v : Tree) : Prop :=
  Encloses u v ∨ Encloses v u ∨ u.span.stop ≤ v.span.start ∨ v.span.stop ≤ u.span.start

/-- The nodes of a match are inside each other or apart. -/
theorem Derives.forall_laminar (h : Derives mayOpen n c i (.success j ts)) :
    Tree.Forall (fun u => Tree.Forall (Laminar u) ts) ts := by
  let Between (lo hi : Nat) := Tree.Forall fun u =>
    lo ≤ u.span.start ∧ u.span.start ≤ u.span.stop ∧ u.span.stop ≤ hi
  have hall := h.holds_of_closed (M := fun i ts j => i.offset ≤ j.offset ∧
    Between i.offset j.offset ts ∧ Tree.Forall (fun u => Tree.Forall (Laminar u) ts) ts) ?_ ?_ ?_ ?_
  · exact hall.2.2
  · exact fun i => ⟨Nat.le_refl _, fun t ht => (nomatch ht), fun t ht => nomatch ht⟩
  · exact fun i c j hij => ⟨hij.offset_le, fun t ht => (nomatch ht), fun t ht => nomatch ht⟩
  · rintro i j k ts us ⟨hij, hts, hts'⟩ ⟨hjk, hus, hus'⟩
    refine ⟨Nat.le_trans hij hjk, fun t ht u hu => ?_, fun t ht u hu t' ht' v hv => ?_⟩
    · rcases List.mem_append.mp ht with ht | ht
      · have hu := hts t ht u hu
        omega
      · have hu := hus t ht u hu
        omega
    · rcases List.mem_append.mp ht with ht | ht <;> rcases List.mem_append.mp ht' with ht' | ht'
      · exact hts' t ht u hu t' ht' v hv
      · have hu := hts t ht u hu
        have hv := hus t' ht' v hv
        exact .inr (.inr (.inl (Nat.le_trans hu.2.2 hv.1)))
      · have hu := hus t ht u hu
        have hv := hts t' ht' v hv
        exact .inr (.inr (.inr (Nat.le_trans hv.2.2 hu.1)))
      · exact hus' t ht u hu t' ht' v hv
  · rintro n r i j ts - ⟨hij, hts, hts'⟩
    have hnode : Between i.offset j.offset [nodeAt r i j ts] :=
      Tree.forall_node.mpr ⟨⟨Nat.le_refl _, hij, Nat.le_refl _⟩, hts⟩
    refine ⟨hij, hnode, ?_⟩
    -- The new node has all the others inside.
    have hroot : Tree.Forall (Encloses (nodeAt r i j ts)) [nodeAt r i j ts] := by
      intro t ht u hu
      have hu' := hnode t ht u hu
      obtain rfl := List.mem_singleton.mp ht
      exact ⟨hu, hu'.1, hu'.2.2⟩
    obtain ⟨-, hinner⟩ := Tree.forall_node.mp hroot
    refine Tree.forall_node.mpr ⟨fun t ht v hv => .inl (hroot t ht v hv), fun t ht u hu => ?_⟩
    exact Tree.forall_node.mpr ⟨.inr (.inl (hinner t ht u hu)), hts' t ht u hu⟩

/-- The node does not reach into the gap between the two offsets. Gaps and literals do not have it
inside either. -/
def Beside (s e : Nat) (u : Tree) : Prop :=
  (u.span.stop ≤ s ∨ e ≤ u.span.start ∨ u.span.start ≤ s ∧ e ≤ u.span.stop) ∧
    (u.rule = .spacing ∨ u.rule = .literal → u.span.stop ≤ s ∨ s ≤ u.span.start)

/-- A node of spacing is a gap without anything inside, and there is none in a literal. -/
theorem Derives.forall_spacing {cs : List Char} (h : Derives mayOpen n c i (.success j ts))
    (hi : i.IsIn cs) :
    Tree.Forall (fun u =>
      (u.rule = .spacing → u.children = [] ∧ ∃ k l, k.IsIn cs ∧ Spaced k l ∧
        u.span = ⟨k.offset, l.offset⟩) ∧
      (u.rule = .literal → ∀ v ∈ u.nodes, v.rule ≠ .spacing)) ts := by
  refine h.forall_applied (Q := Cursor.IsIn cs) (fun i ds j hi hij => hi.across hij) ?_ hi
  intro n r i j ts hi hr
  constructor
  · rintro (rfl : r = .spacing)
    obtain ⟨hij, hts⟩ := spaced_of_derives (.rule (fun hcall => nomatch hcall) hr)
    cases hts
    exact ⟨rfl, i, j, hi, hij, rfl⟩
  · rintro (rfl : r = .literal)
    exact (Derives.rule (fun hcall => nomatch hcall) hr).forall_rule Clause.Within.literal _
      (List.mem_singleton.mpr rfl)

/-- All nodes of a match are beside each of its gaps. -/
theorem Derives.forall_beside {cs : List Char} (h : Derives mayOpen n c i (.success j ts))
    (hi : i.IsIn cs) {t g : Tree} (ht : t ∈ ts) (hg : g ∈ t.nodes) (hgap : g.rule = .spacing) :
    Tree.Forall (Beside g.span.start g.span.stop) ts := by
  intro t' ht' u hu
  have hspacing := h.forall_spacing hi t' ht' u hu
  have hself : ∀ {u v : Tree}, u.children = [] → v ∈ u.nodes → v = u := by
    rintro ⟨r, s, children⟩ v (rfl : children = []) hv
    simpa using hv
  have hle := (h.forall_between t ht g hg).2.1
  obtain ⟨hleaf, -⟩ := (h.forall_spacing hi t ht g hg).1 hgap
  rcases h.forall_laminar t ht g hg t' ht' u hu with hug | hgu | happart | happart
  · obtain rfl := hself hleaf hug.1
    exact ⟨.inr (.inr ⟨Nat.le_refl _, Nat.le_refl _⟩), fun _ => .inr (Nat.le_refl _)⟩
  · refine ⟨.inr (.inr hgu.2), ?_⟩
    rintro (hrule | hrule)
    · obtain rfl := hself (hspacing.1 hrule).1 hgu.1
      exact .inr (Nat.le_refl _)
    · exact absurd hgap (hspacing.2 hrule g hgu.1)
  · exact ⟨.inr (.inl happart), fun _ => .inr (Nat.le_trans hle happart)⟩
  · exact ⟨.inl happart, fun _ => .inl happart⟩

end Grammar

/-! ## Exchanging a gap -/

namespace Text

/-- The text with `w` in place of what the span covers. -/
def splice (cs : List Char) (s : Span) (w : List Char) : List Char :=
  slice cs ⟨0, s.start⟩ ++ (w ++ slice cs ⟨s.stop, byteSize cs⟩)

theorem splice_eq (pre old post w : List Char) :
    splice (pre ++ (old ++ post)) ⟨byteSize pre, byteSize pre + byteSize old⟩ w =
      pre ++ (w ++ post) := by
  have hpre : slice? (pre ++ (old ++ post)) ⟨0, byteSize pre⟩ = some pre :=
    slice?_eq_some_iff.mpr ⟨[], old ++ post, rfl, rfl, (Nat.zero_add _).symm⟩
  have hpost : slice? (pre ++ (old ++ post))
      ⟨byteSize pre + byteSize old, byteSize (pre ++ (old ++ post))⟩ = some post := by
    refine slice?_eq_some_iff.mpr ⟨pre ++ old, [], ?_, ?_, ?_⟩
    · rw [List.append_nil, List.append_assoc]
    · exact (byteSize_append pre old).symm
    · simp only [byteSize_append]
      omega
  rw [splice, slice, slice, hpre, hpost, Option.getD_some, Option.getD_some]

/-- Where an offset of a text comes to be if `size` bytes take the place of the span. -/
def Span.displace (s : Span) (size m : Nat) : Nat :=
  if s.stop ≤ m then s.start + size + (m - s.stop) else m

end Text

namespace Grammar

section Exchange

variable {s e size : Nat} {old w post : List Char} {i i' j : Cursor}

/-- The two places are the same place behind a span that was filled with `size` bytes. -/
def Behind (s e size : Nat) (i i' : Cursor) : Prop :=
  e ≤ i.offset ∧ i'.rest = i.rest ∧ i'.offset = Span.displace ⟨s, e⟩ size i.offset

theorem translates_displace (s e size : Nat) : Translates (Span.displace ⟨s, e⟩ size) e := by
  intro m d hm
  simp only [Span.displace]
  rw [if_pos (by omega), if_pos (by omega)]
  omega

namespace Behind

variable (h : Behind s e size i i')

include h

theorem across {x : List Char} (hij : i.Across x j) :
    ∃ j', i'.Across x j' ∧ Behind s e size j j' := by
  obtain ⟨hi, hrest, hoffset⟩ := h
  refine ⟨⟨j.rest, i'.offset + byteSize x⟩, ⟨hrest.trans hij.1, rfl⟩, ?_, rfl, ?_⟩
  · exact Nat.le_trans hi hij.offset_le
  · rw [hij.2, translates_displace s e size _ _ hi, hoffset]

theorem spaced (hij : Spaced i j) : ∃ j', Spaced i' j' ∧ Behind s e size j j' := by
  obtain ⟨gap, hgap, hbefore⟩ := hij
  obtain ⟨j', hgap', hj⟩ := h.across hgap
  exact ⟨j', ⟨gap, hgap', hj.2.1 ▸ hbefore⟩, hj⟩

theorem literal {text : List Char} {t : Tree} (hij : i.Across text j)
    (hlit : Lexes (.rule .literal) i j [t]) :
    ∃ j', i'.Across text j' ∧
      Lexes (.rule .literal) i' j' [t.relocate (Span.displace ⟨s, e⟩ size)] ∧
      Behind s e size j j' := by
  obtain ⟨j', hij', hj⟩ := h.across hij
  refine ⟨j', hij', fun mayOpen n => ?_, hj⟩
  have hmoved := (hlit mayOpen n).translate ((translates_displace s e size).mono h.1)
  simp only [Ending.relocate, Tree.relocates_cons, Tree.relocates_nil] at hmoved
  rwa [← h.2.1, ← h.2.2, ← hj.2.1, ← hj.2.2] at hmoved

end Behind

/-- A gap that is not empty is exchanged for another one. -/
structure Exchange (s e : Nat) (old w post : List Char) : Prop where
  stop_eq : e = s + byteSize old
  gap_old : GapBefore post old
  old_ne : old ≠ []
  gap_new : Gap w
  new_ne : w ≠ []

/-- The two places are the same place before the gap. -/
def BeforeGap (s e : Nat) (old w post : List Char) : Cursor → Cursor → Prop :=
  Before (Span.displace ⟨s, e⟩ (byteSize w)) 0 s (old ++ post) (w ++ post)

namespace Exchange

variable (h : Exchange s e old w post)

include h

theorem clear : ∀ c ∈ post.head?, startsGap c = false := h.gap_old.startsGap_eq_false

theorem gapBefore : GapBefore post w := .of_gap h.gap_new h.clear

theorem startsGap_old : ∀ c ∈ (old ++ post).head?, startsGap c = true := by
  have hgap := h.gap_old
  obtain ⟨d, ds, rfl⟩ := List.exists_cons_of_ne_nil h.old_ne
  exact fun c hc => hgap.startsGap_head c hc

theorem startsGap_new : ∀ c ∈ (w ++ post).head?, startsGap c = true := by
  have hgap := h.gapBefore
  obtain ⟨d, ds, rfl⟩ := List.exists_cons_of_ne_nil h.new_ne
  exact fun c hc => hgap.startsGap_head c hc

theorem start_lt_stop : s < e := by
  have hpos := Text.byteSize_pos h.old_ne
  have hstop := h.stop_eq
  omega

theorem border : Border (Span.displace ⟨s, e⟩ (byteSize w)) 0 s (old ++ post) (w ++ post) where
  shift := by
    intro m d _ hm
    have hlt := h.start_lt_stop
    simp only [Span.displace]
    rw [if_neg (by omega), if_neg (by omega)]
  delimited := fun c hc => isSolid_eq_false_of_startsGap (h.startsGap_new c hc)
  ended := fun hnil => absurd (List.append_eq_nil_iff.mp hnil).1 h.old_ne
  clear := by
    intro hclear
    have hgap := h.startsGap_old
    obtain ⟨d, ds, rfl⟩ := List.exists_cons_of_ne_nil h.old_ne
    have htrue := hgap d rfl
    rw [hclear d rfl] at htrue
    cases htrue

/-- Where the gap starts, nothing else does. -/
theorem offset_lt (hi : BeforeGap s e old w post i i') {c : Char} (hc : c ∈ i.rest.head?)
    (hgap : startsGap c = false) : i.offset < s := by
  refine Nat.lt_of_le_of_ne (Before.offset_le hi) fun hs => ?_
  rw [(Before.rest_of_border hi hs).1] at hc
  rw [h.startsGap_old c hc] at hgap
  cases hgap

theorem offset_lt_of_literal (hi : BeforeGap s e old w post i i') {t : Tree}
    (hlit : Lexes (.rule .literal) i j [t]) : i.offset < s := by
  by_contra hge
  have hs : i.offset = s := Nat.le_antisymm (Before.offset_le hi) (Nat.not_lt.mp hge)
  refine (literal_fails fun c hc => ?_).elim (hlit (fun _ => True) 0)
  rw [(Before.rest_of_border hi hs).1] at hc
  refine Bool.eq_false_iff.mpr fun hstart => ?_
  have hclear := startsGap_eq_false_of_startsAtom (c := c) (by rw [startsAtom, hstart, Bool.or_true])
  rw [h.startsGap_old c hc] at hclear
  cases hclear

/-- The one gap ends where the other one does. -/
theorem spaced (hi : BeforeGap s e old w post i i') (hs : i.offset = s) (hij : Spaced i j) :
    ∃ j', Spaced i' j' ∧ Behind s e (byteSize w) j j' := by
  obtain ⟨hrest, hrest'⟩ := Before.rest_of_border hi hs
  obtain ⟨-, hoffset, -⟩ := hi
  have hold : Spaced i ⟨post, i.offset + byteSize old⟩ := ⟨old, ⟨hrest, rfl⟩, h.gap_old⟩
  have hj : j = ⟨post, i.offset + byteSize old⟩ := by
    cases (hij.lexes (fun _ => True) 0).unique (hold.lexes (fun _ => True) 0)
    rfl
  subst hj
  have hstop := h.stop_eq
  have hlt := h.start_lt_stop
  refine ⟨⟨post, i'.offset + byteSize w⟩, ⟨w, ⟨hrest', rfl⟩, h.gapBefore⟩, ?_, rfl, ?_⟩
  · show e ≤ i.offset + byteSize old
    omega
  · simp only [Span.displace] at hoffset ⊢
    rw [if_neg (by omega)] at hoffset
    rw [if_pos (by omega)]
    omega

end Exchange

/-- The places of the two texts that correspond to each other. -/
def Exchanged (s e : Nat) (old w post : List Char) (i i' : Cursor) : Prop :=
  BeforeGap s e old w post i i' ∨ Behind s e (byteSize w) i i'

/-- What stands beside the gap is carried over. -/
theorem Exchange.carriage (h : Exchange s e old w post) :
    Carriage (Span.displace ⟨s, e⟩ (byteSize w)) (Beside s e) (Exchanged s e old w post) where
  -- Up to the gap the border decides what is ahead, and behind it the texts are the same.
  offset_eq := by
    rintro i i' (hi | hi)
    · exact hi.2.1
    · exact hi.2.2
  word := by
    rintro i i' j x (hi | hi) hij hx
    · have hold : Delimited (old ++ post) :=
        fun c hc => isSolid_eq_false_of_startsGap (h.startsGap_old c hc)
      obtain ⟨j', hij', hj⟩ := Before.word h.border hold hi hij hx
      exact ⟨j', hij', .inl hj⟩
    · obtain ⟨j', hij', hj⟩ := hi.across hij
      exact ⟨j', hij', .inr hj⟩
  close := by
    rintro i i' j k us (hi | hi) hij - -
    · have hlt := h.offset_lt hi (c := ')') (by rw [hij.1]; rfl) rfl
      obtain ⟨j', hij', hj⟩ := Before.across h.border hi hij (by rw [hij.2]; exact hlt)
      exact ⟨j', hij', .inl hj⟩
    · obtain ⟨j', hij', hj⟩ := hi.across hij
      exact ⟨j', hij', .inr hj⟩
  gap := by
    rintro i i' j (hi | hi) hij hfits
    · rcases hfits.2 (.inl rfl) with hj | hs
      · obtain ⟨j', hij', hj⟩ := Before.spaced h.border hi hij hj
        exact ⟨j', hij', .inl hj⟩
      · -- The gap itself is passed in one step.
        obtain ⟨j', hij', hj⟩ := h.spaced hi (Nat.le_antisymm (Before.offset_le hi) hs) hij
        exact ⟨j', hij', .inr hj⟩
    · obtain ⟨j', hij', hj⟩ := hi.spaced hij
      exact ⟨j', hij', .inr hj⟩
  literal := by
    rintro i i' j t text (hi | hi) hij hlit hfits hguard
    · obtain ⟨us, rfl⟩ := hlit.exists_nodeAt
      have hlt := h.offset_lt_of_literal hi hlit
      have hj : j.offset ≤ s := (hfits.2 (.inr rfl)).resolve_right (Nat.not_le.mpr hlt)
      obtain ⟨j', hij', hlit', hj⟩ := Before.literal h.border hi hij hlit hj fun hj hquote => by
        obtain ⟨k, u, hu, hfits⟩ := hguard hquote
        obtain ⟨vs, rfl⟩ := hu.exists_nodeAt
        exact ⟨k, _, hu, (hfits.2 (.inr rfl)).resolve_right (Nat.not_le.mpr hj)⟩
      exact ⟨j', hij', hlit', .inl hj⟩
    · obtain ⟨j', hij', hlit', hj⟩ := hi.literal hij hlit
      exact ⟨j', hij', hlit', .inr hj⟩
  stop := by
    rintro i i' f (hi | hi) hf hstop
    · exact Before.stop h.border hi hf hstop
    · exact hi.2.1 ▸ hstop
  step := by
    rintro i i' (hi | hi) hahead
    · exact Before.attributeAhead_eq_false h.border hi hahead
    · exact hi.2.1 ▸ hahead
  mark := by
    rintro i i' (hi | hi) hmark
    · exact fun hmark' => hmark (Before.ahead h.border hi (List.all_eq_true.mp rfl) hmark')
    · exact hi.2.1 ▸ hmark
  last := by
    rintro i i' (hi | hi) hlast
    · have hlt := h.offset_lt hi hlast rfl
      obtain ⟨-, -, x, hrest, hrest', hx⟩ := hi
      cases x with
      | nil =>
        rw [Text.byteSize_nil] at hx
        omega
      | cons c x =>
        rw [hrest] at hlast
        rw [hrest']
        exact hlast
    · exact hi.2.1 ▸ hlast

/-! ## Exchanging a gap of a script -/

theorem Exchange.displace_eq_iff (h : Exchange s e old w post) {u : Tree} (hu : Beside s e u)
    (hle : u.span.start ≤ u.span.stop) :
    Span.displace ⟨s, e⟩ (byteSize w) u.span.start = Span.displace ⟨s, e⟩ (byteSize w) u.span.stop ↔
      u.span.start = u.span.stop := by
  have hlt := h.start_lt_stop
  have hpos := Text.byteSize_pos h.new_ne
  simp only [Span.displace]
  rcases hu.1 with hu | hu | ⟨hu, hu'⟩
  · rw [if_neg (by omega), if_neg (by omega)]
  · rw [if_pos hu, if_pos (by omega)]
    omega
  · rw [if_neg (by omega), if_pos hu']
    omega

theorem ScriptAt.exchange {pre : List Char} {t : Tree} {f : Form}
    (hscript : ScriptAt (pre ++ (old ++ post)) i j t f) (h : Exchange (byteSize pre) e old w post)
    (hfits : Tree.Forall (Beside (byteSize pre) e) [scriptNode (pre ++ (old ++ post)) i t]) :
    ∃ i' j', ScriptAt (pre ++ (w ++ post)) i' j'
        (t.relocate (Span.displace ⟨byteSize pre, e⟩ (byteSize w)))
        (f.relocate (Span.displace ⟨byteSize pre, e⟩ (byteSize w))) ∧
      scriptNode (pre ++ (w ++ post)) i'
          (t.relocate (Span.displace ⟨byteSize pre, e⟩ (byteSize w))) =
        (scriptNode (pre ++ (old ++ post)) i t).relocate
          (Span.displace ⟨byteSize pre, e⟩ (byteSize w)) := by
  have hR := h.carriage
  have hlt := h.start_lt_stop
  have hzero : Span.displace ⟨byteSize pre, e⟩ (byteSize w) 0 = 0 := by
    rw [Span.displace, if_neg (by simp only; omega)]
  have hstart : Exchanged (byteSize pre) e old w post ⟨pre ++ (old ++ post), 0⟩
      ⟨pre ++ (w ++ post), 0⟩ :=
    .inl ⟨Nat.le_refl _, hzero.symm, pre, rfl, rfl, Nat.zero_add _⟩
  -- The gap at the start and the value are carried one after the other.
  obtain ⟨-, hfits⟩ := Tree.forall_node.mp hfits
  obtain ⟨hfitlead, hfits⟩ := Tree.forall_cons.mp hfits
  obtain ⟨hfitvalue, -⟩ := Tree.forall_cons.mp hfits
  obtain ⟨i', hlead', hi⟩ := hR.gap hstart hscript.lead (Tree.forall_node.mp hfitlead).1
  have hend : Guarded (Beside (byteSize pre) e) j := by
    intro hquote
    rw [hscript.rest] at hquote
    cases hquote
  obtain ⟨j', hvalue', hj⟩ : ∃ j', Written (· < maxNesting) 0 .value i' j' _ _ ∧ _ :=
    hscript.value.carry hR hi hfitvalue (fun _ => hend) fun d hd => hd
  simp only [Tree.relocates_cons, Tree.relocates_nil, Form.relocates_operand,
    Form.relocates_nil] at hvalue'
  -- A cursor before the old gap has text left, so that the end of the script is behind the gap.
  have hrest' : j'.rest = [] := by
    rcases hj with ⟨-, -, x, hrest, -⟩ | hj
    · rw [hscript.rest] at hrest
      exact absurd (List.append_eq_nil_iff.mp (List.append_eq_nil_iff.mp hrest.symm).2).1 h.old_ne
    · rw [hj.2.1, hscript.rest]
  refine ⟨i', j', ⟨hlead', hvalue', hrest'⟩, ?_⟩
  have hsize : Span.displace ⟨byteSize pre, e⟩ (byteSize w) (byteSize (pre ++ (old ++ post))) =
      byteSize (pre ++ (w ++ post)) := by
    have hstop := h.stop_eq
    simp only [Span.displace, Text.byteSize_append]
    rw [if_pos (by omega)]
    omega
  simp only [scriptNode, Tree.relocate_node, Tree.relocates_cons, Tree.relocates_nil, Span.relocate,
    hzero, hsize, hR.relocate_gapNode hstart hi]

/-- A gap of the log of a script is all of a gap of its text. -/
theorem ScriptAt.exists_gap {cs : List Char} {t : Tree} {f : Form} (h : ScriptAt cs i j t f)
    {token : Token} (htoken : token ∈ Tree.logged [scriptNode cs i t])
    (hrule : token.rule = .spacing) :
    ∃ pre old post, cs = pre ++ (old ++ post) ∧
      token.span = ⟨byteSize pre, byteSize pre + byteSize old⟩ ∧ old ≠ [] ∧ GapBefore post old ∧
      Tree.Forall (Beside token.span.start token.span.stop) [scriptNode cs i t] := by
  obtain ⟨hmem, hne⟩ := List.mem_filter.mp htoken
  rw [Tree.postorders_cons, Tree.postorders_nil, List.append_nil] at hmem
  obtain ⟨g, hg, rfl⟩ := Tree.mem_postorder_iff.mp hmem
  have hstart : Cursor.IsIn cs ⟨cs, 0⟩ := ⟨[], rfl, rfl⟩
  have hroot := List.mem_singleton.mpr (rfl : scriptNode cs i t = scriptNode cs i t)
  obtain ⟨-, k, l, ⟨pre, hcs, hk⟩, ⟨old, hkl, hgap⟩, hspan⟩ :=
    (h.derives.forall_spacing hstart _ hroot g hg).1 hrule
  refine ⟨pre, old, l.rest, by rw [hcs, hkl.1], ?_, ?_, hgap, ?_⟩
  · show g.span = _
    rw [hspan, hkl.2, hk]
  · rintro rfl
    simp [hspan, hkl.2, Span.isEmpty] at hne
  · exact h.derives.forall_beside hstart hroot hg hrule

/-- A script stays one if another gap takes the place of a gap of its log. -/
theorem ScriptAt.respace {cs : List Char} {t : Tree} {f : Form} (h : ScriptAt cs i j t f)
    {token : Token} (htoken : token ∈ Tree.logged [scriptNode cs i t])
    (hrule : token.rule = .spacing) (hw : Gap w) (hne : w ≠ []) :
    ∃ i' j', ScriptAt (Text.splice cs token.span w) i' j'
        (t.relocate (token.span.displace (byteSize w)))
        (f.relocate (token.span.displace (byteSize w))) ∧
      Tree.logged [scriptNode (Text.splice cs token.span w) i'
          (t.relocate (token.span.displace (byteSize w)))] =
        (Tree.logged [scriptNode cs i t]).map (·.relocate (token.span.displace (byteSize w))) := by
  obtain ⟨pre, old, post, rfl, hspan, hold, hgap, hfits⟩ := h.exists_gap htoken hrule
  rw [hspan] at hfits ⊢
  have hexchange : Exchange (byteSize pre) (byteSize pre + byteSize old) old w post :=
    ⟨rfl, hgap, hold, hw, hne⟩
  obtain ⟨i', j', h', hnode⟩ := h.exchange hexchange hfits
  rw [Text.splice_eq]
  refine ⟨i', j', h', ?_⟩
  rw [hnode]
  refine Tree.logged_relocate fun u hu => ?_
  have hroot := List.mem_singleton.mpr (rfl : scriptNode (pre ++ (old ++ post)) i t = _)
  exact hexchange.displace_eq_iff (hfits _ hroot u hu)
    (h.derives.forall_between _ hroot u hu).2.1

end Exchange

end Grammar

end Fexpr
