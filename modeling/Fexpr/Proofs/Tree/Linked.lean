import Fexpr.Proofs.Tree.OfMatch
import Mathlib.Data.List.Nodup

/-!
# Linked trees

A log can be reduced without building any tree. Every token that covers something becomes a node of
a table, in the order of the log, and nodes are linked by their numbers: a node to its first child,
and a child to the next one (`Linked.build`). While the log is read, links are changed in place.

The table is that of the trees that the log is reduced to (`Linked.build_eq`): the nodes of a tree
lie one after the other in the table, each after its children (`Tree.layout`). What the links are is
told by where a tree lies (`Linked.Holds`).
-/

namespace Fexpr

open Text (Span)
open Grammar (Rule Token)

/-! ## Tables of nodes -/

/-- A node that knows others by their numbers. -/
structure Linked.Node where
  rule : Rule
  span : Span
  firstChild : Option Nat
  nextSibling : Option Nat
deriving DecidableEq

/-- Trees as a table of linked nodes. -/
structure Linked where
  /-- The nodes, by number. -/
  nodes : List Linked.Node
  root : Option Nat

namespace Linked

def Node.token (n : Node) : Token := ⟨n.rule, n.span⟩

/-- Takes the nodes off the stack that lie inside `span` and makes each the first child of the node
`id`. There is no result if a number is not that of a node. -/
def adopt (span : Span) (id : Nat) : List Nat → List Node → Option (List Nat × List Node)
  | [], nodes => some ([], nodes)
  | top :: stack, nodes => do
    let child ← nodes[top]?
    if span.contains child.span then
      let parent ← nodes[id]?
      let nodes := nodes.modify top fun n => { n with nextSibling := parent.firstChild }
      adopt span id stack (nodes.modify id fun n => { n with firstChild := some top })
    else some (top :: stack, nodes)

/-- Adds the node of a token that covers something. -/
def push (state : List Nat × List Node) (t : Token) : Option (List Nat × List Node) :=
  if t.span.isEmpty then some state
  else do
    let id := state.2.length
    let (stack, nodes) ← adopt t.span id state.1 (state.2 ++ [⟨t.rule, t.span, none, none⟩])
    return (id :: stack, nodes)

/-- The table of a log. -/
def build (tokens : List Token) : Option Linked := do
  let (stack, nodes) ← tokens.foldlM push ([], [])
  return ⟨nodes, stack.head?⟩

end Linked

/-! ## Where a tree lies -/

namespace Tree

/-- The number of the root of a tree whose nodes have the numbers from `base` on. -/
def place (base : Nat) (t : Tree) : Nat := base + sizes t.children

/-- The number of the first one of several trees in a row. -/
def firstPlace (base : Nat) : List Tree → Option Nat
  | [] => none
  | t :: _ => some (t.place base)

/-- The numbers of several trees in a row. -/
def places (base : Nat) : List Tree → List Nat
  | [] => []
  | t :: ts => t.place base :: places (base + t.size) ts

mutual

/-- The nodes of a tree from the number `base` on, each after its children. The root is followed by
the sibling `next`. -/
def layout (base : Nat) (next : Option Nat) : Tree → List Linked.Node
  | node r s cs => layouts base cs ++ [⟨r, s, firstPlace base cs, next⟩]

/-- The nodes of siblings. -/
def layouts (base : Nat) : List Tree → List Linked.Node
  | [] => []
  | t :: ts => t.layout base (firstPlace (base + t.size) ts) ++ layouts (base + t.size) ts

end

variable {base : Nat} {next : Option Nat}

@[simp] theorem sizes_nil : sizes [] = 0 := by
  rw [sizes]

@[simp] theorem sizes_cons (t : Tree) (ts : List Tree) : sizes (t :: ts) = t.size + sizes ts := by
  rw [sizes]

@[simp] theorem sizes_append (ts us : List Tree) : sizes (ts ++ us) = sizes ts + sizes us := by
  induction ts with
  | nil => rw [List.nil_append, sizes_nil, Nat.zero_add]
  | cons t ts ih => rw [List.cons_append, sizes_cons, ih, sizes_cons, Nat.add_assoc]

@[simp] theorem sizes_reverse (ts : List Tree) : sizes ts.reverse = sizes ts := by
  induction ts with
  | nil => rw [List.reverse_nil]
  | cons t ts ih =>
    rw [List.reverse_cons, sizes_append, ih, sizes_cons, sizes_cons, sizes_nil, Nat.add_zero,
      Nat.add_comm]

theorem size_eq (t : Tree) : t.size = sizes t.children + 1 := by
  cases t
  rw [size, children, Nat.add_comm]

theorem layout_eq (t : Tree) : t.layout base next =
    layouts base t.children ++ [⟨t.rule, t.span, firstPlace base t.children, next⟩] := by
  cases t
  rw [layout, rule, span, children]

theorem length_layouts {ts : List Tree}
    (h : ∀ t ∈ ts, ∀ base next, (t.layout base next).length = t.size) (base : Nat) :
    (layouts base ts).length = sizes ts := by
  induction ts generalizing base with
  | nil => rw [layouts, sizes_nil, List.length_nil]
  | cons t ts ih =>
    rw [layouts, List.length_append, h t List.mem_cons_self,
      ih fun u hu => h u (List.mem_cons_of_mem t hu), sizes_cons]

@[simp] theorem length_layout (t : Tree) :
    ∀ base next, (t.layout base next).length = t.size := by
  induction t with
  | node r s cs ih =>
    intro base next
    rw [layout, List.length_append, length_layouts ih, List.length_singleton, size, Nat.add_comm]

end Tree

namespace Linked

open Fexpr.Tree

variable {nodes : List Node} {base : Nat} {next : Option Nat} {t : Tree} {ts : List Tree}

/-- The table of trees on a stack, none of which has a sibling. -/
def ofForest : Forest → List Node
  | [] => []
  | t :: below => ofForest below ++ t.layout (sizes below) none

/-- The numbers of the trees on a stack. -/
def tops : Forest → List Nat
  | [] => []
  | t :: below => t.place (sizes below) :: tops below

@[simp] theorem length_ofForest (f : Forest) : (ofForest f).length = sizes f := by
  induction f with
  | nil => rw [ofForest, List.length_nil, sizes_nil]
  | cons t below ih =>
    rw [ofForest, List.length_append, ih, length_layout, sizes_cons, Nat.add_comm]

/-! ## Building the table of a log -/

/-- A table in which a tree lies, taken apart at the root of the tree. -/
theorem append_layout_append (t : Tree) (next : Option Nat) (pre post : List Node)
    (h : pre.length = base) :
    pre ++ t.layout base next ++ post =
        pre ++ layouts base t.children ++
          ⟨t.rule, t.span, firstPlace base t.children, next⟩ :: post ∧
      (pre ++ layouts base t.children).length = t.place base := by
  have hlength : (layouts base t.children).length = sizes t.children :=
    length_layouts (fun u _ => length_layout u) base
  refine ⟨?_, by rw [List.length_append, hlength, h, place]⟩
  rw [layout_eq, ← List.append_assoc, List.append_assoc _ [_], List.singleton_append]

theorem getElem?_place (t : Tree) (next : Option Nat) (pre post : List Node)
    (h : pre.length = base) :
    (pre ++ t.layout base next ++ post)[t.place base]? =
      some ⟨t.rule, t.span, firstPlace base t.children, next⟩ := by
  obtain ⟨hsplit, hlength⟩ := append_layout_append t next pre post h
  rw [hsplit, ← hlength, List.getElem?_append_right (Nat.le_refl _), Nat.sub_self,
    List.getElem?_cons_zero]

theorem modify_place (t : Tree) (next : Option Nat) (pre post : List Node)
    (h : pre.length = base) (f : Node → Node) :
    (pre ++ t.layout base next ++ post).modify (t.place base) f =
      pre ++ layouts base t.children ++
        f ⟨t.rule, t.span, firstPlace base t.children, next⟩ :: post := by
  obtain ⟨hsplit, hlength⟩ := append_layout_append t next pre post h
  rw [hsplit, ← hlength]
  generalize pre ++ layouts base t.children = front
  rw [List.modify_eq_take_cons_drop (by simp)]
  simp

/-- A root gets a sibling. -/
theorem modify_nextSibling (pre post : List Node) (h : pre.length = base) (sibling : Option Nat) :
    (pre ++ t.layout base next ++ post).modify (t.place base)
        (fun n => { n with nextSibling := sibling }) = pre ++ t.layout base sibling ++ post := by
  rw [modify_place t next pre post h, (append_layout_append t sibling pre post h).1]

/-- Adopting one tree changes the links from those of two trees on the stack to those of one. -/
theorem modify_adopted (below : Forest) (taken : List Tree) (r : Rule) (s : Span) :
    ((ofForest (.node r s taken :: t :: below)).modify (t.place (sizes below)) fun n =>
        { n with nextSibling := firstPlace (sizes (t :: below)) taken }).modify
          ((node r s taken).place (sizes (t :: below)))
          (fun n => { n with firstChild := some (t.place (sizes below)) }) =
      ofForest (.node r s (t :: taken) :: below) := by
  have hlength : (ofForest below ++ t.layout (sizes below)
      (firstPlace (sizes (t :: below)) taken)).length = sizes (t :: below) := by
    rw [List.length_append, length_ofForest, length_layout, sizes_cons, Nat.add_comm]
  rw [ofForest, ofForest, modify_nextSibling _ _ (length_ofForest below)]
  have hparent := modify_place (node r s taken) none _ [] hlength
    (fun n => { n with firstChild := some (t.place (sizes below)) })
  rw [List.append_nil] at hparent
  rw [hparent, ofForest, layout, layouts, sizes_cons, Nat.add_comm t.size]
  simp only [rule, span, children, firstPlace, List.append_assoc]

theorem adopt_ofForest (below : Forest) (taken : List Tree) (r : Rule) (s : Span) :
    adopt s ((node r s taken).place (sizes below)) (tops below)
        (ofForest (.node r s taken :: below)) =
      some (tops (below.dropWhile fun u => s.contains u.span),
        ofForest (.node r s ((below.takeWhile fun u => s.contains u.span).reverse ++ taken) ::
          below.dropWhile fun u => s.contains u.span)) := by
  induction below generalizing taken with
  | nil => rfl
  | cons t below ih =>
    have hchild : (ofForest (.node r s taken :: t :: below))[t.place (sizes below)]? =
        some ⟨t.rule, t.span, firstPlace (sizes below) t.children, none⟩ :=
      getElem?_place t none _ _ (length_ofForest below)
    have hparent : (ofForest (.node r s taken :: t :: below))[
        (node r s taken).place (sizes (t :: below))]? =
        some ⟨r, s, firstPlace (sizes (t :: below)) taken, none⟩ := by
      have hplace := getElem?_place (node r s taken) none (ofForest (t :: below)) []
        (length_ofForest _)
      rwa [List.append_nil] at hplace
    rw [tops, adopt, hchild]
    simp only [Option.bind_eq_bind, Option.bind_some]
    by_cases hinside : s.contains t.span = true
    · have hid : (node r s taken).place (sizes (t :: below)) =
          (node r s (t :: taken)).place (sizes below) := by
        simp only [place, children, sizes_cons]
        omega
      rw [if_pos hinside, hparent]
      simp only [Option.bind_some]
      rw [modify_adopted, hid, ih]
      simp only [List.takeWhile_cons, List.dropWhile_cons, hinside, if_true, List.reverse_cons,
        List.append_assoc, List.singleton_append]
    · rw [if_neg hinside]
      simp only [List.takeWhile_cons, List.dropWhile_cons, hinside, Bool.false_eq_true, if_false,
        List.reverse_nil, List.nil_append, tops]

theorem push_ofForest (f : Forest) (t : Token) :
    push (tops f, ofForest f) t = some (tops (f.push t), ofForest (f.push t)) := by
  by_cases hempty : t.span.isEmpty = true
  · simp only [push, Forest.push, if_pos hempty]
  · have hnew : ofForest f ++ [⟨t.rule, t.span, none, none⟩] =
        ofForest (.node t.rule t.span [] :: f) := by
      rw [ofForest, layout, layouts, List.nil_append, firstPlace]
    have hadopt := adopt_ofForest f [] t.rule t.span
    have hid : (node t.rule t.span []).place (sizes f) = (ofForest f).length := by
      rw [length_ofForest, place, children, sizes_nil, Nat.add_zero]
    rw [hid] at hadopt
    have hplace : (ofForest f).length =
        sizes (f.dropWhile fun u => t.span.contains u.span) +
          sizes (f.takeWhile fun u => t.span.contains u.span).reverse := by
      rw [sizes_reverse, Nat.add_comm, ← sizes_append, List.takeWhile_append_dropWhile,
        length_ofForest]
    simp only [push, Forest.push, if_neg hempty, hnew, hadopt, List.append_nil, tops, place,
      children, ← hplace]
    rfl

/-- The table of a log is that of the trees that the log is reduced to. In building it every number
is that of a node. -/
theorem build_eq (tokens : List Token) :
    build tokens =
      some ⟨ofForest (Forest.ofTokens tokens), (tops (Forest.ofTokens tokens)).head?⟩ := by
  have hfold : ∀ (tokens : List Token) (f : Forest), tokens.foldlM push (tops f, ofForest f) =
      some (tops (tokens.foldl Forest.push f), ofForest (tokens.foldl Forest.push f)) := by
    intro tokens
    induction tokens with
    | nil => intro f; rfl
    | cons t tokens ih =>
      intro f
      rw [List.foldlM_cons, push_ofForest, List.foldl_cons]
      exact ih (f.push t)
  have hall := hfold tokens []
  rw [tops, ofForest] at hall
  rw [build, hall]
  rfl

/-! ## Following links -/

/-- The numbers from a node to its last sibling, if there are at most `steps` of them. -/
def siblings (nodes : List Node) : (steps : Nat) → Option Nat → Option (List Nat)
  | _, none => some []
  | 0, some _ => none
  | steps + 1, some id => do
    let n ← nodes[id]?
    let rest ← siblings nodes steps n.nextSibling
    return id :: rest

/-- The numbers of the children of a node. -/
def children (g : Linked) (id : Nat) : Option (List Nat) := do
  let n ← g.nodes[id]?
  siblings g.nodes g.nodes.length n.firstChild

/-- The nodes of the tree lie in the table from the number `base` on. -/
def Holds (nodes : List Node) (base : Nat) (next : Option Nat) (t : Tree) : Prop :=
  ∃ pre post, nodes = pre ++ t.layout base next ++ post ∧ pre.length = base

/-- The nodes of siblings lie in the table from the number `base` on. -/
def HoldsRow (nodes : List Node) (base : Nat) (ts : List Tree) : Prop :=
  ∃ pre post, nodes = pre ++ layouts base ts ++ post ∧ pre.length = base

namespace Holds

theorem getElem? (h : Holds nodes base next t) :
    nodes[t.place base]? = some ⟨t.rule, t.span, firstPlace base t.children, next⟩ := by
  obtain ⟨pre, post, rfl, hpre⟩ := h
  exact getElem?_place t next pre post hpre

theorem row (h : Holds nodes base next t) : HoldsRow nodes base t.children := by
  obtain ⟨pre, post, rfl, hpre⟩ := h
  exact ⟨pre, _, (append_layout_append t next pre post hpre).1, hpre⟩

theorem append (h : Holds nodes base next t) (more : List Node) :
    Holds (nodes ++ more) base next t := by
  obtain ⟨pre, post, rfl, hpre⟩ := h
  exact ⟨pre, post ++ more, by rw [List.append_assoc], hpre⟩

theorem le_length (h : Holds nodes base next t) : base + t.size ≤ nodes.length := by
  obtain ⟨pre, post, rfl, rfl⟩ := h
  rw [List.length_append, List.length_append, length_layout]
  omega

end Holds

namespace HoldsRow

theorem head (h : HoldsRow nodes base (t :: ts)) :
    Holds nodes base (firstPlace (base + t.size) ts) t := by
  obtain ⟨pre, post, rfl, hpre⟩ := h
  refine ⟨pre, layouts (base + t.size) ts ++ post, ?_, hpre⟩
  rw [layouts]
  simp only [List.append_assoc]

theorem tail (h : HoldsRow nodes base (t :: ts)) : HoldsRow nodes (base + t.size) ts := by
  obtain ⟨pre, post, rfl, rfl⟩ := h
  refine ⟨pre ++ t.layout pre.length (firstPlace (pre.length + t.size) ts), post, ?_, ?_⟩
  · rw [layouts]
    simp only [List.append_assoc]
  · rw [List.length_append, length_layout]

/-- Each of the siblings lies in its part of the table. -/
theorem exists_of_mem_places (h : HoldsRow nodes base ts) {id : Nat} (hid : id ∈ places base ts) :
    ∃ t ∈ ts, ∃ b next, Holds nodes b next t ∧ t.place b = id ∧ base ≤ b ∧
      b + t.size ≤ base + sizes ts := by
  induction ts generalizing base with
  | nil => cases hid
  | cons t ts ih =>
    rcases List.mem_cons.mp hid with rfl | hid
    · refine ⟨t, List.mem_cons_self, base, _, h.head, rfl, Nat.le_refl _, ?_⟩
      rw [sizes_cons]
      omega
    · obtain ⟨u, hu, b, next, hholds, hplace, hle, hle'⟩ := ih h.tail hid
      refine ⟨u, List.mem_cons_of_mem t hu, b, next, hholds, hplace, by omega, ?_⟩
      rw [sizes_cons]
      omega

/-- Every number of the row is in the part of one of the siblings. -/
theorem exists_of_lt (h : HoldsRow nodes base ts) {id : Nat} (hle : base ≤ id)
    (hlt : id < base + sizes ts) :
    ∃ t ∈ ts, ∃ b next, Holds nodes b next t ∧ b ≤ id ∧ id < b + t.size := by
  induction ts generalizing base with
  | nil =>
    rw [sizes_nil] at hlt
    omega
  | cons t ts ih =>
    rw [sizes_cons] at hlt
    by_cases hid : id < base + t.size
    · exact ⟨t, List.mem_cons_self, base, _, h.head, hle, hid⟩
    · obtain ⟨u, hu, hrest⟩ := ih h.tail (by omega) (by omega)
      exact ⟨u, List.mem_cons_of_mem t hu, hrest⟩

/-- The links lead from the first sibling to the last one. -/
theorem siblings_eq (h : HoldsRow nodes base ts) {steps : Nat} (hsteps : ts.length ≤ steps) :
    siblings nodes steps (firstPlace base ts) = some (places base ts) := by
  induction ts generalizing base steps with
  | nil =>
    cases steps <;> rfl
  | cons t ts ih =>
    cases steps with
    | zero => cases hsteps
    | succ steps =>
      rw [firstPlace, siblings, h.head.getElem?]
      simp only [Option.bind_eq_bind, Option.bind_some]
      rw [ih h.tail (Nat.le_of_succ_le_succ hsteps)]
      rfl

end HoldsRow

theorem le_of_mem_places {id : Nat} (h : id ∈ places base ts) :
    base ≤ id ∧ id < base + sizes ts := by
  induction ts generalizing base with
  | nil => cases h
  | cons t ts ih =>
    have hsize := t.size_eq
    rw [sizes_cons]
    rcases List.mem_cons.mp h with rfl | h
    · rw [place]
      omega
    · obtain ⟨hle, hlt⟩ := ih h
      omega

theorem pairwise_places (base : Nat) (ts : List Tree) : (places base ts).Pairwise (· < ·) := by
  induction ts generalizing base with
  | nil => exact List.Pairwise.nil
  | cons t ts ih =>
    refine List.pairwise_cons.mpr ⟨fun id hid => ?_, ih (base + t.size)⟩
    have hle := (le_of_mem_places hid).1
    have hsize := t.size_eq
    rw [place]
    omega

theorem length_le_sizes (ts : List Tree) : ts.length ≤ sizes ts := by
  induction ts with
  | nil => exact Nat.zero_le _
  | cons t ts ih =>
    have hsize := t.size_eq
    rw [List.length_cons, sizes_cons]
    omega

/-- The children of a node are found by its links. -/
theorem Holds.children_eq {g : Linked} (h : Holds g.nodes base next t) :
    g.children (t.place base) = some (places base t.children) := by
  have hsteps : t.children.length ≤ g.nodes.length := by
    have hlength := h.le_length
    have hsize := t.size_eq
    have hchildren := length_le_sizes t.children
    omega
  rw [children, h.getElem?]
  exact h.row.siblings_eq hsteps

/-- The last one of several trees in a row comes last in the table. -/
theorem exists_getLast?_places (base : Nat) (ts : List Tree) (h : ts ≠ []) :
    ∃ last, (places base ts).getLast? = some last ∧ last + 1 = base + sizes ts := by
  induction ts generalizing base with
  | nil => exact absurd rfl h
  | cons t ts ih =>
    cases ts with
    | nil =>
      refine ⟨t.place base, rfl, ?_⟩
      rw [place, sizes_cons, sizes_nil, t.size_eq]
      omega
    | cons u ts =>
      obtain ⟨last, hlast, hplace⟩ := ih (base + t.size) (List.cons_ne_nil u ts)
      refine ⟨last, ?_, by rw [hplace, sizes_cons t, Nat.add_assoc]⟩
      rwa [places, places, List.getLast?_cons_cons]

/-- Whatever sibling one begins with, the links lead to the last one, which comes right before the
parent. -/
theorem HoldsRow.getLast?_siblings (h : HoldsRow nodes base ts) {id steps : Nat}
    (hid : id ∈ places base ts) (hsteps : ts.length ≤ steps) :
    ∃ ids last, siblings nodes steps (some id) = some ids ∧ ids.getLast? = some last ∧
      last + 1 = base + sizes ts := by
  induction ts generalizing base with
  | nil => cases hid
  | cons t ts ih =>
    rcases List.mem_cons.mp hid with rfl | hid
    · obtain ⟨last, hlast, hplace⟩ := exists_getLast?_places base (t :: ts) (List.cons_ne_nil t ts)
      exact ⟨_, last, h.siblings_eq hsteps, hlast, hplace⟩
    · obtain ⟨ids, last, hids, hlast, hplace⟩ := ih h.tail hid (Nat.le_of_succ_le hsteps)
      refine ⟨ids, last, hids, hlast, ?_⟩
      rw [hplace, sizes_cons, Nat.add_assoc]

/-- So a node has one parent. -/
theorem Holds.place_eq {u : Tree} {base' : Nat} {next' : Option Nat} (h : Holds nodes base next t)
    (h' : Holds nodes base' next' u) {id : Nat} (hid : id ∈ places base t.children)
    (hid' : id ∈ places base' u.children) : t.place base = u.place base' := by
  have hsteps := length_le_sizes t.children
  have hsteps' := length_le_sizes u.children
  obtain ⟨ids, last, hids, hlast, hplace⟩ := h.row.getLast?_siblings hid
    (Nat.le_trans hsteps (Nat.le_max_left _ (sizes u.children)))
  obtain ⟨ids', last', hids', hlast', hplace'⟩ := h'.row.getLast?_siblings hid'
    (Nat.le_trans hsteps' (Nat.le_max_right (sizes t.children) _))
  cases hids.symm.trans hids'
  cases hlast.symm.trans hlast'
  exact hplace.symm.trans hplace'

/-- Every number of the part of a tree is that of a node of the tree. -/
theorem Holds.exists_of_lt (t : Tree) : ∀ {base : Nat} {next : Option Nat},
    Holds nodes base next t → ∀ id, base ≤ id → id < base + t.size →
      ∃ u ∈ t.nodes, ∃ b n, Holds nodes b n u ∧ u.place b = id := by
  induction t with
  | node r s cs ih =>
    intro base next h id hle hlt
    by_cases hroot : id = base + sizes cs
    · exact ⟨_, mem_nodes_self _, base, next, h, hroot.symm⟩
    · rw [size_eq, Tree.children] at hlt
      obtain ⟨c, hc, b, n, hholds, hle, hlt⟩ :=
        h.row.exists_of_lt hle (by rw [Tree.children]; omega)
      obtain ⟨u, hu, hrest⟩ := ih c hc hholds id hle hlt
      exact ⟨u, mem_nodes_of_mem_children hc hu, hrest⟩

theorem ofForest_cons_holds (t : Tree) (below : Forest) :
    Holds (ofForest (t :: below)) (sizes below) none t :=
  ⟨ofForest below, [], by rw [ofForest, List.append_nil], length_ofForest below⟩

/-- Every number of the table is that of a node of some tree. -/
theorem exists_holds {f : Forest} {id : Nat} (h : id < (ofForest f).length) :
    ∃ t ∈ f, ∃ u ∈ t.nodes, ∃ b n, Holds (ofForest f) b n u ∧ u.place b = id := by
  induction f with
  | nil => cases h
  | cons t below ih =>
    by_cases hid : id < (ofForest below).length
    · obtain ⟨v, hv, u, hu, b, n, hholds, hplace⟩ := ih hid
      exact ⟨v, List.mem_cons_of_mem t hv, u, hu, b, n, hholds.append _, hplace⟩
    · rw [length_ofForest] at h hid
      rw [sizes_cons] at h
      obtain ⟨u, hu, hrest⟩ :=
        (ofForest_cons_holds t below).exists_of_lt t id (by omega) (by omega)
      exact ⟨t, List.mem_cons_self, u, hu, hrest⟩

/-! ## The links of all nodes -/

/-- The numbers that a node is linked to. -/
def Node.links (n : Node) : List Nat := n.firstChild.toList ++ n.nextSibling.toList

/-- The numbers of the nodes of a tree, the root last. -/
theorem range'_size (base : Nat) (t : Tree) :
    List.range' base t.size = List.range' base (sizes t.children) ++ [t.place base] := by
  rw [size_eq, List.range'_concat, Nat.one_mul, place]

/-- To each of several siblings in a row, and to each node below them, there is one link, besides
that to the first sibling. -/
theorem links_layouts {ts : List Tree}
    (h : ∀ t ∈ ts, ∀ base next, ((t.layout base next).flatMap Node.links).Perm
      (List.range' base (sizes t.children) ++ next.toList)) (base : Nat) :
    ((layouts base ts).flatMap Node.links ++ (firstPlace base ts).toList).Perm
      (List.range' base (sizes ts)) := by
  induction ts generalizing base with
  | nil =>
    rw [layouts, firstPlace, sizes_nil]
    exact List.Perm.refl []
  | cons t ts ih =>
    have hfirst := h t List.mem_cons_self base (firstPlace (base + t.size) ts)
    have hrest := ih (fun u hu => h u (List.mem_cons_of_mem t hu)) (base + t.size)
    have hsplit : List.range' base (sizes (t :: ts)) =
        List.range' base (sizes t.children) ++ [t.place base] ++
          List.range' (base + t.size) (sizes ts) := by
      rw [← range'_size, List.range'_append_1, sizes_cons]
    rw [layouts, List.flatMap_append, firstPlace, Option.toList_some, hsplit, List.perm_iff_count]
    intro x
    have hfirst := hfirst.count_eq x
    have hrest := hrest.count_eq x
    simp only [List.count_append] at hfirst hrest ⊢
    omega

theorem links_layout (t : Tree) : ∀ base next, ((t.layout base next).flatMap Node.links).Perm
    (List.range' base (sizes t.children) ++ next.toList) := by
  induction t with
  | node r s cs ih =>
    intro base next
    rw [layout, List.flatMap_append, List.flatMap_singleton, Node.links, ← List.append_assoc]
    exact (links_layouts ih base).append_right _

/-- To each node there is one link, but to those on the stack there is none. -/
theorem links_ofForest (f : Forest) :
    ((ofForest f).flatMap Node.links ++ tops f).Perm (List.range' 0 (sizes f)) := by
  induction f with
  | nil =>
    rw [ofForest, tops, sizes_nil]
    exact List.Perm.refl []
  | cons t below ih =>
    have htop := links_layout t (sizes below) none
    have hsplit : List.range' 0 (sizes (t :: below)) = List.range' 0 (sizes below) ++
        (List.range' (sizes below) (sizes t.children) ++ [t.place (sizes below)]) := by
      rw [← range'_size, sizes_cons, Nat.add_comm, ← List.range'_append_1, Nat.zero_add]
    rw [ofForest, List.flatMap_append, tops, hsplit, List.perm_iff_count]
    intro x
    have hbelow := ih.count_eq x
    have htop := htop.count_eq x
    rw [Option.toList_none, List.append_nil] at htop
    simp only [List.count_append, List.count_cons, List.count_nil] at hbelow htop ⊢
    omega

theorem nodup_links (f : Forest) : ((ofForest f).flatMap Node.links).Nodup := by
  have hall := (links_ofForest f).nodup_iff.mpr List.nodup_range'
  exact (List.nodup_append.mp hall).1

/-- So a node comes after one sibling at most. -/
theorem eq_of_nextSibling {f : Forest} {i j id : Nat} {m n : Node} (hm : (ofForest f)[i]? = some m)
    (hn : (ofForest f)[j]? = some n) (hmi : m.nextSibling = some id)
    (hnj : n.nextSibling = some id) : i = j := by
  obtain ⟨-, hdisjoint⟩ := List.nodup_flatMap.mp (nodup_links f)
  have happart : ∀ {i j : Nat} {m n : Node}, (ofForest f)[i]? = some m →
      (ofForest f)[j]? = some n → m.nextSibling = some id → n.nextSibling = some id →
      ¬ i < j := by
    intro i j m n hm hn hmi hnj hij
    obtain ⟨hi, rfl⟩ := List.getElem?_eq_some_iff.mp hm
    obtain ⟨hj, rfl⟩ := List.getElem?_eq_some_iff.mp hn
    have hlinked : ∀ {n : Node}, n.nextSibling = some id → id ∈ n.links := fun h =>
      List.mem_append_right _ (Option.mem_toList.mpr h)
    exact List.pairwise_iff_getElem.mp hdisjoint i j hi hj hij (hlinked hmi) (hlinked hnj)
  rcases Nat.lt_trichotomy i j with hij | hij | hij
  · exact absurd hij (happart hm hn hmi hnj)
  · exact hij
  · exact absurd hij (happart hn hm hnj hmi)

end Linked

end Fexpr
