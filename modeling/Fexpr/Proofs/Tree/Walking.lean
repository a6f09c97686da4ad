import Fexpr.Proofs.Tree.Linked
import Fexpr.Proofs.Tree.Spacing
import Fexpr.Tree.Dump

/-!
# Walking linked trees

What is done with a tree can be done with the links of its table. The loops and recursions that
follow them have to end, which is no matter of course, since links could lead around in circles.
Here each of them has a number of steps, and has no result if it needs more. All of them are done
after as many steps as the tree has nodes, and their results are those for the tree.

To walk a tree is to visit its nodes with a stack of those that are still to come. The walk visits
all nodes below the root, each before its children (`Linked.Holds.visit_eq`,
`Linked.Holds.mem_visits_iff`).
-/

namespace Fexpr

open Text (Span)
open Grammar (Rule Token)

namespace Linked

open Fexpr.Tree

/-! ## Loops and recursions over links -/

/-- The tree below a node. -/
def unfold (g : Linked) : (steps : Nat) → Nat → Option Tree
  | 0, _ => none
  | steps + 1, id => do
    let n ← g.nodes[id]?
    let ids ← g.children id
    let cs ← ids.mapM (g.unfold steps)
    return .node n.rule n.span cs

/-- The dump of a node over the text `cs`. -/
def dump (g : Linked) (cs : List Char) : (steps : Nat) → Nat → Option Json
  | 0, _ => none
  | steps + 1, id => do
    let n ← g.nodes[id]?
    let ids ← g.children id
    let children ← ids.mapM (g.dump cs steps)
    return dumpNode cs n.rule n.span children

/-- The nodes below a node with their depths, each before its children. -/
def preorder (g : Linked) : (steps depth : Nat) → Nat → Option (List (Nat × Nat))
  | 0, _, _ => none
  | steps + 1, depth, id => do
    let ids ← g.children id
    let below ← ids.mapM (g.preorder steps (depth + 1))
    return (id, depth) :: below.flatten

/-- Visits the nodes that are still to come with their depths. The children of a node are put on the
stack from the last one to the first. -/
def visit (g : Linked) : (steps : Nat) → List (Nat × Nat) → Option (List (Nat × Nat))
  | _, [] => some []
  | 0, _ :: _ => none
  | steps + 1, (id, depth) :: pending => do
    let ids ← g.children id
    let visits ← g.visit steps
      (ids.reverse.foldl (fun pending c => (c, depth + 1) :: pending) pending)
    return (id, depth) :: visits

/-- Visits all nodes from the root on. -/
def walk (g : Linked) : Option (List (Nat × Nat)) :=
  match g.root with
  | none => some []
  | some id => g.visit g.nodes.length [(id, 0)]

/-- Where the significant text of a node starts. -/
def significantStart (g : Linked) (start : Nat) : (steps : Nat) → Nat → Option Nat
  | 0, _ => none
  | steps + 1, id => do
    let n ← g.nodes[id]?
    match n.firstChild with
    | none => return start
    | some first =>
      let c ← g.nodes[first]?
      if c.span.start ≠ start then return start
      else if c.rule = .spacing then return c.span.stop
      else g.significantStart start steps first

/-- Where the significant text of a node stops. -/
def significantStop (g : Linked) (stop : Nat) : (steps : Nat) → Nat → Option Nat
  | 0, _ => none
  | steps + 1, id => do
    let ids ← g.children id
    match ids.getLast? with
    | none => return stop
    | some last =>
      let c ← g.nodes[last]?
      if c.span.stop ≠ stop then return stop
      else if c.rule = .spacing then return c.span.start
      else g.significantStop stop steps last

/-- What a node covers without the spacing that opens or closes it. -/
def significantSpan (g : Linked) (id : Nat) : Option Span := do
  let n ← g.nodes[id]?
  let start ← g.significantStart n.span.start g.nodes.length id
  let stop ← g.significantStop n.span.stop g.nodes.length id
  return ⟨start, max stop start⟩

variable {g : Linked} {base depth steps : Nat} {next : Option Nat} {t : Tree} {ts : List Tree}

/-! ## Recursions -/

theorem size_le_sizes (ht : t ∈ ts) : t.size ≤ sizes ts := by
  induction ts with
  | nil => cases ht
  | cons u ts ih =>
    rw [sizes_cons]
    rcases List.mem_cons.mp ht with rfl | ht
    · exact Nat.le_add_right _ _
    · exact Nat.le_trans (ih ht) (Nat.le_add_left _ _)

/-- What is done with each of several siblings. -/
theorem HoldsRow.mapM_eq {α : Type} {f : Nat → Option α} {φ : Tree → α}
    (h : HoldsRow g.nodes base ts)
    (hf : ∀ t ∈ ts, ∀ base next, Holds g.nodes base next t → f (t.place base) = some (φ t)) :
    (places base ts).mapM f = some (ts.map φ) := by
  induction ts generalizing base with
  | nil => rfl
  | cons t ts ih =>
    have hfirst := hf t List.mem_cons_self base _ h.head
    have hrest := ih h.tail fun u hu => hf u (List.mem_cons_of_mem t hu)
    simp only [places, List.mapM_cons, hfirst, hrest, List.map_cons, Option.bind_eq_bind,
      Option.bind_some, Option.pure_def]

/-- The links below a node lead to the nodes of one tree. -/
theorem Holds.unfold_eq (t : Tree) : ∀ {base steps : Nat} {next : Option Nat},
    Holds g.nodes base next t → t.size ≤ steps → g.unfold steps (t.place base) = some t := by
  induction t with
  | node r s cs ih =>
    intro base steps next h hsteps
    have hsize : sizes cs + 1 ≤ steps := by rwa [size_eq] at hsteps
    obtain ⟨steps, rfl⟩ : ∃ k, steps = k + 1 := ⟨steps - 1, by omega⟩
    have hchildren : (places base cs).mapM (g.unfold steps) = some (cs.map fun c => c) := by
      refine h.row.mapM_eq fun c hc base next hholds => ih c hc hholds ?_
      have : c.size ≤ sizes cs := size_le_sizes hc
      omega
    rw [List.map_id'] at hchildren
    rw [unfold, h.getElem?, h.children_eq]
    simp only [Option.bind_eq_bind, Option.bind_some, Tree.children, hchildren]
    rfl

theorem dumps_eq_map (cs : List Char) (ts : List Tree) : dumps cs ts = ts.map (Tree.dump cs) := by
  induction ts with
  | nil => rw [dumps, List.map_nil]
  | cons t ts ih => rw [dumps, ih, List.map_cons]

theorem Holds.dump_eq (cs : List Char) (t : Tree) : ∀ {base steps : Nat} {next : Option Nat},
    Holds g.nodes base next t → t.size ≤ steps →
      g.dump cs steps (t.place base) = some (t.dump cs) := by
  induction t with
  | node r s ts ih =>
    intro base steps next h hsteps
    have hsize : sizes ts + 1 ≤ steps := by rwa [size_eq] at hsteps
    obtain ⟨steps, rfl⟩ : ∃ k, steps = k + 1 := ⟨steps - 1, by omega⟩
    have hchildren : (places base ts).mapM (g.dump cs steps) = some (dumps cs ts) := by
      rw [dumps_eq_map]
      refine h.row.mapM_eq fun c hc base next hholds => ih c hc hholds ?_
      have : c.size ≤ sizes ts := size_le_sizes hc
      omega
    rw [dump, h.getElem?, h.children_eq, Tree.dump]
    simp only [Option.bind_eq_bind, Option.bind_some, Tree.children, hchildren]
    rfl

end Linked

/-! ## Visits -/

namespace Tree

mutual

/-- The numbers of the nodes of a tree with their depths, each before those of its children. -/
def visits (base depth : Nat) : Tree → List (Nat × Nat)
  | node _ _ cs => (base + sizes cs, depth) :: visitsInRow base (depth + 1) cs

/-- The numbers of the nodes of several trees in a row. -/
def visitsInRow (base depth : Nat) : List Tree → List (Nat × Nat)
  | [] => []
  | t :: ts => t.visits base depth ++ visitsInRow (base + t.size) depth ts

end

theorem perm_visitsInRow {ts : List Tree}
    (h : ∀ t ∈ ts, ∀ base depth, ((t.visits base depth).map Prod.fst).Perm
      (List.range' base t.size)) (base depth : Nat) :
    ((visitsInRow base depth ts).map Prod.fst).Perm (List.range' base (sizes ts)) := by
  induction ts generalizing base with
  | nil =>
    rw [visitsInRow, sizes_nil]
    exact List.Perm.refl []
  | cons t ts ih =>
    rw [visitsInRow, List.map_append, sizes_cons, ← List.range'_append_1]
    exact (h t List.mem_cons_self base depth).append
      (ih (fun u hu => h u (List.mem_cons_of_mem t hu)) (base + t.size))

/-- Every number of a tree is visited once. -/
theorem perm_visits (t : Tree) :
    ∀ base depth, ((t.visits base depth).map Prod.fst).Perm (List.range' base t.size) := by
  induction t with
  | node r s cs ih =>
    intro base depth
    rw [visits, List.map_cons, Linked.range'_size]
    exact ((perm_visitsInRow ih base (depth + 1)).cons _).trans
      (List.perm_append_singleton _ _).symm

end Tree

namespace Linked

open Fexpr.Tree

variable {g : Linked} {base depth steps : Nat} {next : Option Nat} {t : Tree} {ts : List Tree}

theorem foldl_pending (ids : List Nat) (depth : Nat) (pending : List (Nat × Nat)) :
    ids.reverse.foldl (fun pending c => (c, depth) :: pending) pending =
      ids.map (fun c => (c, depth)) ++ pending := by
  rw [List.foldl_reverse]
  exact List.foldr_cons_eq_append

/-- With siblings on top of the stack, they and all nodes below them are visited before the rest. -/
theorem HoldsRow.visit_eq (h : HoldsRow g.nodes base ts)
    (hts : ∀ t ∈ ts, ∀ base next, Holds g.nodes base next t → ∀ depth steps pending,
      g.visit (t.size + steps) ((t.place base, depth) :: pending) =
        (g.visit steps pending).map (t.visits base depth ++ ·))
    (depth steps : Nat) (pending : List (Nat × Nat)) :
    g.visit (sizes ts + steps) ((places base ts).map (fun c => (c, depth)) ++ pending) =
      (g.visit steps pending).map (visitsInRow base depth ts ++ ·) := by
  induction ts generalizing base with
  | nil =>
    rw [sizes_nil, Nat.zero_add, visitsInRow]
    cases hrest : g.visit steps pending with
    | none => exact hrest
    | some visits => exact hrest
  | cons t ts ih =>
    have hrest := ih h.tail fun u hu => hts u (List.mem_cons_of_mem t hu)
    rw [sizes_cons, Nat.add_assoc, places, List.map_cons, List.cons_append,
      hts t List.mem_cons_self base _ h.head, hrest, visitsInRow, Option.map_map]
    refine congrArg (Option.map · _) (funext fun visits => ?_)
    exact (List.append_assoc _ _ _).symm

/-- With a node on top of the stack, it and all nodes below it are visited before the rest, in as
many steps as they are. -/
theorem Holds.visit_eq (t : Tree) : ∀ base next, Holds g.nodes base next t →
    ∀ depth steps pending, g.visit (t.size + steps) ((t.place base, depth) :: pending) =
      (g.visit steps pending).map (t.visits base depth ++ ·) := by
  induction t with
  | node r s cs ih =>
    intro base next h depth steps pending
    have hrow : HoldsRow g.nodes base cs := h.row
    have hsize : (node r s cs).size + steps = sizes cs + steps + 1 := by
      rw [size_eq, Tree.children]
      omega
    rw [hsize, visit, h.children_eq]
    simp only [Option.bind_eq_bind, Option.bind_some, Tree.children]
    rw [foldl_pending, hrow.visit_eq ih]
    cases g.visit steps pending with
    | none => rfl
    | some rest =>
      rw [visits]
      rfl

/-- The recursion finds the nodes that the walk visits. -/
theorem Holds.preorder_eq (t : Tree) : ∀ base next, Holds g.nodes base next t → ∀ depth steps,
    t.size ≤ steps → g.preorder steps depth (t.place base) = some (t.visits base depth) := by
  induction t with
  | node r s cs ih =>
    intro base next h depth steps hsteps
    have hsize : sizes cs + 1 ≤ steps := by rwa [size_eq] at hsteps
    obtain ⟨steps, rfl⟩ : ∃ k, steps = k + 1 := ⟨steps - 1, by omega⟩
    have hrow : ∀ ts base, (∀ c ∈ ts, c ∈ cs) → HoldsRow g.nodes base ts →
        ∃ below, (places base ts).mapM (g.preorder steps (depth + 1)) = some below ∧
          below.flatten = visitsInRow base (depth + 1) ts := by
      intro ts
      induction ts with
      | nil => exact fun base _ _ => ⟨[], rfl, by rw [visitsInRow, List.flatten_nil]⟩
      | cons c ts ihts =>
        intro base hsub hts
        have hc : c ∈ cs := hsub c List.mem_cons_self
        have hle : c.size ≤ sizes cs := size_le_sizes hc
        have hfirst := ih c hc base _ hts.head (depth + 1) steps (by omega)
        obtain ⟨below, hbelow, hflat⟩ :=
          ihts (base + c.size) (fun d hd => hsub d (List.mem_cons_of_mem c hd)) hts.tail
        refine ⟨c.visits base (depth + 1) :: below, ?_, ?_⟩
        · simp only [places, List.mapM_cons, hfirst, hbelow, Option.bind_eq_bind, Option.bind_some,
            Option.pure_def]
        · rw [List.flatten_cons, hflat, visitsInRow]
    obtain ⟨below, hbelow, hflat⟩ := hrow cs base (fun _ hc => hc) h.row
    rw [preorder, h.children_eq, visits, ← hflat]
    simp only [Option.bind_eq_bind, Option.bind_some, Tree.children, hbelow]
    rfl

/-- What the table says of the nodes visited is what the tree says. -/
theorem HoldsRow.visits_tokens (h : HoldsRow g.nodes base ts)
    (hts : ∀ t ∈ ts, ∀ base next, Holds g.nodes base next t → ∀ depth,
      (t.visits base depth).map (fun v => (v.2, (g.nodes[v.1]?).map Node.token)) =
        (t.preorder depth).map fun v => (v.1, some ⟨v.2.rule, v.2.span⟩)) (depth : Nat) :
    (visitsInRow base depth ts).map (fun v => (v.2, (g.nodes[v.1]?).map Node.token)) =
      (preorders depth ts).map fun v => (v.1, some ⟨v.2.rule, v.2.span⟩) := by
  induction ts generalizing base with
  | nil => rw [visitsInRow, preorders, List.map_nil, List.map_nil]
  | cons t ts ih =>
    rw [visitsInRow, preorders, List.map_append, List.map_append,
      hts t List.mem_cons_self base _ h.head,
      ih h.tail fun u hu => hts u (List.mem_cons_of_mem t hu)]

theorem Holds.visits_tokens (t : Tree) : ∀ base next, Holds g.nodes base next t → ∀ depth,
    (t.visits base depth).map (fun v => (v.2, (g.nodes[v.1]?).map Node.token)) =
      (t.preorder depth).map fun v => (v.1, some ⟨v.2.rule, v.2.span⟩) := by
  induction t with
  | node r s cs ih =>
    intro base next h depth
    have hrow : HoldsRow g.nodes base cs := h.row
    have hroot : g.nodes[base + sizes cs]? = some ⟨r, s, firstPlace base cs, next⟩ := h.getElem?
    rw [visits, Tree.preorder, List.map_cons, List.map_cons, hrow.visits_tokens ih, hroot]
    rfl

/-! ## What is below a node -/

/-- `Below g root id depth`: from `root` one comes to `id` by going to a child `depth` times. -/
inductive Below (g : Linked) (root : Nat) : Nat → Nat → Prop
  | root : Below g root root 0
  | child {p c depth : Nat} {ids : List Nat} (h : Below g root p depth)
    (hids : g.children p = some ids) (hc : c ∈ ids) : Below g root c (depth + 1)

theorem place_mem_visits (base depth : Nat) (t : Tree) :
    (t.place base, depth) ∈ t.visits base depth := by
  cases t
  rw [visits]
  exact List.mem_cons_self

theorem HoldsRow.exists_of_mem_visits (h : HoldsRow g.nodes base ts) {v : Nat × Nat}
    (hv : v ∈ visitsInRow base depth ts) :
    ∃ t ∈ ts, ∃ b next, Holds g.nodes b next t ∧ t.place b ∈ places base ts ∧
      v ∈ t.visits b depth ∧ ∀ w ∈ t.visits b depth, w ∈ visitsInRow base depth ts := by
  induction ts generalizing base with
  | nil =>
    rw [visitsInRow] at hv
    cases hv
  | cons t ts ih =>
    rw [visitsInRow] at hv ⊢
    rcases List.mem_append.mp hv with hv | hv
    · exact ⟨t, List.mem_cons_self, base, _, h.head, List.mem_cons_self, hv,
        fun w hw => List.mem_append_left _ hw⟩
    · obtain ⟨u, hu, b, next, hholds, hplace, hv, hsub⟩ := ih h.tail hv
      exact ⟨u, List.mem_cons_of_mem t hu, b, next, hholds, List.mem_cons_of_mem _ hplace, hv,
        fun w hw => List.mem_append_right _ (hsub w hw)⟩

theorem mem_visitsInRow {id : Nat} (h : id ∈ places base ts) :
    (id, depth) ∈ visitsInRow base depth ts := by
  induction ts generalizing base with
  | nil => cases h
  | cons t ts ih =>
    rw [visitsInRow]
    rcases List.mem_cons.mp h with rfl | h
    · exact List.mem_append_left _ (place_mem_visits base depth t)
    · exact List.mem_append_right _ (ih h)

/-- With a node its children are visited, one level deeper. -/
theorem Holds.child_mem_visits (t : Tree) : ∀ base next, Holds g.nodes base next t →
    ∀ depth p d, (p, d) ∈ t.visits base depth → ∀ ids c, g.children p = some ids → c ∈ ids →
      (c, d + 1) ∈ t.visits base depth := by
  induction t with
  | node r s cs ih =>
    intro base next h depth p d hp ids c hids hc
    have hrow : HoldsRow g.nodes base cs := h.row
    rw [visits] at hp ⊢
    rcases List.mem_cons.mp hp with hroot | hp
    · cases hroot
      have hchildren : g.children (base + sizes cs) = some (places base cs) := h.children_eq
      cases hids.symm.trans hchildren
      exact List.mem_cons_of_mem _ (mem_visitsInRow hc)
    · obtain ⟨u, hu, b, next, hholds, -, hp, hsub⟩ := hrow.exists_of_mem_visits hp
      exact List.mem_cons_of_mem _ (hsub _ (ih u hu b next hholds _ p d hp ids c hids hc))

theorem Holds.below_of_mem (t : Tree) : ∀ base next, Holds g.nodes base next t → ∀ root depth,
    g.Below root (t.place base) depth → ∀ v ∈ t.visits base depth, g.Below root v.1 v.2 := by
  induction t with
  | node r s cs ih =>
    intro base next h root depth hroot v hv
    have hrow : HoldsRow g.nodes base cs := h.row
    rw [visits] at hv
    rcases List.mem_cons.mp hv with rfl | hv
    · exact hroot
    · obtain ⟨u, hu, b, next, hholds, hplace, hv, -⟩ := hrow.exists_of_mem_visits hv
      exact ih u hu b next hholds root _ (.child hroot h.children_eq hplace) v hv

/-- All that is below a node is visited, at its depth, and nothing else. -/
theorem Holds.mem_visits_iff (h : Holds g.nodes base next t) (id depth : Nat) :
    (id, depth) ∈ t.visits base 0 ↔ g.Below (t.place base) id depth := by
  constructor
  · intro hid
    exact h.below_of_mem t base next (t.place base) 0 .root _ hid
  · intro hbelow
    induction hbelow with
    | root => exact place_mem_visits base 0 t
    | child _ hids hc ih => exact h.child_mem_visits t base next 0 _ _ ih _ _ hids hc

/-! ## Significant spans -/

theorem Holds.significantStart_eq (start : Nat) (t : Tree) : ∀ base next,
    Holds g.nodes base next t → ∀ steps, t.size ≤ steps →
      g.significantStart start steps (t.place base) = some (t.significantStart start) := by
  induction t with
  | node r s cs ih =>
    intro base next h steps hsteps
    have hsize : sizes cs + 1 ≤ steps := by rwa [size_eq] at hsteps
    have hrow : HoldsRow g.nodes base cs := h.row
    obtain ⟨steps, rfl⟩ : ∃ k, steps = k + 1 := ⟨steps - 1, by omega⟩
    rw [significantStart, h.getElem?]
    cases cs with
    | nil =>
      rw [Tree.significantStart]
      rfl
    | cons c cs =>
      have hc : c.size ≤ sizes (c :: cs) := size_le_sizes List.mem_cons_self
      have hdeeper := ih c List.mem_cons_self base _ hrow.head steps (by omega)
      rw [Tree.significantStart]
      simp only [Option.bind_eq_bind, Option.bind_some, Tree.children, firstPlace,
        hrow.head.getElem?, hdeeper]
      split
      · rfl
      · split <;> rfl

/-- The last sibling is found at the end of the row. -/
theorem HoldsRow.exists_last {c : Tree} (h : HoldsRow g.nodes base (ts ++ [c])) :
    ∃ b next, Holds g.nodes b next c ∧ (places base (ts ++ [c])).getLast? = some (c.place b) := by
  induction ts generalizing base with
  | nil => exact ⟨base, _, h.head, rfl⟩
  | cons t ts ih =>
    obtain ⟨b, next, hholds, hlast⟩ := ih h.tail
    refine ⟨b, next, hholds, ?_⟩
    rw [List.cons_append, places, List.getLast?_cons, hlast]
    rfl

theorem Holds.significantStop_eq (stop : Nat) (t : Tree) : ∀ base next,
    Holds g.nodes base next t → ∀ steps, t.size ≤ steps →
      g.significantStop stop steps (t.place base) = some (t.significantStop stop) := by
  induction t with
  | node r s cs ih =>
    intro base next h steps hsteps
    have hsize : sizes cs + 1 ≤ steps := by rwa [size_eq] at hsteps
    have hrow : HoldsRow g.nodes base cs := h.row
    obtain ⟨steps, rfl⟩ : ∃ k, steps = k + 1 := ⟨steps - 1, by omega⟩
    rw [significantStop, h.children_eq]
    rcases List.eq_nil_or_concat cs with rfl | ⟨ts, c, rfl⟩
    · rw [Tree.significantStop, significantStopLast]
      rfl
    · rw [List.concat_eq_append] at *
      have hmem : c ∈ ts ++ [c] := List.mem_append_right ts List.mem_cons_self
      have hc : c.size ≤ sizes (ts ++ [c]) := size_le_sizes hmem
      obtain ⟨b, next, hholds, hlast⟩ := hrow.exists_last
      have hdeeper := ih c hmem b next hholds steps (by omega)
      rw [significantStop_concat]
      simp only [Option.bind_eq_bind, Option.bind_some, Tree.children, hlast, hholds.getElem?,
        hdeeper]
      split
      · rfl
      · split <;> rfl

theorem Holds.significantSpan_eq (h : Holds g.nodes base next t) :
    g.significantSpan (t.place base) = some t.significantSpan := by
  have hsteps : t.size ≤ g.nodes.length := Nat.le_trans (Nat.le_add_left _ _) h.le_length
  rw [significantSpan, h.getElem?]
  simp only [Option.bind_eq_bind, Option.bind_some,
    h.significantStart_eq t.span.start t base next _ hsteps,
    h.significantStop_eq t.span.stop t base next _ hsteps]
  rfl

end Linked

end Fexpr
