import Fexpr.Proofs.Tree.Walking
import Mathlib.Data.List.TakeWhile

/-!
# Trees of any log

Reduction does not ask whether a log is that of a match. Tokens may overlap, come twice or in any
order: each that covers something becomes one node, and the nodes in the order of the log are those
of the trees, children before their parents (`Forest.postorders_ofTokens`). A node lies inside its
parent, since that is why it became its child (`Forest.enclosing_ofTokens`).

So the table of any log is one of trees, and all that follows its links comes to an end
(`any_log_makes_trees`).
-/

namespace Fexpr

open Text (Span)
open Grammar (Rule Token)

/-! ## Nodes inside each other -/

namespace Tree

/-- Every node lies inside its parent. -/
def Enclosing (t : Tree) : Prop :=
  ∀ u ∈ t.nodes, ∀ c ∈ u.children, u.span.contains c.span = true

variable {t : Tree}

theorem Enclosing.of_mem {c : Tree} (h : t.Enclosing) (hc : c ∈ t.children) : c.Enclosing :=
  fun u hu => h u (mem_nodes_of_mem_children hc hu)

theorem Enclosing.contains {c : Tree} (h : t.Enclosing) (hc : c ∈ t.children) :
    t.span.start ≤ c.span.start ∧ c.span.stop ≤ t.span.stop :=
  (Span.contains_iff _ _).mp (h t t.mem_nodes_self c hc)

theorem Enclosing.significantStart_mem {start : Nat} (h : t.Enclosing)
    (hspan : ∀ u ∈ t.nodes, u.span.start ≤ u.span.stop) (hstart : start ≤ t.span.stop) :
    start ≤ t.significantStart start ∧ t.significantStart start ≤ t.span.stop := by
  induction t with
  | node r s cs ih =>
    cases cs with
    | nil =>
      rw [significantStart]
      exact ⟨Nat.le_refl _, hstart⟩
    | cons c cs =>
      have hc : c ∈ (node r s (c :: cs)).children := List.mem_cons_self
      have hinside := h.contains hc
      have hcspan := hspan c (mem_nodes_of_mem_children hc c.mem_nodes_self)
      rw [significantStart]
      split
      · exact ⟨Nat.le_refl _, hstart⟩
      · have hdeeper := ih c hc (h.of_mem hc)
          (fun u hu => hspan u (mem_nodes_of_mem_children hc hu)) (by omega)
        split <;> omega

theorem Enclosing.significantStop_mem {stop : Nat} (h : t.Enclosing)
    (hspan : ∀ u ∈ t.nodes, u.span.start ≤ u.span.stop) (hstop : t.span.start ≤ stop) :
    t.span.start ≤ t.significantStop stop ∧ t.significantStop stop ≤ stop := by
  induction t with
  | node r s cs ih =>
    rcases List.eq_nil_or_concat cs with rfl | ⟨ts, c, rfl⟩
    · rw [significantStop, significantStopLast]
      exact ⟨hstop, Nat.le_refl _⟩
    · rw [List.concat_eq_append] at *
      have hc : c ∈ (node r s (ts ++ [c])).children := List.mem_append_right ts List.mem_cons_self
      have hinside := h.contains hc
      have hcspan := hspan c (mem_nodes_of_mem_children hc c.mem_nodes_self)
      rw [significantStop_concat]
      split
      · exact ⟨hstop, Nat.le_refl _⟩
      · have hdeeper := ih c hc (h.of_mem hc)
          (fun u hu => hspan u (mem_nodes_of_mem_children hc hu)) (by omega)
        split <;> omega

/-- The significant span of a node lies inside the node. -/
theorem Enclosing.contains_significantSpan (h : t.Enclosing)
    (hspan : ∀ u ∈ t.nodes, u.span.start ≤ u.span.stop) :
    t.span.contains t.significantSpan = true := by
  have hroot := hspan t t.mem_nodes_self
  have hstart := h.significantStart_mem hspan hroot
  have hstop := h.significantStop_mem hspan hroot
  rw [Span.contains_iff, significantSpan]
  simp only
  omega

end Tree

namespace Forest

open Fexpr.Tree

/-- A token that covers something comes last in the log of the trees on the stack. -/
theorem postorders_push (f : Forest) (t : Token) :
    postorders (push f t).reverse =
      postorders f.reverse ++ if t.span.isEmpty then [] else [t] := by
  by_cases hempty : t.span.isEmpty = true
  · rw [push, if_pos hempty, if_pos hempty, List.append_nil]
  · have hsplit : f.reverse = (f.dropWhile fun u => t.span.contains u.span).reverse ++
        (f.takeWhile fun u => t.span.contains u.span).reverse := by
      rw [← List.reverse_append, List.takeWhile_append_dropWhile]
    rw [push, if_neg hempty, if_neg hempty, hsplit, List.reverse_cons, postorders_append,
      postorders_append, postorders_cons, postorders_nil, postorder_node, List.append_nil,
      List.append_assoc]

/-- The log of the trees that any log is reduced to is that log, less the tokens that cover
nothing. -/
theorem postorders_ofTokens (tokens : List Token) :
    postorders (ofTokens tokens).reverse = tokens.filter fun t => !t.span.isEmpty := by
  have hfold : ∀ (tokens : List Token) (f : Forest), postorders (tokens.foldl push f).reverse =
      postorders f.reverse ++ tokens.filter fun t => !t.span.isEmpty := by
    intro tokens
    induction tokens with
    | nil => intro f; rw [List.foldl_nil, List.filter_nil, List.append_nil]
    | cons t tokens ih =>
      intro f
      rw [List.foldl_cons, ih, postorders_push, List.append_assoc]
      by_cases hempty : t.span.isEmpty = true
      · simp [hempty]
      · simp [hempty]
  rw [ofTokens, hfold, List.reverse_nil, postorders_nil, List.nil_append]

theorem enclosing_push {f : Forest} (h : ∀ t ∈ f, t.Enclosing) (t : Token) :
    ∀ u ∈ push f t, u.Enclosing := by
  by_cases hempty : t.span.isEmpty = true
  · rw [push, if_pos hempty]
    exact h
  · rw [push, if_neg hempty]
    intro u hu
    rcases List.mem_cons.mp hu with rfl | hu
    · intro v hv c hc
      rw [nodes_node] at hv
      rcases List.mem_cons.mp hv with rfl | hv
      · have htaken : c ∈ f.takeWhile fun u => t.span.contains u.span := List.mem_reverse.mp hc
        have hinside := List.mem_takeWhile_imp htaken
        exact hinside
      · obtain ⟨w, hw, hv⟩ := List.mem_flatMap.mp hv
        have hwf : w ∈ f := List.takeWhile_subset _ (List.mem_reverse.mp hw)
        exact h w hwf v hv c hc
    · exact h u (List.dropWhile_subset _ hu)

theorem enclosing_ofTokens (tokens : List Token) : ∀ t ∈ ofTokens tokens, t.Enclosing := by
  have hfold : ∀ (tokens : List Token) (f : Forest), (∀ t ∈ f, t.Enclosing) →
      ∀ t ∈ tokens.foldl push f, t.Enclosing := by
    intro tokens
    induction tokens with
    | nil => exact fun f h => h
    | cons t tokens ih => exact fun f h => ih (push f t) (enclosing_push h t)
  exact hfold tokens [] (List.forall_mem_nil _)

end Forest

/-! ## Reading dumps -/

namespace Json

def text? : Json → Option String
  | string s => some (String.ofList s)
  | _ => none

def number? : Json → Option Nat
  | number n => some n
  | _ => none

/-- The field of an object. -/
def field? (key : String) : Json → Option Json
  | object fields => (fields.find? (·.1 == key)).map Prod.snd
  | _ => none

/-- The rule and the span of a dumped node. -/
def token? (j : Json) : Option Token := do
  let rule ← ((← j.field? "rule").text?).bind Rule.ofName?
  let span ← j.field? "span"
  return ⟨rule, ← (← span.field? "start").number?, ← (← span.field? "end").number?⟩

mutual

/-- The rules and spans in a dump with their depths, each before those of the children. -/
def rows (depth : Nat) : Json → List (Nat × Option Token)
  | object fields => (depth, (object fields).token?) :: rowsOfFields (depth + 1) fields
  | array items => rowsOfItems depth items
  | _ => []

def rowsOfItems (depth : Nat) : List Json → List (Nat × Option Token)
  | [] => []
  | item :: items => rows depth item ++ rowsOfItems depth items

def rowsOfFields (depth : Nat) : List (String × Json) → List (Nat × Option Token)
  | [] => []
  | (key, value) :: fields =>
    if key = "children" then rows depth value ++ rowsOfFields depth fields
    else rowsOfFields depth fields

end

end Json

namespace Tree

theorem ofName?_name (r : Rule) : Rule.ofName? r.name = some r := by
  cases r <;> rfl

theorem token?_dumpNode (cs : List Char) (r : Rule) (s : Span) (children : List Json) :
    (dumpNode cs r s children).token? = some ⟨r, s⟩ := by
  simp [dumpNode, Json.token?, Json.field?, Json.text?, Json.number?, ofName?_name]

/-- The rows of a dump are those of the node and of its children. -/
theorem rows_dumpNode (cs : List Char) (r : Rule) (s : Span) (children : List Json) (depth : Nat) :
    (dumpNode cs r s children).rows depth =
      (depth, some ⟨r, s⟩) :: Json.rowsOfItems (depth + 1) children := by
  have htoken := token?_dumpNode cs r s children
  rw [dumpNode] at htoken ⊢
  rw [Json.rows, htoken]
  cases children with
  | nil => simp [Json.rowsOfFields, Json.rowsOfItems]
  | cons c children => simp [Json.rowsOfFields, Json.rows]

theorem rowsOfItems_dumps {cs : List Char} {ts : List Tree}
    (h : ∀ t ∈ ts, ∀ depth, (t.dump cs).rows depth =
      (t.preorder depth).map fun v => (v.1, some ⟨v.2.rule, v.2.span⟩)) (depth : Nat) :
    Json.rowsOfItems depth (dumps cs ts) =
      (preorders depth ts).map fun v => (v.1, some ⟨v.2.rule, v.2.span⟩) := by
  induction ts with
  | nil => rw [dumps, Json.rowsOfItems, preorders, List.map_nil]
  | cons t ts ih =>
    rw [dumps, Json.rowsOfItems, preorders, List.map_append, h t List.mem_cons_self,
      ih fun u hu => h u (List.mem_cons_of_mem t hu)]

/-- A dump has the nodes of the tree in the same order and at the same depths. -/
theorem rows_dump (cs : List Char) (t : Tree) : ∀ depth, (t.dump cs).rows depth =
    (t.preorder depth).map fun v => (v.1, some ⟨v.2.rule, v.2.span⟩) := by
  induction t with
  | node r s ts ih =>
    intro depth
    rw [dump, rows_dumpNode, rowsOfItems_dumps ih, preorder, List.map_cons]
    rfl

end Tree

/-! ## Tables of any log -/

namespace Linked

open Fexpr.Tree

theorem map_token_layouts {ts : List Tree}
    (h : ∀ t ∈ ts, ∀ base next, (t.layout base next).map Node.token = t.postorder) (base : Nat) :
    (layouts base ts).map Node.token = postorders ts := by
  induction ts generalizing base with
  | nil => rw [layouts, List.map_nil, postorders_nil]
  | cons t ts ih =>
    rw [layouts, List.map_append, h t List.mem_cons_self,
      ih fun u hu => h u (List.mem_cons_of_mem t hu), postorders_cons]

theorem map_token_layout (t : Tree) :
    ∀ base next, (t.layout base next).map Node.token = t.postorder := by
  induction t with
  | node r s cs ih =>
    intro base next
    rw [layout, List.map_append, map_token_layouts ih, postorder_node]
    rfl

theorem map_token_ofForest (f : Forest) : (ofForest f).map Node.token = postorders f.reverse := by
  induction f with
  | nil => rw [ofForest, List.map_nil, List.reverse_nil, postorders_nil]
  | cons t below ih =>
    rw [ofForest, List.map_append, ih, map_token_layout, List.reverse_cons, postorders_append,
      postorders_cons, postorders_nil, List.append_nil]

/-- The links of a table are those of trees. -/
structure WellLinked (g : Linked) : Prop where
  /-- The children of a node come before it, one after the other, and lie inside it. -/
  children : ∀ id n, g.nodes[id]? = some n → ∃ ids, g.children id = some ids ∧
    ids.Pairwise (· < ·) ∧
    ∀ c ∈ ids, c < id ∧ ∃ m, g.nodes[c]? = some m ∧ n.span.contains m.span = true
  /-- A node has one parent at most. -/
  parent : ∀ p q ps qs c, g.children p = some ps → g.children q = some qs → c ∈ ps → c ∈ qs → p = q
  /-- A node comes after one sibling at most. -/
  sibling : ∀ (i j : Nat) (m n : Node) (c : Nat), g.nodes[i]? = some m → g.nodes[j]? = some n →
    m.nextSibling = some c → n.nextSibling = some c → i = j

/-- What is done with the links from a node on has a result, which is that for the tree. -/
structure Agrees (g : Linked) (id : Nat) (t : Tree) : Prop where
  token : (g.nodes[id]?).map Node.token = some ⟨t.rule, t.span⟩
  unfold : g.unfold g.nodes.length id = some t
  dump : ∀ cs, g.dump cs g.nodes.length id = some (t.dump cs)
  significantSpan : g.significantSpan id = some t.significantSpan

variable {g : Linked} {base : Nat} {next : Option Nat} {t : Tree} {tokens : List Token}

theorem Holds.agrees (h : Holds g.nodes base next t) : g.Agrees (t.place base) t := by
  have hsteps : t.size ≤ g.nodes.length := Nat.le_trans (Nat.le_add_left _ _) h.le_length
  refine ⟨?_, h.unfold_eq t hsteps, fun cs => h.dump_eq cs t hsteps, h.significantSpan_eq⟩
  rw [h.getElem?]
  rfl

theorem wellLinked_ofForest {f : Forest} (hnodes : g.nodes = ofForest f)
    (hf : ∀ t ∈ f, t.Enclosing) : g.WellLinked := by
  have hholds : ∀ {id : Nat}, id < g.nodes.length →
      ∃ t ∈ f, ∃ u ∈ t.nodes, ∃ b n, Holds g.nodes b n u ∧ u.place b = id := by
    intro id hid
    rw [hnodes] at hid ⊢
    exact exists_holds hid
  have hlt : ∀ {id : Nat} {ids : List Nat}, g.children id = some ids → id < g.nodes.length := by
    intro id ids hids
    by_contra hid
    rw [Linked.children, List.getElem?_eq_none (by omega)] at hids
    cases hids
  refine ⟨fun id n hn => ?_, fun p q ps qs c hp hq hcp hcq => ?_, fun i j m n c hm hn => ?_⟩
  · obtain ⟨t, ht, u, hu, b, next, hu', rfl⟩ := hholds (List.getElem?_eq_some_iff.mp hn).1
    refine ⟨_, hu'.children_eq, pairwise_places b u.children, fun c hc => ?_⟩
    obtain ⟨d, hd, b', next', hd', rfl, -, -⟩ := hu'.row.exists_of_mem_places hc
    cases hn.symm.trans hu'.getElem?
    exact ⟨(le_of_mem_places hc).2, _, hd'.getElem?, hf t ht u hu d hd⟩
  · obtain ⟨-, -, t, -, b, next, ht, rfl⟩ := hholds (hlt hp)
    obtain ⟨-, -, u, -, b', next', hu, rfl⟩ := hholds (hlt hq)
    cases hp.symm.trans ht.children_eq
    cases hq.symm.trans hu.children_eq
    exact ht.place_eq hu hcp hcq
  · rw [hnodes] at hm hn
    exact eq_of_nextSibling hm hn

/-- The table of the trees that a log is reduced to. -/
def ofTokens (tokens : List Token) : Linked :=
  ⟨ofForest (Forest.ofTokens tokens), (tops (Forest.ofTokens tokens)).head?⟩

theorem root_ofTokens (tokens : List Token) :
    (ofTokens tokens).root = (List.range (ofTokens tokens).nodes.length).getLast? := by
  simp only [ofTokens, length_ofForest]
  cases Forest.ofTokens tokens with
  | nil =>
    rw [sizes_nil]
    rfl
  | cons t below =>
    have hlast : sizes (t :: below) = t.place (sizes below) + 1 := by
      rw [sizes_cons, size_eq, place]
      omega
    rw [hlast, List.range_succ, List.getLast?_concat]
    rfl

theorem exists_agrees {id : Nat} (hid : id < (ofTokens tokens).nodes.length) :
    ∃ t, (ofTokens tokens).Agrees id t ∧
      t.significantSpan.start ≤ t.significantSpan.stop ∧
      ((∀ token ∈ tokens, token.span.start ≤ token.span.stop) →
        t.span.contains t.significantSpan = true) := by
  obtain ⟨t, ht, u, hu, b, next, hholds, rfl⟩ := exists_holds hid
  refine ⟨u, hholds.agrees, Nat.le_max_right _ _, fun hspans => ?_⟩
  have henclosing : u.Enclosing := fun v hv =>
    Forest.enclosing_ofTokens tokens t ht v (mem_nodes_trans hu hv)
  refine henclosing.contains_significantSpan fun v hv => ?_
  have htoken : ⟨v.rule, v.span⟩ ∈ postorders (Forest.ofTokens tokens).reverse :=
    mem_postorders_iff.mpr ⟨t, List.mem_reverse.mpr ht,
      mem_postorder_iff.mpr ⟨v, mem_nodes_trans hu hv, rfl⟩⟩
  rw [Forest.postorders_ofTokens] at htoken
  exact hspans _ (List.mem_of_mem_filter htoken)

/-- What walking a linked tree comes to. -/
structure Walks (g : Linked) (root : Nat) (t : Tree) (visits : List (Nat × Nat)) : Prop where
  walk : g.walk = some visits
  /-- It is what the recursion comes to. -/
  preorder : g.preorder g.nodes.length 0 root = some visits
  /-- No node is visited twice. -/
  nodup : (visits.map Prod.fst).Nodup
  /-- All nodes below the root are visited at their depth, and no others. -/
  below : ∀ id depth, (id, depth) ∈ visits ↔ g.Below root id depth
  /-- The rules and spans are those of the tree in order. -/
  tokens : visits.map (fun v => (v.2, (g.nodes[v.1]?).map Node.token)) =
    (t.preorder 0).map fun v => (v.1, some ⟨v.2.rule, v.2.span⟩)

theorem Holds.walks (h : Holds g.nodes base next t) (hroot : g.root = some (t.place base)) :
    g.Walks (t.place base) t (t.visits base 0) := by
  have hsteps : t.size ≤ g.nodes.length := Nat.le_trans (Nat.le_add_left _ _) h.le_length
  refine ⟨?_, h.preorder_eq t base next 0 _ hsteps, ?_, h.mem_visits_iff,
    h.visits_tokens t base next 0⟩
  · obtain ⟨k, hk⟩ := Nat.exists_eq_add_of_le hsteps
    have hvisit := h.visit_eq t base next 0 k []
    have hdone : g.visit k [] = some [] := by cases k <;> rfl
    rw [Linked.walk, hroot, hk]
    simp only [hvisit, hdone, Option.map_some, List.append_nil]
  · exact (t.perm_visits base 0).nodup_iff.mpr List.nodup_range'

end Linked

/-- Whatever tokens a log has, it makes trees. Its table has one node for each token that covers
something, in the order of the log, and the last one is the root. In building it no link is
followed to nowhere. The children of a node come before it and one after the other, and lie inside
it; no node has two parents or comes after two siblings. So all that follows links from a node on
ends after at most as many steps as there are nodes, and gives what the tree gives: its children,
its dump and its significant span. A walk from the root visits every node below it once, at its
depth, each before its children, so that the rules and spans are seen in the order in which they
stand in the dump. A significant span never stops before it starts, and it lies inside the span of
the node if no token of the log stops before it starts. -/
theorem any_log_makes_trees (tokens : List Token) :
    ∃ g, Linked.build tokens = some g ∧
      g.nodes.map Linked.Node.token = tokens.filter (fun t => !t.span.isEmpty) ∧
      Forest.size (Forest.ofTokens tokens) = g.nodes.length ∧
      g.root = (List.range g.nodes.length).getLast? ∧
      g.WellLinked ∧
      (∀ id < g.nodes.length, ∃ t, g.Agrees id t ∧
        t.significantSpan.start ≤ t.significantSpan.stop ∧
        ((∀ token ∈ tokens, token.span.start ≤ token.span.stop) →
          t.span.contains t.significantSpan = true)) ∧
      ((Forest.ofTokens tokens).root? = none → g.walk = some []) ∧
      ∀ t, (Forest.ofTokens tokens).root? = some t → ∃ root visits, g.root = some root ∧
        g.Agrees root t ∧ g.Walks root t visits ∧
        ∀ cs, (t.dump cs).rows 0 =
          visits.map fun v => (v.2, (g.nodes[v.1]?).map Linked.Node.token) := by
  refine ⟨Linked.ofTokens tokens, Linked.build_eq tokens, ?_, ?_, Linked.root_ofTokens tokens,
    Linked.wellLinked_ofForest rfl (Forest.enclosing_ofTokens tokens),
    fun id hid => Linked.exists_agrees hid, fun hroot => ?_, fun t ht => ?_⟩
  · exact (Linked.map_token_ofForest _).trans (Forest.postorders_ofTokens tokens)
  · exact (Linked.length_ofForest _).symm
  · have hempty : Forest.ofTokens tokens = [] := List.head?_eq_none_iff.mp hroot
    simp only [Linked.walk, Linked.ofTokens, hempty, Linked.tops, List.head?_nil]
  · obtain ⟨below, hforest⟩ : ∃ below, Forest.ofTokens tokens = t :: below :=
      List.head?_eq_some_iff.mp ht
    have hroot : (Linked.ofTokens tokens).root = some (t.place (Tree.sizes below)) := by
      rw [Linked.ofTokens, hforest]
      rfl
    have hholds : Linked.Holds (Linked.ofTokens tokens).nodes (Tree.sizes below) none t := by
      rw [Linked.ofTokens, hforest]
      exact Linked.ofForest_cons_holds t below
    have hwalks := hholds.walks hroot
    exact ⟨_, _, hroot, hholds.agrees, hwalks,
      fun cs => (Tree.rows_dump cs t 0).trans hwalks.tokens.symm⟩

/-- A log that no text has: the second value overlaps the first one and takes the spacing inside it,
one token covers nothing, and the last one covers the same as the one before. -/
theorem any_log_makes_trees_overlapping :
    ∃ g, Linked.build [⟨.value, 0, 2⟩, ⟨.spacing, 2, 3⟩, ⟨.value, 1, 3⟩, ⟨.literal, 5, 5⟩,
        ⟨.expression, 1, 3⟩] = some g ∧ g.nodes.length = 4 ∧
      g.walk = some [(3, 0), (2, 1), (1, 2)] ∧ g.significantSpan 3 = some ⟨1, 2⟩ ∧
      ∀ id < 4, ∃ t, g.Agrees id t ∧ t.span.contains t.significantSpan = true := by
  obtain ⟨g, hbuild, -, -, -, -, hagrees, -⟩ := any_log_makes_trees [⟨.value, 0, 2⟩,
    ⟨.spacing, 2, 3⟩, ⟨.value, 1, 3⟩, ⟨.literal, 5, 5⟩, ⟨.expression, 1, 3⟩]
  have hg := hbuild
  cases hg
  refine ⟨_, hbuild, by rfl, by rfl, by rfl, fun id hid => ?_⟩
  obtain ⟨t, ht, -, hspan⟩ := hagrees id hid
  exact ⟨t, ht, hspan (by decide)⟩

end Fexpr
