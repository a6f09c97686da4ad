import Fexpr.Tree.Basic

/-!
# Nested trees and their logs

`Tree.postorder` lists the tokens of a tree, children before their parents, as a log does. A tree is
`Nested` if its spans lie in each other the way matches do. Reducing the log of a nested tree by
containment of spans gives the tree back (`Forest.ofTokens_postorder`), although the reduction knows
neither the depth of a token nor how many children it had.
-/

namespace Fexpr

open Text (Span)
open Grammar (Rule Token)

namespace Tree

/-- Induction over trees: a property that passes from the children to their parent holds. -/
@[induction_eliminator]
theorem nodeInduction {motive : Tree → Prop}
    (node : ∀ r s cs, (∀ c ∈ cs, motive c) → motive (.node r s cs)) : ∀ t, motive t
  | .node r s cs => node r s cs fun c _ => nodeInduction node c

mutual

/-- The tokens of a tree, each after those of its children. -/
def postorder : Tree → List Token
  | node r s cs => postorders cs ++ [⟨r, s⟩]

def postorders : List Tree → List Token
  | [] => []
  | t :: ts => t.postorder ++ postorders ts

end

@[simp] theorem postorder_node (r : Rule) (s : Span) (cs : List Tree) :
    (node r s cs).postorder = postorders cs ++ [⟨r, s⟩] := by
  rw [postorder]

@[simp] theorem postorders_nil : postorders [] = [] := by
  rw [postorders]

@[simp] theorem postorders_cons (t : Tree) (ts : List Tree) :
    postorders (t :: ts) = t.postorder ++ postorders ts := by
  rw [postorders]

@[simp] theorem postorders_append (ts us : List Tree) :
    postorders (ts ++ us) = postorders ts ++ postorders us := by
  induction ts with
  | nil => rw [postorders_nil, List.nil_append, List.nil_append]
  | cons t ts ih => rw [List.cons_append, postorders_cons, ih, postorders_cons, List.append_assoc]

/-- Every span of the tree covers something, a child lies inside its parent, and siblings follow
each other without overlap. -/
inductive Nested : Tree → Prop
  | node {r : Rule} {s : Span} {cs : List Tree} (nonempty : s.start < s.stop)
      (inside : ∀ c ∈ cs, s.contains c.span = true)
      (apart : cs.Pairwise fun a b => a.span.stop ≤ b.span.start)
      (nested : ∀ c ∈ cs, Nested c) : Nested (.node r s cs)

theorem Nested.start_lt_stop {t : Tree} (h : t.Nested) : t.span.start < t.span.stop := by
  cases h with
  | node nonempty => exact nonempty

end Tree

namespace Forest

/-- A token takes exactly the trees on top of the stack that lie inside it, if the tree below them
starts before it. -/
theorem push_append {r : Rule} {s : Span} {cs : List Tree} {stack : Forest}
    (hne : s.start < s.stop) (hin : ∀ c ∈ cs, s.contains c.span = true)
    (hstack : ∀ u ∈ stack.head?, u.span.start < s.start) :
    push (cs.reverse ++ stack) ⟨r, s⟩ = .node r s cs :: stack := by
  have hempty : s.isEmpty = false := by
    rw [Bool.eq_false_iff, ne_eq, Span.isEmpty_iff]
    omega
  have htop : ∀ c ∈ cs.reverse, s.contains c.span = true := by
    intro c hc
    exact hin c (List.mem_reverse.mp hc)
  have htake : stack.takeWhile (fun u => s.contains u.span) = [] := by
    cases stack with
    | nil => rfl
    | cons u us =>
      have hu := hstack u rfl
      refine List.takeWhile_cons_of_neg ?_
      rw [Span.contains_iff]
      omega
  have hdrop : stack.dropWhile (fun u => s.contains u.span) = stack := by
    have happ := List.takeWhile_append_dropWhile
      (p := fun u : Tree => s.contains u.span) (l := stack)
    rwa [htake, List.nil_append] at happ
  simp only [push, hempty, Bool.false_eq_true, if_false]
  rw [List.takeWhile_append_of_pos htop, List.dropWhile_append_of_pos htop, htake, hdrop,
    List.append_nil, List.reverse_reverse]

/-- If each of several trees in a row comes back from its log, they come back from their logs one
after the other. -/
theorem foldl_push_postorders {cs : List Tree} (hnested : ∀ c ∈ cs, c.Nested)
    (happart : cs.Pairwise fun a b => a.span.stop ≤ b.span.start)
    (hback : ∀ c ∈ cs, ∀ stack : Forest, (∀ u ∈ stack.head?, u.span.start < c.span.start) →
      c.postorder.foldl push stack = c :: stack)
    {stack : Forest} (hstack : ∀ c ∈ cs, ∀ u ∈ stack.head?, u.span.start < c.span.start) :
    (Tree.postorders cs).foldl push stack = cs.reverse ++ stack := by
  induction cs generalizing stack with
  | nil => rw [Tree.postorders_nil, List.foldl_nil, List.reverse_nil, List.nil_append]
  | cons c cs ih =>
    rw [List.pairwise_cons] at happart
    have hc : c ∈ c :: cs := List.mem_cons_self
    have hcs : ∀ d ∈ cs, d ∈ c :: cs := fun d hd => List.mem_cons_of_mem c hd
    -- The first tree is now on top of the stack, and its siblings start after it.
    have hstack' : ∀ d ∈ cs, ∀ u ∈ (c :: stack).head?, u.span.start < d.span.start := by
      intro d hd u hu
      obtain rfl : c = u := Option.some.inj hu
      exact Nat.lt_of_lt_of_le (hnested c hc).start_lt_stop (happart.1 d hd)
    rw [Tree.postorders_cons, List.foldl_append, hback c hc stack (hstack c hc),
      ih (fun d hd => hnested d (hcs d hd)) happart.2 (fun d hd => hback d (hcs d hd)) hstack',
      List.reverse_cons, List.append_assoc, List.singleton_append]

/-- The log of a nested tree puts the tree on the stack, if the top of the stack starts before
it. -/
theorem foldl_push_postorder {t : Tree} (ht : t.Nested) :
    ∀ stack : Forest, (∀ u ∈ stack.head?, u.span.start < t.span.start) →
      t.postorder.foldl push stack = t :: stack := by
  induction t with
  | node r s cs ih =>
    intro stack hstack
    cases ht with
    | node nonempty inside apart nested =>
      have hbelow : ∀ c ∈ cs, ∀ u ∈ stack.head?, u.span.start < c.span.start := by
        intro c hc u hu
        exact Nat.lt_of_lt_of_le (hstack u hu) ((Span.contains_iff _ _).mp (inside c hc)).1
      rw [Tree.postorder_node, List.foldl_append,
        foldl_push_postorders nested apart (fun c hc => ih c hc (nested c hc)) hbelow]
      exact push_append nonempty inside hstack

/-- A nested tree comes back from its log, and nothing else is left over. -/
theorem ofTokens_postorder {t : Tree} (ht : t.Nested) : ofTokens t.postorder = [t] :=
  foldl_push_postorder ht [] (by simp)

end Forest

end Fexpr
