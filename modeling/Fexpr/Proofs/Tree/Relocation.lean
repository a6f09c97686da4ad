import Fexpr.Proofs.Tree.OfMatch

/-!
# Moving trees

`Tree.relocate` gives a tree other offsets. A text that is moved, cut or written with other spacing
has the trees of the first text at other places.
-/

namespace Fexpr

open Text (Span)
open Grammar (Rule)

/-- The span between other offsets. -/
def Text.Span.relocate (φ : Nat → Nat) (s : Span) : Span := ⟨φ s.start, φ s.stop⟩

namespace Tree

mutual

/-- The tree at other offsets. -/
def relocate (φ : Nat → Nat) : Tree → Tree
  | node r s cs => node r (s.relocate φ) (relocates φ cs)

def relocates (φ : Nat → Nat) : List Tree → List Tree
  | [] => []
  | t :: ts => t.relocate φ :: relocates φ ts

end

variable {φ ψ : Nat → Nat}

@[simp] theorem relocate_node (r : Rule) (s : Span) (cs : List Tree) :
    (node r s cs).relocate φ = node r (s.relocate φ) (relocates φ cs) := by
  rw [relocate]

@[simp] theorem relocates_nil : relocates φ [] = [] := by
  rw [relocates]

@[simp] theorem relocates_cons (t : Tree) (ts : List Tree) :
    relocates φ (t :: ts) = t.relocate φ :: relocates φ ts := by
  rw [relocates]

theorem relocates_eq_map (ts : List Tree) : relocates φ ts = ts.map (relocate φ) := by
  induction ts with
  | nil => rw [relocates_nil, List.map_nil]
  | cons t ts ih => rw [relocates_cons, ih, List.map_cons]

@[simp] theorem relocates_append (ts us : List Tree) :
    relocates φ (ts ++ us) = relocates φ ts ++ relocates φ us := by
  rw [relocates_eq_map, List.map_append, ← relocates_eq_map, ← relocates_eq_map]

end Tree

end Fexpr
