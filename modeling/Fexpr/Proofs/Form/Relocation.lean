import Fexpr.Form.Basic
import Fexpr.Proofs.Tree.Relocation

/-!
# Moving forms

`Form.relocate` gives a form other offsets, and leaves all else as it is.
-/

namespace Fexpr

open Text (Span)

namespace Form

variable (φ : Nat → Nat)

def Name.relocate (n : Name) : Name := ⟨n.text, n.span.relocate φ⟩

def Literal.relocate (l : Literal) : Literal := ⟨l.kind, l.text, l.span.relocate φ⟩

def Attribute.relocate (a : Attribute) : Attribute := ⟨a.key, a.span.relocate φ⟩

def Atom.relocate : Atom → Atom
  | literal l => literal (l.relocate φ)
  | name n => name (n.relocate φ)
  | path base as span => path (base.relocate φ) (as.map (·.relocate φ)) (span.relocate φ)

mutual

/-- The form at other offsets. -/
def relocate : Form → Form
  | atom a => atom (a.relocate φ)
  | call operator items span => call (operator.relocate φ) (relocates items) (span.relocate φ)

def relocates : List Item → List Item
  | [] => []
  | .operand f :: items => .operand f.relocate :: relocates items
  | .option key value :: items => .option (key.relocate φ) (value.relocate φ) :: relocates items

end

variable {φ}

@[simp] theorem relocate_atom (a : Atom) : (atom a).relocate φ = atom (a.relocate φ) := by
  rw [relocate]

@[simp] theorem relocate_call (operator : Name) (items : List Item) (span : Span) :
    (call operator items span).relocate φ =
      call (operator.relocate φ) (relocates φ items) (span.relocate φ) := by
  rw [relocate]

@[simp] theorem relocates_nil : relocates φ [] = [] := by
  rw [relocates]

@[simp] theorem relocates_operand (f : Form) (items : List Item) :
    relocates φ (.operand f :: items) = .operand (f.relocate φ) :: relocates φ items := by
  rw [relocates]

@[simp] theorem relocates_option (key : Name) (value : Atom) (items : List Item) :
    relocates φ (.option key value :: items) =
      .option (key.relocate φ) (value.relocate φ) :: relocates φ items := by
  rw [relocates]

@[simp] theorem relocates_append (items items' : List Item) :
    relocates φ (items ++ items') = relocates φ items ++ relocates φ items' := by
  induction items with
  | nil => rw [List.nil_append, relocates_nil, List.nil_append]
  | cons item items ih =>
    cases item with
    | operand f => rw [List.cons_append, relocates_operand, relocates_operand, ih, List.cons_append]
    | option key value =>
      rw [List.cons_append, relocates_option, relocates_option, ih, List.cons_append]

theorem shape_relocate (φ : Nat → Nat) (f : Form) : (f.relocate φ).shape = f.shape := by
  cases f with
  | atom a => cases a <;> simp [Atom.relocate, shape]
  | call operator items span => simp [shape]

theorem span_relocate (φ : Nat → Nat) (f : Form) :
    (f.relocate φ).span = f.span.relocate φ := by
  cases f with
  | atom a => cases a <;> simp [Atom.relocate, span, Atom.span, Literal.relocate,
      Name.relocate]
  | call operator items s => simp [span]

theorem Atom.relocate_id (a : Atom) : a.relocate id = a := by
  cases a with
  | literal l => rfl
  | name n => rfl
  | path base as span =>
    have has : as.map (Attribute.relocate id) = as :=
      (List.map_congr_left fun a _ => rfl).trans as.map_id
    rw [Atom.relocate, has]
    rfl

mutual

theorem relocate_id (f : Form) : f.relocate id = f := by
  cases f with
  | atom a => rw [relocate_atom, a.relocate_id]
  | call operator items span =>
    rw [relocate_call, relocates_id items]
    rfl

theorem relocates_id (items : List Item) : relocates id items = items := by
  cases items with
  | nil => rw [relocates_nil]
  | cons item items =>
    cases item with
    | operand f => rw [relocates_operand, relocate_id f, relocates_id items]
    | option key value =>
      rw [relocates_option, value.relocate_id, relocates_id items]
      rfl

end

end Form

end Fexpr
