import Fexpr.Proofs.Arity.Pattern
import Fexpr.Proofs.Eval.Dispatch
import Mathlib.Order.Interval.Set.Defs

/-!
# Guarded procedures

An arity stands for a set of numbers of operands (`Arity.counts`). With such a number a guarded
procedure does what its body does (`Arity.guard_of_mem`). With any other number it fails with the
mismatch, and that is all that happens: the body is not asked, no operand is evaluated, and the
world stays as it is (`Arity.guard_onlyFails`). A call in a script then fails with the mismatch too,
which has no place there (`World.CallsWith.refused`).
-/

namespace Fexpr

variable {κ : Type}

namespace Arity

/-- The numbers of operands that an arity stands for. -/
def counts : Arity → Set Nat
  | exactly n => {n}
  | oneOrMore => Set.Ici 1
  | zeroOrOne => Set.Iic 1
  | any => Set.univ

theorem allows_iff_mem_counts {a : Arity} {n : Nat} : a.allows n = true ↔ n ∈ a.counts := by
  cases a <;> simp [allows, counts]

theorem check_of_mem {a : Arity} {n : Nat} (h : n ∈ a.counts) : a.check n = none :=
  if_pos (allows_iff_mem_counts.mpr h)

theorem check_of_notMem {a : Arity} {n : Nat} (h : n ∉ a.counts) : a.check n = some ⟨a, n⟩ :=
  if_neg (mt allows_iff_mem_counts.mp h)

section Guard

variable {a : Arity} {call : Call κ} (body : Behaviour κ)

theorem guard_of_mem (h : call.operands.length ∈ a.counts) : a.guard body call = body call := by
  rw [guard_apply, check_of_mem h, Option.elim_none]

theorem guard_of_notMem (h : call.operands.length ∉ a.counts) :
    a.guard body call = .fail (.arity ⟨a, call.operands.length⟩) := by
  rw [guard_apply, check_of_notMem h, Option.elim_some]

end Guard

end Arity

/-- The action fails with `e`, and nothing else happens. -/
structure Action.OnlyFails (act : Action κ) (e : Error) : Prop where
  /-- It fails whatever operands evaluate to, and the world stays as it is. -/
  outcome : ∀ eval w, act.run eval w = .reply (.error e) w
  /-- No form is evaluated, and there is no other action on the way. -/
  sights : ∀ eval pending w,
    (act.trace eval pending w).sights = [⟨⟨w, pending⟩, .acts (.fail e)⟩]

theorem Arity.guard_onlyFails {a : Arity} {call : Call κ} (body : Behaviour κ)
    (h : call.operands.length ∉ a.counts) :
    (a.guard body call).OnlyFails (.arity ⟨a, call.operands.length⟩) := by
  rw [guard_of_notMem body h]
  exact ⟨fun _ _ => rfl, fun _ _ _ => rfl⟩

/-- A call of a guarded procedure in a script. The mismatch is the error of the call as it is, and
the call is no longer in progress. -/
theorem World.CallsWith.refused {host : Host κ} {w : World κ} {source : Source} {form : Form}
    {q : Procedure κ} {call : Call κ} {a : Arity} {body : Behaviour κ}
    (h : w.CallsWith host source form q call) (hq : host q = a.guard body)
    (hcount : call.operands.length ∉ a.counts) :
    w.evaluator host source form w =
      .reply (.error (.arity ⟨a, call.operands.length⟩)) w := by
  rw [h.outcome, hq, (a.guard_onlyFails body hcount).outcome]
  rfl

/-- Arities are faithful to their patterns and to their guards. The pattern of an arity is read back
from between any blanks, exactly if its number has 64 bits. A text is read as an arity exactly if it
stands for it once it is trimmed. Any other text is an error, whose message quotes the text with its
blanks and so tells it from all others. A guarded procedure does what its body does if the number of
operands is allowed. If not, it fails with the mismatch of arity and number, and nothing else
happens. A call in a script then fails with that mismatch and leaves the world as it was. -/
theorem arities_faithful :
    (∀ (a : Arity) (pre post : String),
      (∀ c ∈ pre.toList ++ post.toList, Text.isBlank c = true) →
        (Arity.ofPattern (pre ++ a.pattern ++ post) = .ok a ↔ a.Fits)) ∧
    (∀ p a, Arity.ofPattern p = .ok a ↔ ∃ core, Text.Trims p.toList core ∧ Arity.Denotes core a) ∧
    (∀ p e, Arity.ofPattern p = .error e ↔
      e = .badPattern p ∧ ∀ core a, Text.Trims p.toList core → ¬ Arity.Denotes core a) ∧
    (∀ p, (Error.badPattern p).render = "invalid arity pattern " ++ Text.quote p.toList ++
      ", expecting a number, \"+\", \"?\", \"*\" or \"\"") ∧
    (∀ p p', (Error.badPattern p).render = (Error.badPattern p').render → p = p') ∧
    ∀ (κ : Type) (a : Arity) (body : Behaviour κ) (call : Call κ),
      (call.operands.length ∈ a.counts → a.guard body call = body call) ∧
      (call.operands.length ∉ a.counts →
        (a.guard body call).OnlyFails (.arity ⟨a, call.operands.length⟩) ∧
        ∀ (host : Host κ) (w : World κ) (source : Source) (form : Form) (q : Procedure κ),
          host q = a.guard body → w.CallsWith host source form q call →
            w.evaluator host source form w =
              .reply (.error (.arity ⟨a, call.operands.length⟩)) w) := by
  refine ⟨fun a pre post => a.ofPattern_pattern_iff, fun p a => Arity.ofPattern_eq_ok_iff,
    fun p e => Arity.ofPattern_eq_error_iff, Error.render_badPattern,
    fun p p' => Error.render_badPattern_inj, fun κ a body call => ⟨a.guard_of_mem body, ?_⟩⟩
  intro hcount
  refine ⟨a.guard_onlyFails body hcount, fun host w source form q hq hcall => ?_⟩
  exact hcall.refused hq hcount

/-- A procedure that moves the counter of the host. -/
def Behaviour.ticking : Behaviour Unit := fun _ => .tick fun _ => .done .nil

/-- A call that has an option, and no operand. -/
def Source.optionAlone : Source := ⟨"script", "(f #:k #t)"⟩

def Form.optionAlone : Form :=
  .call ⟨"f", ⟨1, 2⟩⟩ [.option ⟨"k", ⟨5, 6⟩⟩ (.literal ⟨.bool, ['#', 't'], ⟨7, 9⟩⟩)] ⟨0, 10⟩

def World.optionAlone : World Unit :=
  ⟨.new 0 (.ofList [("f", .procedure ⟨0, (), []⟩)]) 8 .shared, .fresh, 1⟩

/-- What the call hands over. -/
def Call.optionAlone : Call Unit := ⟨[], .ofList [("k", .bool true)]⟩

theorem World.optionAlone_callsWith (host : Host Unit) :
    World.optionAlone.CallsWith host .optionAlone .optionAlone ⟨0, (), []⟩ .optionAlone :=
  Form.callsWith_of_request (by decide) rfl

/-- The greatest number of 64 bits is read back, and the next one is no pattern. The option of a
call is no operand, so a guard for one or more refuses the call, and one for none or one does not. -/
theorem arities_faithful_greatest :
    Arity.ofPattern ("\u3000" ++ (Arity.exactly 18446744073709551615).pattern ++ "\u00a0\n") =
      .ok (.exactly 18446744073709551615) ∧
    (∀ core a, Text.Trims " 18446744073709551616".toList core → ¬ Arity.Denotes core a) ∧
    Call.optionAlone.operands.length ∈ Arity.zeroOrOne.counts ∧
    Arity.zeroOrOne.guard .ticking .optionAlone = Behaviour.ticking .optionAlone ∧
    Call.optionAlone.operands.length ∉ Arity.oneOrMore.counts ∧
    World.optionAlone.evaluator (fun _ => Arity.oneOrMore.guard .ticking) .optionAlone .optionAlone
      .optionAlone = .reply (.error (.arity ⟨.oneOrMore, 0⟩)) .optionAlone := by
  obtain ⟨hread, -, hreject, -, -, hguard⟩ := arities_faithful
  have hallowed : Call.optionAlone.operands.length ∈ Arity.zeroOrOne.counts := by
    simp [Call.optionAlone, Arity.counts]
  have hrefused : Call.optionAlone.operands.length ∉ Arity.oneOrMore.counts := by
    simp [Call.optionAlone, Arity.counts]
  refine ⟨(hread _ _ _ (by simp [Text.isBlank])).mpr (by decide), ?_, hallowed,
    (hguard Unit .zeroOrOne .ticking .optionAlone).1 hallowed, hrefused, ?_⟩
  · exact ((hreject " 18446744073709551616" _).mp rfl).2
  · exact ((hguard Unit .oneOrMore .ticking .optionAlone).2 hrefused).2 _ _ _ _ _ rfl
      (World.optionAlone_callsWith _)

end Fexpr
