import Fexpr.Proofs.Library.Forcing

/-!
# Procedures that evaluate only their own operands

A procedure may evaluate operands that it was not called with, such as quoted ones and the bodies of
closures. Most do not (`Procedure.EvaluatesOwn`). Where the limit of calls is met below such a
procedure, the error comes out of one of its operands, and it is passed on as it is or with a hint
(`Procedure.PassesLimitOn`).

The procedures for plain computation do both (`Library.passesLimitOn_of_forcing`).
-/

namespace Fexpr

variable {κ : Type}

/-- Whether the error says that too many calls are in progress. -/
def Error.isLimit : Error → Bool
  | failed (.recursionLimit _) _ => true
  | _ => false

/-- If the reply is an error, it is one of `E`. -/
def Reply.FailsOnly (E : Error → Prop) (r : Reply κ) : Prop := ∀ e, r = .error e → E e

/-- The action evaluates no operands but those of `xs`. It fails with no errors but those of `E`, as
long as no others come out of what it evaluates. -/
def Action.StaysWithin (xs : List Operand) (E : Error → Prop) : Action κ → Prop
  | done _ => True
  | fail e => E e
  | force x _ next => x ∈ xs ∧ ∀ r, Reply.FailsOnly E r → (next r).StaysWithin xs E
  | lookup _ next => ∀ v, (next v).StaysWithin xs E
  | lookupFrom _ _ next => ∀ v, (next v).StaysWithin xs E
  | lookupLocal _ next => ∀ v, (next v).StaysWithin xs E
  | lookupOuter _ next => ∀ v, (next v).StaysWithin xs E
  | define _ _ next => next.StaysWithin xs E
  | derive _ next => ∀ s, (next s).StaysWithin xs E
  | withDerived _ body next =>
    (∀ s, (body s).StaysWithin xs E) ∧
      ∀ s r, Reply.FailsOnly E r → (next s r).StaysWithin xs E
  | activeScope next => ∀ s, (next s).StaysWithin xs E
  | scopeCount next => ∀ n, (next n).StaysWithin xs E
  | maxDepth next => ∀ n, (next n).StaysWithin xs E
  | hasData next => ∀ b, (next b).StaysWithin xs E
  | tick next => ∀ n, (next n).StaysWithin xs E
  | emit _ next => next.StaysWithin xs E
  | capture _ _ next => next.StaysWithin xs E
  | fresh next => ∀ n, (next n).StaysWithin xs E

namespace Procedure

/-- The procedure evaluates no operands but those of its call. -/
def EvaluatesOwn (host : Host κ) (p : Procedure κ) : Prop :=
  ∀ call, (host p call).StaysWithin call.operands fun _ => True

/-- The procedure evaluates no operands but those of its call, and makes no error of the limit up:
it fails with one only if that has come out of an operand, at most with another hint. -/
def PassesLimitOn (host : Host κ) (p : Procedure κ) : Prop :=
  ∀ (E : Error → Prop) (call : Call κ), (∀ e, e.isLimit = false → E e) →
    (∀ e help, E e → E (e.withHelp help)) → (host p call).StaysWithin call.operands E

theorem PassesLimitOn.evaluatesOwn {host : Host κ} {p : Procedure κ} (h : p.PassesLimitOn host) :
    p.EvaluatesOwn host :=
  fun call => h _ call (fun _ _ => trivial) fun _ _ _ => trivial

end Procedure

/-! ## Actions and behaviours -/

section Behaviours

variable {E : Error → Prop} {xs : List Operand}

namespace Action.StaysWithin

theorem ofReply {r : Reply κ} (h : Reply.FailsOnly E r) :
    (Action.ofReply r).StaysWithin xs E := by
  cases r with
  | ok v => exact trivial
  | error e => exact h e rfl

theorem tail {x : Operand} (hx : x ∈ xs) (place : Place κ) :
    (Action.tail x place).StaysWithin xs E :=
  ⟨hx, fun _ hr => ofReply hr⟩

theorem value {x : Operand} {next : Value κ → Action κ} (hx : x ∈ xs)
    (hnext : ∀ v, (next v).StaysWithin xs E) : (Action.value x next).StaysWithin xs E := by
  refine ⟨hx, fun r hr => ?_⟩
  cases r with
  | ok v => exact hnext v
  | error e => exact hr e rfl

theorem values {us : List Operand} {next : List (Value κ) → Action κ} (hus : ∀ x ∈ us, x ∈ xs)
    (hnext : ∀ vs, (next vs).StaysWithin xs E) : (Action.values us next).StaysWithin xs E := by
  induction us generalizing next with
  | nil => exact hnext []
  | cons u us ih =>
    obtain ⟨hu, hus⟩ := List.forall_mem_cons.mp hus
    exact value hu fun v => ih hus fun vs => hnext (v :: vs)

theorem userData (content : UserData κ) : (Action.userData content).StaysWithin xs E :=
  fun _ => trivial

end Action.StaysWithin

variable {call : Call κ}

theorem Behaviour.wrongCount_staysWithin (hE : ∀ e, e.isLimit = false → E e) (n : Nat) :
    (wrongCount n call).StaysWithin xs E := hE _ rfl

theorem Behaviour.unary_staysWithin (hE : ∀ e, e.isLimit = false → E e)
    {body : Operand → Environment κ → Action κ}
    (h : ∀ x ∈ call.operands, (body x call.options).StaysWithin call.operands E) :
    (unary body call).StaysWithin call.operands E := by
  obtain ⟨operands, options⟩ := call
  match operands with
  | [x] => exact h x List.mem_cons_self
  | [] => exact wrongCount_staysWithin hE 1
  | _ :: _ :: _ => exact wrongCount_staysWithin hE 1

theorem Behaviour.binary_staysWithin (hE : ∀ e, e.isLimit = false → E e)
    {body : Operand → Operand → Action κ}
    (h : ∀ x ∈ call.operands, ∀ y ∈ call.operands, (body x y).StaysWithin call.operands E) :
    (binary body call).StaysWithin call.operands E := by
  obtain ⟨operands, options⟩ := call
  match operands with
  | [x, y] => exact h x (by simp) y (by simp)
  | [] => exact wrongCount_staysWithin hE 2
  | [_] => exact wrongCount_staysWithin hE 2
  | _ :: _ :: _ :: _ => exact wrongCount_staysWithin hE 2

theorem Behaviour.ternary_staysWithin (hE : ∀ e, e.isLimit = false → E e)
    {body : Operand → Operand → Operand → Action κ}
    (h : ∀ x ∈ call.operands, ∀ y ∈ call.operands, ∀ z ∈ call.operands,
      (body x y z).StaysWithin call.operands E) :
    (ternary body call).StaysWithin call.operands E := by
  obtain ⟨operands, options⟩ := call
  match operands with
  | [x, y, z] => exact h x (by simp) y (by simp) z (by simp)
  | [] => exact wrongCount_staysWithin hE 3
  | [_] => exact wrongCount_staysWithin hE 3
  | [_, _] => exact wrongCount_staysWithin hE 3
  | _ :: _ :: _ :: _ :: _ => exact wrongCount_staysWithin hE 3

end Behaviours

/-! ## The procedures -/

namespace Library

variable {E : Error → Prop} {xs : List Operand}

theorem addFrom_staysWithin (hE : ∀ e, e.isLimit = false → E e) {us : List Operand}
    (hus : ∀ x ∈ us, x ∈ xs) (i : Nat) (sum : Int64) :
    (addFrom i sum us : Action κ).StaysWithin xs E := by
  induction us generalizing i sum with
  | nil => exact trivial
  | cons u us ih =>
    obtain ⟨hu, hus⟩ := List.forall_mem_cons.mp hus
    refine .value hu fun v => ?_
    split
    · split
      · exact ih hus _ _
      · exact hE _ rfl
    · exact hE _ rfl

theorem inSequence_staysWithin {us : List Operand} (hus : ∀ x ∈ us, x ∈ xs) (last : Value κ) :
    (inSequence last us).StaysWithin xs E := by
  induction us generalizing last with
  | nil => exact trivial
  | cons u us ih =>
    obtain ⟨hu, hus⟩ := List.forall_mem_cons.mp hus
    exact .value hu fun v => ih hus v

theorem chooseBy_staysWithin (hE : ∀ e, e.isLimit = false → E e) {c a b : Operand} (hc : c ∈ xs)
    (ha : a ∈ xs) (hb : b ∈ xs) : (chooseBy c a b : Action κ).StaysWithin xs E := by
  refine .value hc fun v => ?_
  split
  · exact .tail ha _
  · exact .tail hb _
  · exact hE _ rfl

theorem defineIn_staysWithin (hE : ∀ e, e.isLimit = false → E e) {id x body : Operand}
    (hid : id ∈ xs) (hx : x ∈ xs) (hbody : body ∈ xs) :
    (defineIn id x body : Action κ).StaysWithin xs E := by
  refine .value hid fun v => ?_
  split
  · exact .value hx fun v => .tail hbody _
  · exact hE _ rfl

theorem passesLimitOn_of_forcing {p : Procedure Builtin} (h : p.code ∈ forcing) :
    p.PassesLimitOn host := by
  intro E call hE _
  have hcall : p.code ≠ .call := by
    intro hcode
    rw [hcode] at h
    exact absurd h (by decide)
  rw [host_eq_plain hcall]
  -- The case split follows `forcing`, one procedure at a time.
  simp only [forcing, List.mem_cons, List.not_mem_nil, or_false] at h
  rcases h with h | h | h | h | h | h | h | h <;> simp only [h, plain]
  · exact Behaviour.unary_staysWithin hE fun x hx => .tail hx _
  · exact addFrom_staysWithin hE (fun x hx => hx) 0 0
  · exact Behaviour.ternary_staysWithin hE fun id hid x hx body hbody =>
      defineIn_staysWithin hE hid hx hbody
  · exact inSequence_staysWithin (fun x hx => hx) .nil
  · exact .values (fun x hx => hx) fun vs => .userData _
  · exact Behaviour.ternary_staysWithin hE fun c hc a ha b hb => chooseBy_staysWithin hE hc ha hb
  · exact Behaviour.binary_staysWithin hE fun x hx y hy =>
      .value hx fun v => .value hy fun w => trivial
  · exact .userData _

end Library

end Fexpr
