import Fexpr.Grammar.Script
import Mathlib.Logic.ExistsUnique

/-!
# Counting open calls

`value n` is the grammar of values with room for `n` calls, so the room that is left shows in the
grammar itself. One can also keep a count while matching: it goes up before a call is tried and down
after that, and no call is tried once it has come to `maxNesting`. The rules of values and calls
then refer to each other, and the count has to be handed from one rule to the next through matches
and failures alike.

There is one matcher that these rules describe (`existsUnique_isValue`). The count is after every
call what it was before, so what it matches is what the grammar matches (`IsValue.agrees`).
-/

namespace Fexpr.Grammar

/-- A matcher that is told how many calls are open, and tells it again in the end, whether it has
matched or not. -/
abbrev Counter := Peg.State → Nat → Peg.Result × Nat

namespace Counter

open Peg (State)

/-- Matches what has no calls in it. -/
def of (p : Peg) : Counter := fun s n => (p.run s, n)

/-- Matches `p`, then `q`. -/
def seq (p q : Counter) : Counter := fun s n =>
  match p s n with
  | (.error g, m) => (.error g, m)
  | (.ok t, m) => q t m

/-- Matches `p`, or else `q`. -/
def alt (p q : Counter) : Counter := fun s n =>
  match p s n with
  | (.error g, m) => q { s with furthest := g } m
  | (.ok t, m) => (.ok t, m)

/-- Matches `p` again and again, as long as it moves. The text at hand is given as `fuel`. -/
def again (p : Counter) : (fuel : List Char) → State → Nat → State × Nat
  | [], s, n =>
    match p s n with
    | (.error g, m) => ({ s with furthest := g }, m)
    | (.ok t, m) => (t, m)
  | _ :: fuel, s, n =>
    match p s n with
    | (.error g, m) => ({ s with furthest := g }, m)
    | (.ok t, m) => if t.offset = s.offset then (t, m) else again p fuel t m

/-- Matches `p` as often as it goes. -/
def star (p : Counter) : Counter := fun s n =>
  let (t, m) := again p s.rest s n
  (.ok t, m)

/-- Matches `p` and logs the match. -/
def rule (r : Rule) (p : Counter) : Counter := fun s n =>
  match p s n with
  | (.error g, m) => (.error g, m)
  | (.ok t, m) => (.ok (t.complete r s.offset), m)

/-- A call whose operands match `operand`, if one more may be opened. -/
def expression (operand : Counter) : Counter := fun s n =>
  if maxNesting ≤ n then (.error s.furthest, n)
  else
    let body :=
      rule .expression
        (seq (seq (of (lpar ++ operator)) (star (alt (of optionList) operand))) (of rpar))
    let (r, m) := body s (n + 1)
    (r, m - 1)

/-- A value: `call`, or else an atom. -/
def valueOr (call : Counter) : Counter := rule .value (seq (alt call (of atom)) (of spacing))

/-- The matcher is that of values, whose operands are such values again. -/
def IsValue (value : Counter) : Prop := value = valueOr (expression value)

/-- A script around a value. -/
def script (value : Counter) : Counter :=
  rule .script (seq (seq (of spacing) value) (of (.rule .eot Peg.atEnd)))

/-- With `n` calls open, the matcher does what `p` does, and leaves the count as it was. -/
def Agrees (n : Nat) (c : Counter) (p : Peg) : Prop := ∀ s, c s n = (p.run s, n)

variable {n : Nat} {c d value : Counter} {p q : Peg}

namespace Agrees

theorem of (p : Peg) : Agrees n (of p) p := fun _ => rfl

theorem seq (hp : Agrees n c p) (hq : Agrees n d q) : Agrees n (seq c d) (p.seq q) := by
  intro s
  unfold Counter.seq
  rw [hp s, Peg.run]
  cases p.run s with
  | error g => rfl
  | ok t => exact hq t

theorem alt (hp : Agrees n c p) (hq : Agrees n d q) : Agrees n (alt c d) (p.alt q) := by
  intro s
  unfold Counter.alt
  rw [hp s, Peg.run]
  cases p.run s with
  | error g => exact hq _
  | ok t => rfl

theorem again (hp : Agrees n c p) (fuel : List Char) :
    ∀ s, again c fuel s n = (State.again p.run fuel s, n) := by
  induction fuel with
  | nil =>
    intro s
    rw [Counter.again, hp s, State.again]
    cases p.run s <;> rfl
  | cons x fuel ih =>
    intro s
    rw [Counter.again, hp s, State.again]
    cases p.run s with
    | error g => rfl
    | ok t =>
      by_cases hmoved : t.offset = s.offset
      · simp only [hmoved, if_true]
      · simp only [hmoved, if_false]
        exact ih t

theorem star (hp : Agrees n c p) : Agrees n (star c) p.star := by
  intro s
  unfold Counter.star
  rw [hp.again, Peg.run]

theorem rule (r : Rule) (hp : Agrees n c p) : Agrees n (rule r c) (p.rule r) := by
  intro s
  unfold Counter.rule
  rw [hp s, Peg.run]
  cases p.run s <;> rfl

/-- A call is matched by one more on the count, which is taken back. -/
theorem expression (hn : n < maxNesting) (hp : Agrees (n + 1) c p) :
    Agrees n (expression c) (Grammar.expression p) := by
  intro s
  unfold Counter.expression
  rw [if_neg (Nat.not_le_of_lt hn)]
  dsimp only
  have hbody := rule .expression
    (seq (seq (of (lpar ++ operator)) (star (alt (of optionList) hp))) (of rpar)) s
  rw [hbody]
  rfl

theorem shut (hn : maxNesting ≤ n) : Agrees n (Counter.expression c) .fail := by
  intro s
  unfold Counter.expression
  rw [if_pos hn, Peg.run]

theorem valueOr (hp : Agrees n c p) : Agrees n (valueOr c) (Grammar.valueOr p) :=
  rule .value (seq (alt hp (of atom)) (of spacing))

end Agrees

/-- What matches operands as values do matches the values around them. -/
theorem valueOr_agrees {k : Nat} (hk : maxNesting - n = k)
    (h : ∀ l, k = l + 1 → Agrees (n + 1) c (Grammar.value l)) :
    Agrees n (valueOr (expression c)) (Grammar.value k) := by
  cases k with
  | zero => exact .valueOr (.shut (Nat.sub_eq_zero_iff_le.mp hk))
  | succ l => exact .valueOr (.expression (by omega) (h l rfl))

/-- The count decides how much room there is. -/
theorem IsValue.agrees (h : IsValue value) (n : Nat) :
    Agrees n value (Grammar.value (maxNesting - n)) := by
  -- The count goes up from a call to its operands, and with it the room goes down.
  induction hk : maxNesting - n using Nat.strongRecOn generalizing n with
  | ind k ih =>
    intro s
    rw [congrFun (congrFun h s) n]
    exact valueOr_agrees hk (fun l hl => ih l (by omega) (n + 1) (by omega)) s

/-- There is exactly one matcher of values. -/
theorem existsUnique_isValue : ∃! value, IsValue value := by
  refine ⟨fun s n => ((Grammar.value (maxNesting - n)).run s, n), ?_, fun value h => ?_⟩
  · funext s n
    refine (valueOr_agrees (n := n) rfl (fun l hl t => ?_) s).symm
    have hroom : maxNesting - (n + 1) = l := by omega
    rw [hroom]
  · funext s n
    exact h.agrees n s

/-- Whether a call is matched or not, as many calls are open afterwards as before. -/
theorem IsValue.expression_snd (h : IsValue value) (s : State) (n : Nat) :
    (expression value s n).2 = n := by
  rcases Nat.lt_or_ge n maxNesting with hn | hn
  · rw [Agrees.expression hn (h.agrees (n + 1)) s]
  · rw [Agrees.shut hn s]

theorem IsValue.script_agrees (h : IsValue value) : Agrees 0 (script value) Grammar.script :=
  .rule .script (.seq (.seq (.of spacing) (h.agrees 0)) (.of _))

end Counter

end Fexpr.Grammar
