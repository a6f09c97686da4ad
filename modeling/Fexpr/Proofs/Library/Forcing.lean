import Fexpr.Library.Host
import Fexpr.Proofs.Eval.Closures

/-!
# Procedures of the library that only force operands

Most procedures of the library touch the context only by forcing operands and do not look at the
scopes that these are bound to (`Library.host_onlyForces`), those that quote operands, keep them in
closures or hand them to the host among them. The others ask for scopes, look identifiers up, define
them, or do whatever another procedure does. Each procedure is built from a few actions and
behaviours, and so is the proof for it.

The procedures for plain computation also keep no operands (`Library.host_keepsNone`).
-/

namespace Fexpr

variable {κ : Type} {f : Operand → Operand}

/-! ## Values -/

namespace Value

theorem toText_mapOperands (v : Value κ) : (v.mapOperands f).toText = v.toText := by
  cases v <;> simp [toText, mismatch, type]

theorem toInt_mapOperands (v : Value κ) : (v.mapOperands f).toInt = v.toInt := by
  cases v <;> simp [toInt, mismatch, type]

theorem toUInt_mapOperands (v : Value κ) : (v.mapOperands f).toUInt = v.toUInt := by
  cases v <;> simp [toUInt, mismatch, type]

theorem ofType_mapOperands (v : Value κ) (t : ValueType) :
    (v.mapOperands f).ofType t = (v.ofType t).map (mapOperands f) := by
  unfold ofType ofType?
  rw [type_mapOperands]
  by_cases ht : v.type = t
  · rw [if_pos ht, if_pos ht]
    rfl
  · rw [if_neg ht, if_neg ht]
    simp [mismatch, Except.map]

theorem render_mapOperands (v : Value κ) : (v.mapOperands f).render = v.render := by
  cases v with
  | userData i content =>
    cases content with
    | record kind fields => cases kind <;> simp [render, UserData.typeName]
    | _ => simp [render, UserData.typeName]
  | bool b => simp
  | _ => simp [render]

theorem equals_mapOperands (v w : Value κ) :
    (v.mapOperands f).equals (w.mapOperands f) = v.equals w := by
  cases v <;> cases w <;> simp [equals]

end Value

/-! ## Actions -/

namespace Action.ForcesAlike

variable {x : Operand}

@[simp] theorem done_iff {v : Value κ} {b : Action κ} :
    ForcesAlike f (.done v) b ↔ b = .done (v.mapOperands f) := Iff.rfl

@[simp] theorem fail_iff {e : Error} {b : Action κ} :
    ForcesAlike f (.fail e) b ↔ b = .fail e := Iff.rfl

theorem failWith (message : String) :
    ForcesAlike f (Action.failWith message : Action κ) (Action.failWith message) := rfl

theorem ofReply (r : Reply κ) :
    ForcesAlike f (Action.ofReply r) (Action.ofReply (r.mapOperands f)) := by
  cases r <;> rfl

theorem tail (x : Operand) :
    ForcesAlike f (Action.tail x .own : Action κ) (Action.tail (f x) .own) :=
  ⟨_, rfl, ofReply⟩

theorem tail_layered (x : Operand) {env env' : Environment κ} (henv : env' = env.mapOperands f) :
    ForcesAlike f (Action.tail x (.layered env)) (Action.tail (f x) (.layered env')) :=
  ⟨_, by rw [Action.tail, henv], ofReply⟩

theorem require {α : Type} {result : Except Error α} {next next' : α → Action κ}
    (h : ∀ a, ForcesAlike f (next a) (next' a)) :
    ForcesAlike f (Action.require result next) (Action.require result next') := by
  cases result with
  | ok a => exact h a
  | error e => exact rfl

theorem value {next next' : Value κ → Action κ}
    (h : ∀ v, ForcesAlike f (next v) (next' (v.mapOperands f))) :
    ForcesAlike f (Action.value x next) (Action.value (f x) next') := by
  refine ⟨_, rfl, fun r => ?_⟩
  cases r with
  | ok v => exact h v
  | error e => exact rfl

theorem value_layered {env env' : Environment κ} {next next' : Value κ → Action κ}
    (henv : env' = env.mapOperands f) (h : ∀ v, ForcesAlike f (next v) (next' (v.mapOperands f))) :
    ForcesAlike f (.force x (.layered env) fun r => Action.require r next)
      (.force (f x) (.layered env') fun r => Action.require r next') := by
  refine ⟨_, by rw [henv], fun r => ?_⟩
  cases r with
  | ok v => exact h v
  | error e => exact rfl

theorem text {next next' : String → Action κ} (h : ∀ s, ForcesAlike f (next s) (next' s)) :
    ForcesAlike f (Action.text x next) (Action.text (f x) next') := by
  refine value fun v => ?_
  rw [v.toText_mapOperands]
  exact require h

theorem values {xs : List Operand} {next next' : List (Value κ) → Action κ}
    (h : ∀ vs, ForcesAlike f (next vs) (next' (vs.map (Value.mapOperands f)))) :
    ForcesAlike f (Action.values xs next) (Action.values (xs.map f) next') := by
  induction xs generalizing next next' with
  | nil => exact h []
  | cons x xs ih => exact value fun v => ih fun vs => h (v :: vs)

theorem texts {xs : List Operand} {next next' : List String → Action κ}
    (h : ∀ ss, ForcesAlike f (next ss) (next' ss)) :
    ForcesAlike f (Action.texts xs next) (Action.texts (xs.map f) next') := by
  induction xs generalizing next next' with
  | nil => exact h []
  | cons x xs ih => exact text fun s => ih fun ss => h (s :: ss)

theorem userData {content content' : UserData κ}
    (h : content' = Value.mapOperandsOfUserData f content) :
    ForcesAlike f (Action.userData content) (Action.userData content') := by
  refine ⟨_, rfl, fun i => ?_⟩
  rw [h, done_iff, Value.mapOperands]

theorem withData {a b : Action κ} (h : ForcesAlike f a b) :
    ForcesAlike f (Action.withData a) (Action.withData b) := by
  refine ⟨_, rfl, fun present => ?_⟩
  cases present with
  | true => exact h
  | false => exact failWith _

end Action.ForcesAlike

/-! ## Numbers of operands -/

namespace Behaviour

open Fexpr.Action (ForcesAlike)

variable {call : Call κ}

theorem wrongCount_forcesAlike (n : Nat) :
    ForcesAlike f (wrongCount n call) (wrongCount n (call.mapOperands f)) := by
  simp [wrongCount, Call.mapOperands]

theorem nullary_forcesAlike {body : Action κ} (h : ForcesAlike f body body) :
    ForcesAlike f (nullary body call) (nullary body (call.mapOperands f)) := by
  obtain ⟨operands, options⟩ := call
  match operands with
  | [] => exact h
  | _ :: _ => exact wrongCount_forcesAlike 0

theorem unary_forcesAlike {body : Operand → Environment κ → Action κ}
    (h : ∀ x env, ForcesAlike f (body x env) (body (f x) (env.mapOperands f))) :
    ForcesAlike f (unary body call) (unary body (call.mapOperands f)) := by
  obtain ⟨operands, options⟩ := call
  match operands with
  | [x] => exact h x options
  | [] => exact wrongCount_forcesAlike 1
  | _ :: _ :: _ => exact wrongCount_forcesAlike 1

theorem binary_forcesAlike {body : Operand → Operand → Action κ}
    (h : ∀ x y, ForcesAlike f (body x y) (body (f x) (f y))) :
    ForcesAlike f (binary body call) (binary body (call.mapOperands f)) := by
  obtain ⟨operands, options⟩ := call
  match operands with
  | [x, y] => exact h x y
  | [] => exact wrongCount_forcesAlike 2
  | [_] => exact wrongCount_forcesAlike 2
  | _ :: _ :: _ :: _ => exact wrongCount_forcesAlike 2

theorem ternary_forcesAlike {body : Operand → Operand → Operand → Action κ}
    (h : ∀ x y z, ForcesAlike f (body x y z) (body (f x) (f y) (f z))) :
    ForcesAlike f (ternary body call) (ternary body (call.mapOperands f)) := by
  obtain ⟨operands, options⟩ := call
  match operands with
  | [x, y, z] => exact h x y z
  | [] => exact wrongCount_forcesAlike 3
  | [_] => exact wrongCount_forcesAlike 3
  | [_, _] => exact wrongCount_forcesAlike 3
  | _ :: _ :: _ :: _ :: _ => exact wrongCount_forcesAlike 3

theorem guard_forcesAlike (a : Arity) {body body' : Behaviour κ}
    (h : ForcesAlike f (body call) (body' (call.mapOperands f))) :
    ForcesAlike f (a.guard body call) (a.guard body' (call.mapOperands f)) := by
  have hlength : (call.mapOperands f).operands.length = call.operands.length := List.length_map f
  rw [Arity.guard_apply, Arity.guard_apply, hlength]
  cases a.check call.operands.length with
  | none => exact h
  | some mismatch => exact rfl

end Behaviour

/-! ## The procedures -/

/-- Whether the procedure touches the context only by forcing operands. The others ask for scopes,
look identifiers up or define them, or call another procedure directly. -/
def Builtin.onlyForces : Builtin → Bool
  | set | derive | withDerived | stale | scopes | lookup | lookupLocal | lookupOuter | sameScope
  | call => false
  | _ => true

namespace Library

open Action.ForcesAlike Behaviour

theorem addFrom_forcesAlike (i : Nat) (sum : Int64) (xs : List Operand) :
    Action.ForcesAlike f (addFrom i sum xs : Action κ) (addFrom i sum (xs.map f)) := by
  induction xs generalizing i sum with
  | nil => simp [addFrom]
  | cons x xs ih =>
    refine value fun v => ?_
    cases v with
    | int n =>
      rw [Value.mapOperands]
      · dsimp only
        split
        · exact ih _ _
        · exact failWith _
      · simp
      · simp
    | _ => simp [Action.failWith, Value.type]

theorem inSequence_forcesAlike (last : Value κ) (xs : List Operand) :
    Action.ForcesAlike f (inSequence last xs) (inSequence (last.mapOperands f) (xs.map f)) := by
  induction xs generalizing last with
  | nil => exact rfl
  | cons x xs ih => exact value fun v => ih v

theorem chooseBy_forcesAlike (c a b : Operand) :
    Action.ForcesAlike f (chooseBy c a b : Action κ) (chooseBy (f c) (f a) (f b)) := by
  refine value fun v => ?_
  cases v with
  | bool b =>
    cases b
    · simpa using tail (κ := κ) _
    · simpa using tail (κ := κ) _
  | _ => simp [Action.failWith, Value.type]

theorem defineIn_forcesAlike (id x body : Operand) :
    Action.ForcesAlike f (defineIn id x body : Action κ) (defineIn (f id) (f x) (f body)) := by
  refine value fun v => ?_
  cases v with
  | string name =>
    simp only [Value.mapOperands]
    exact value fun v => tail_layered body (Environment.mapOperands_ofList [(name, v)]).symm
  | _ => simp [Action.failWith, Value.type]

theorem iterateTimes_forcesAlike (body : Operand) (n : Nat) (last : Value κ) :
    Action.ForcesAlike f (iterateTimes body n last)
      (iterateTimes (f body) n (last.mapOperands f)) := by
  induction n generalizing last with
  | zero => exact rfl
  | succ n ih => exact value fun v => ih v

theorem inEach_forcesAlike (body : Operand) {envs : List (Environment κ)}
    (henvs : ∀ env ∈ envs, env.mapOperands f = env) {next next' : List (Value κ) → Action κ}
    (h : ∀ vs, Action.ForcesAlike f (next vs) (next' (vs.map (Value.mapOperands f)))) :
    Action.ForcesAlike f (inEach body envs next) (inEach (f body) envs next') := by
  induction envs generalizing next next' with
  | nil => exact h []
  | cons env envs ih =>
    obtain ⟨henv, henvs⟩ := List.forall_mem_cons.mp henvs
    exact value_layered henv.symm fun v => ih henvs fun vs => h (v :: vs)

theorem countingFrom_forcesAlike (body : Operand) (n i : Nat)
    {next next' : List (Value κ) → Action κ}
    (h : ∀ vs, Action.ForcesAlike f (next vs) (next' (vs.map (Value.mapOperands f)))) :
    Action.ForcesAlike f (countingFrom body n i next) (countingFrom (f body) n i next') := by
  induction n generalizing i next next' with
  | zero => exact h []
  | succ n ih =>
    refine value_layered ?_ fun v => ih (i + 1) fun vs => h (v :: vs)
    simp [Environment.mapOperands_ofList]

theorem lineBindings_mapOperands (line : String) :
    Environment.mapOperands f (lineBindings line : Environment κ) = lineBindings line := by
  simp [lineBindings, Environment.mapOperands_ofList, Function.comp_def]

theorem fields_forcesAlike (xs : List Operand) {next next' : List (String × Value κ) → Action κ}
    (h : ∀ pairs, Action.ForcesAlike f (next pairs)
      (next' (pairs.map fun e => (e.1, e.2.mapOperands f)))) :
    Action.ForcesAlike f (fields xs next) (fields (xs.map f) next') := by
  match xs with
  | [] => exact h []
  | [_] => exact h []
  | key :: x :: rest =>
    exact text fun k => value fun v => fields_forcesAlike rest fun pairs => h ((k, v) :: pairs)

theorem makeRecord_forcesAlike (kind : RecordKind) (xs : List Operand) :
    Action.ForcesAlike f (makeRecord kind xs : Action κ) (makeRecord kind (xs.map f)) := by
  unfold makeRecord
  rw [List.length_map]
  split
  · refine fields_forcesAlike xs fun pairs => userData ?_
    rw [Value.mapOperandsOfUserData, Value.mapOperandsOfFields_eq, Bindings.ofList_map]
    rfl
  · exact failWith _

theorem getKey_forcesAlike (x key : Operand) :
    Action.ForcesAlike f (getKey x key : Action κ) (getKey (f x) (f key)) := by
  refine text fun k => value fun v => ?_
  rw [v.select_mapOperands]
  cases v.select k with
  | ok w => exact rfl
  | error e => cases e <;> exact failWith _

theorem quoted_forcesAlike {x : Operand} {next next' : Operand → Action κ}
    (h : ∀ y, Action.ForcesAlike f (next y) (next' (f y))) :
    Action.ForcesAlike f (quoted x next) (quoted (f x) next') := by
  refine value fun v => ?_
  cases v with
  | userData i content =>
    cases content with
    | operand y => simpa using h y
    | _ => simp [Action.failWith, Value.type]
  | _ => simp [Action.failWith, Value.type]

theorem makeClosure_forcesAlike (xs : List Operand) :
    Action.ForcesAlike f (makeClosure xs) (makeClosure (xs.map f)) := by
  unfold makeClosure
  rw [List.getLast?_map]
  cases xs.getLast? with
  | none => exact failWith _
  | some body =>
    have hinit : (xs.map f).dropLast = xs.dropLast.map f := List.map_dropLast.symm
    dsimp only [Option.map_some]
    rw [hinit]
    refine texts fun parameters => ⟨_, rfl, fun i => ?_⟩
    simp

theorem callClosure_forcesAlike (parameters : List String) (captured : List Operand)
    (call : Call Builtin) :
    Action.ForcesAlike f (callClosure parameters captured call)
      (callClosure parameters (captured.map f) (call.mapOperands f)) := by
  refine guard_forcesAlike _ ?_
  cases captured with
  | nil => simp
  | cons body rest =>
    refine values fun vs => tail_layered body ?_
    rw [Environment.mapOperands_ofList, List.zip_map_right]
    rfl

theorem emitAll_forcesAlike (count : Nat) (xs : List Operand) :
    Action.ForcesAlike f (emitAll count xs) (emitAll count (xs.map f)) := by
  induction xs with
  | nil => simp [emitAll]
  | cons x xs ih =>
    refine value fun v => withData ?_
    rw [v.render_mapOperands]
    exact ⟨_, rfl, ih⟩

theorem mapFailure_forcesAlike (φ : Error → Error) (x : Operand) :
    Action.ForcesAlike f (mapFailure φ x : Action κ) (mapFailure φ (f x)) := by
  refine ⟨_, rfl, fun r => ?_⟩
  cases r <;> exact rfl

theorem attemptOr_forcesAlike (x y : Operand) :
    Action.ForcesAlike f (attemptOr x y : Action κ) (attemptOr (f x) (f y)) := by
  refine ⟨_, rfl, fun r => ?_⟩
  cases r with
  | ok v => exact rfl
  | error e =>
    refine tail_layered y ?_
    simp [Environment.mapOperands_ofList]

theorem checkPattern_forcesAlike (pattern n : Operand) :
    Action.ForcesAlike f (checkPattern pattern n : Action κ) (checkPattern (f pattern) (f n)) := by
  refine text fun p => require fun a => value fun v => ?_
  rw [v.toUInt_mapOperands]
  refine require fun k => ?_
  split
  · exact rfl
  · simp

theorem describe_eq (hf : Operand.IsRebinding f) (x : Operand) : describe (f x) = describe x := by
  rw [hf x]
  rfl

theorem plain_forcesAlike (hf : Operand.IsRebinding f) {code : Builtin}
    (hcode : code.onlyForces = true) (captured : List Operand) (call : Call Builtin) :
    Action.ForcesAlike f (plain captured code call)
      (plain (captured.map f) code (call.mapOperands f)) := by
  cases code <;> simp only [plain]
  case set | derive | withDerived | stale | scopes | lookup | lookupLocal | lookupOuter | sameScope
    | call => cases hcode
  case itself => exact unary_forcesAlike fun x _ => tail x
  case plus => exact addFrom_forcesAlike 0 0 call.operands
  case define => exact ternary_forcesAlike defineIn_forcesAlike
  case block =>
    simpa [variadic, Call.mapOperands] using inSequence_forcesAlike (f := f) .nil call.operands
  case array => exact values fun vs => userData (by simp)
  case record kind => exact makeRecord_forcesAlike kind call.operands
  case choose => exact ternary_forcesAlike chooseBy_forcesAlike
  case equal =>
    refine binary_forcesAlike fun x y => value fun v => value fun w => ?_
    simp [v.equals_mapOperands]
  case options => exact userData (by simp [Call.mapOperands, Environment.mapOperands, Bindings.map])
  case layer => exact unary_forcesAlike fun x env => tail_layered x rfl
  case maxDepth => exact nullary_forcesAlike ⟨_, rfl, fun n => by simp⟩
  case quote => exact unary_forcesAlike fun x _ => userData (by simp)
  case force => exact unary_forcesAlike fun x _ => quoted_forcesAlike tail
  case forceWith =>
    exact unary_forcesAlike fun x env => quoted_forcesAlike fun y => tail_layered y rfl
  case inspect =>
    have hdescribe : (call.operands.map f).map describe = call.operands.map describe := by
      rw [List.map_map]
      exact List.map_congr_left fun x _ => describe_eq hf x
    simp [variadic, Call.mapOperands, hdescribe]
  case capture =>
    exact binary_forcesAlike fun name x => text fun n =>
      withData ⟨_, rfl, by simp⟩
  case lambda => exact makeClosure_forcesAlike call.operands
  case closure parameters => exact callClosure_forcesAlike parameters captured call
  case iterate =>
    refine binary_forcesAlike fun n body => value fun v => ?_
    rw [v.toInt_mapOperands]
    exact require fun k => by simpa using iterateTimes_forcesAlike body _ .nil
  case loop =>
    refine binary_forcesAlike fun n body => value fun v => ?_
    rw [v.toInt_mapOperands]
    exact require fun k => countingFrom_forcesAlike body _ 0 fun vs => userData (by simp)
  case eachLine =>
    refine binary_forcesAlike fun x body => text fun lines => ?_
    refine inEach_forcesAlike body (fun env henv => ?_) fun vs => userData (by simp)
    obtain ⟨line, -, rfl⟩ := List.mem_map.mp henv
    exact lineBindings_mapOperands line
  case tick =>
    exact nullary_forcesAlike (withData ⟨_, rfl, fun n => by simp⟩)
  case emit =>
    have hemit := emitAll_forcesAlike (f := f) call.operands.length call.operands
    simpa [variadic, Call.mapOperands] using hemit
  case failure => exact unary_forcesAlike fun m _ => text fun _ => failWith _
  case failureWithHelp => exact binary_forcesAlike fun m h => text fun _ => text fun _ => rfl
  case wrap => exact unary_forcesAlike fun m _ => text fun _ => rfl
  case nest => exact unary_forcesAlike fun x _ => mapFailure_forcesAlike _ x
  case help => exact binary_forcesAlike fun h x => text fun _ => mapFailure_forcesAlike _ x
  case attempt => exact binary_forcesAlike attemptOr_forcesAlike
  case emptyBinding => exact unary_forcesAlike fun x _ => text fun _ => rfl
  case checkArity => exact binary_forcesAlike checkPattern_forcesAlike
  case count arity =>
    exact guard_forcesAlike arity (by simp [Call.mapOperands])
  case convert type =>
    refine unary_forcesAlike fun x _ => value fun v => ?_
    rw [v.ofType_mapOperands]
    cases v.ofType type <;> exact rfl
  case typeName =>
    exact unary_forcesAlike fun x _ => value fun v => by simp
  case render =>
    refine unary_forcesAlike fun x _ => value fun v => ?_
    simp [v.render_mapOperands]
  case get => exact binary_forcesAlike getKey_forcesAlike

theorem host_eq_plain {p : Procedure Builtin} (h : p.code ≠ .call) (call : Call Builtin) :
    host p call = plain p.captured p.code call := by
  obtain ⟨identity, code, captured⟩ := p
  obtain ⟨operands, options⟩ := call
  cases operands with
  | nil => rfl
  | cons x xs => cases code <;> first | rfl | exact absurd rfl h

/-- Most procedures of the library only force operands, whatever operands they keep. -/
theorem host_onlyForces {code : Builtin} (h : code.onlyForces = true) : host.OnlyForces code := by
  intro f hf p call hcode
  have hcall : p.code ≠ .call := by
    rintro hcall
    rw [← hcode, hcall] at h
    cases h
  rw [host_eq_plain hcall, host_eq_plain (p := p.mapOperands f) hcall]
  exact plain_forcesAlike hf (hcode ▸ h) p.captured call

end Library

/-! ## Procedures that keep no operands -/

section KeepsNone

variable {P : Operand → Prop}

namespace Action.KeepsOnly

theorem ofReply {r : Reply κ} (h : Reply.KeepsOnly P r) : (Action.ofReply r).KeepsOnly P := by
  cases r with
  | ok v => exact h v rfl
  | error e => exact trivial

theorem tail (x : Operand) : (Action.tail x .own : Action κ).KeepsOnly P := fun _ => ofReply

theorem tail_layered (x : Operand) {env : Environment κ} (henv : env.KeepsOnly P) :
    (Action.tail x (.layered env)).KeepsOnly P :=
  ⟨henv, fun _ => ofReply⟩

theorem value {x : Operand} {next : Value κ → Action κ}
    (h : ∀ v, v.KeepsOnly P → (next v).KeepsOnly P) : (Action.value x next).KeepsOnly P := by
  intro r hr
  cases r with
  | ok v => exact h v (hr v rfl)
  | error e => exact trivial

theorem values {xs : List Operand} {next : List (Value κ) → Action κ}
    (h : ∀ vs, (∀ v ∈ vs, v.KeepsOnly P) → (next vs).KeepsOnly P) :
    (Action.values xs next).KeepsOnly P := by
  induction xs generalizing next with
  | nil => exact h [] (List.forall_mem_nil _)
  | cons x xs ih =>
    refine value fun v hv => ih fun vs hvs => ?_
    exact h (v :: vs) (List.forall_mem_cons.mpr ⟨hv, hvs⟩)

theorem userData {content : UserData κ} (h : ∀ x ∈ Value.UserData.operands content, P x) :
    (Action.userData content).KeepsOnly P := by
  intro i x hx
  rw [Value.operands] at hx
  exact h x hx

end Action.KeepsOnly

namespace Behaviour

variable {call : Call κ}

theorem unary_keepsOnly {body : Operand → Environment κ → Action κ}
    (h : ∀ x, (body x call.options).KeepsOnly P) : (unary body call).KeepsOnly P := by
  unfold unary
  split
  · exact h _
  · exact trivial

theorem binary_keepsOnly {body : Operand → Operand → Action κ}
    (h : ∀ x y, (body x y).KeepsOnly P) : (binary body call).KeepsOnly P := by
  unfold binary
  split
  · exact h _ _
  · exact trivial

theorem ternary_keepsOnly {body : Operand → Operand → Operand → Action κ}
    (h : ∀ x y z, (body x y z).KeepsOnly P) : (ternary body call).KeepsOnly P := by
  unfold ternary
  split
  · exact h _ _ _
  · exact trivial

end Behaviour

namespace Library

open Action.KeepsOnly

/-- The procedures for plain computation. -/
def forcing : List Builtin :=
  [.itself, .plus, .define, .block, .array, .choose, .equal, .options]

theorem onlyForces_of_mem_forcing : ∀ {code : Builtin}, code ∈ forcing → code.onlyForces = true :=
  List.all_eq_true.mp rfl _

theorem addFrom_keepsOnly (i : Nat) (sum : Int64) (xs : List Operand) :
    (addFrom i sum xs : Action κ).KeepsOnly P := by
  induction xs generalizing i sum with
  | nil => exact fun x hx => nomatch hx
  | cons x xs ih =>
    refine value fun v _ => ?_
    split
    · split
      · exact ih _ _
      · exact trivial
    · exact trivial

theorem inSequence_keepsOnly {last : Value κ} (hlast : last.KeepsOnly P) (xs : List Operand) :
    (inSequence last xs).KeepsOnly P := by
  induction xs generalizing last with
  | nil => exact hlast
  | cons x xs ih => exact value fun v hv => ih hv

theorem chooseBy_keepsOnly (c a b : Operand) : (chooseBy c a b : Action κ).KeepsOnly P := by
  refine value fun v _ => ?_
  split
  · exact tail a
  · exact tail b
  · exact trivial

theorem defineIn_keepsOnly (id x body : Operand) : (defineIn id x body : Action κ).KeepsOnly P := by
  refine value fun v _ => ?_
  split
  · exact value fun v hv => tail_layered body (Environment.KeepsOnly.empty.insert hv)
  · exact trivial

/-- The procedures for plain computation keep no operands. -/
theorem host_keepsNone {code : Builtin} (h : code ∈ forcing) : host.KeepsNone code := by
  intro P p call hcode _ hoptions
  rw [← hcode] at h
  have hcall : p.code ≠ .call := by
    intro hcall
    rw [hcall] at h
    exact absurd h (by decide)
  rw [host_eq_plain hcall]
  -- The case split follows `forcing`, one procedure at a time.
  simp only [forcing, List.mem_cons, List.not_mem_nil, or_false] at h
  rcases h with h | h | h | h | h | h | h | h <;> simp only [h, plain]
  · exact Behaviour.unary_keepsOnly fun x => tail x
  · exact addFrom_keepsOnly 0 0 call.operands
  · exact Behaviour.ternary_keepsOnly defineIn_keepsOnly
  · exact inSequence_keepsOnly (fun x hx => nomatch hx) call.operands
  · refine values fun vs hvs => userData fun x hx => ?_
    obtain ⟨v, hv, hx⟩ := Value.mem_operandsOfList.mp hx
    exact hvs v hv x hx
  · exact Behaviour.ternary_keepsOnly chooseBy_keepsOnly
  · refine Behaviour.binary_keepsOnly fun x y => value fun v _ => value fun w _ => ?_
    exact fun x hx => nomatch hx
  · exact userData hoptions

end Library

end KeepsNone

end Fexpr
