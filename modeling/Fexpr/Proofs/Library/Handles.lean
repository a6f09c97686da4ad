import Fexpr.Library.Host
import Fexpr.Proofs.Eval.Handles

/-!
# The handles that procedures of the library use

No procedure of the library makes an operand up (`Library.host_usesOnly`). The procedures are built
from a few actions and behaviours, and so is the proof. Since a procedure holds on to what it was
answered, what comes after an evaluation has more handles at hand than what came before.
-/

namespace Fexpr

variable {κ : Type} {xs : List Operand} {S : Set ScopeId}

namespace Action.UsesOnly

variable {x : Operand} {place : Place κ} {α : Type}

theorem ofReply {r : Reply κ} (h : Reply.operands r ⊆ xs) :
    (Action.ofReply r).UsesOnly xs S := by
  cases r with
  | ok v => exact fun _ hx => h hx
  | error e => trivial

theorem tail (hx : x ∈ xs) (hplace : place.UsesOnly xs S) :
    (Action.tail x place).UsesOnly xs S :=
  ⟨hx, hplace, fun _ => ofReply (List.subset_append_left _ xs)⟩

theorem require {result : Except Error α} {next : α → Action κ}
    (hnext : ∀ a, result = .ok a → (next a).UsesOnly xs S) :
    (Action.require result next).UsesOnly xs S := by
  cases result with
  | ok a => exact hnext a rfl
  | error e => trivial

theorem forceThen {next : Value κ → Action κ} (hx : x ∈ xs) (hplace : place.UsesOnly xs S)
    (hnext : ∀ v ys, xs ⊆ ys → v.KeepsOnly (· ∈ ys) → (next v).UsesOnly ys S) :
    (Action.force x place fun r => Action.require r next).UsesOnly xs S := by
  refine ⟨hx, hplace, fun r => require fun v hv => ?_⟩
  subst hv
  exact hnext v _ (List.subset_append_right _ xs) fun y hy => List.mem_append_left xs hy

theorem value {next : Value κ → Action κ} (hx : x ∈ xs)
    (hnext : ∀ v ys, xs ⊆ ys → v.KeepsOnly (· ∈ ys) → (next v).UsesOnly ys S) :
    (Action.value x next).UsesOnly xs S :=
  forceThen hx trivial hnext

theorem text {next : String → Action κ} (hx : x ∈ xs)
    (hnext : ∀ s ys, xs ⊆ ys → (next s).UsesOnly ys S) : (Action.text x next).UsesOnly xs S :=
  value hx fun _ ys hsub _ => require fun s _ => hnext s ys hsub

theorem values {us : List Operand} {next : List (Value κ) → Action κ} (hus : us ⊆ xs)
    (hnext : ∀ vs ys, xs ⊆ ys → (∀ v ∈ vs, v.KeepsOnly (· ∈ ys)) → (next vs).UsesOnly ys S) :
    (Action.values us next).UsesOnly xs S := by
  induction us generalizing xs next with
  | nil => exact hnext [] xs (List.Subset.refl xs) fun v hv => nomatch hv
  | cons u us ih =>
    obtain ⟨hu, hus⟩ := List.cons_subset.mp hus
    refine value hu fun v ys hsub hv => ih (List.Subset.trans hus hsub) fun vs zs hsub' hvs => ?_
    refine hnext (v :: vs) zs (List.Subset.trans hsub hsub') (List.forall_mem_cons.mpr ⟨?_, hvs⟩)
    exact fun y hy => hsub' (hv y hy)

theorem texts {us : List Operand} {next : List String → Action κ} (hus : us ⊆ xs)
    (hnext : ∀ ss ys, xs ⊆ ys → (next ss).UsesOnly ys S) :
    (Action.texts us next).UsesOnly xs S := by
  induction us generalizing xs next with
  | nil => exact hnext [] xs (List.Subset.refl xs)
  | cons u us ih =>
    obtain ⟨hu, hus⟩ := List.cons_subset.mp hus
    refine text hu fun s ys hsub => ih (List.Subset.trans hus hsub) fun ss zs hsub' => ?_
    exact hnext (s :: ss) zs (List.Subset.trans hsub hsub')

theorem userData {content : UserData κ} (h : ∀ x ∈ Value.UserData.operands content, x ∈ xs) :
    (Action.userData content).UsesOnly xs S := fun _ => h

theorem userDataList {vs : List (Value κ)} (h : ∀ v ∈ vs, v.KeepsOnly (· ∈ xs)) :
    (Action.userData (.list vs)).UsesOnly xs S := by
  refine userData fun x hx => ?_
  obtain ⟨v, hv, hx⟩ := Value.mem_operandsOfList.mp hx
  exact h v hv x hx

theorem withData {next : Action κ} (h : next.UsesOnly xs S) :
    (Action.withData next).UsesOnly xs S := by
  intro present
  cases present with
  | true => exact h
  | false => trivial

end Action.UsesOnly

/-! ## Numbers of operands -/

namespace Behaviour

variable {call : Call κ}

theorem nullary_usesOnly {body : Action κ} (h : body.UsesOnly xs S) :
    (nullary body call).UsesOnly xs S := by
  unfold nullary
  split
  · exact h
  · trivial

theorem unary_usesOnly {body : Operand → Environment κ → Action κ}
    (h : ∀ x ∈ call.operands, (body x call.options).UsesOnly xs S) :
    (unary body call).UsesOnly xs S := by
  unfold unary
  split
  next x hx => exact h x (by simp [hx])
  · trivial

theorem binary_usesOnly {body : Operand → Operand → Action κ}
    (h : ∀ x ∈ call.operands, ∀ y ∈ call.operands, (body x y).UsesOnly xs S) :
    (binary body call).UsesOnly xs S := by
  unfold binary
  split
  next x y hxy => exact h x (by simp [hxy]) y (by simp [hxy])
  · trivial

theorem ternary_usesOnly {body : Operand → Operand → Operand → Action κ}
    (h : ∀ x ∈ call.operands, ∀ y ∈ call.operands, ∀ z ∈ call.operands,
      (body x y z).UsesOnly xs S) :
    (ternary body call).UsesOnly xs S := by
  unfold ternary
  split
  next x y z hxyz => exact h x (by simp [hxyz]) y (by simp [hxyz]) z (by simp [hxyz])
  · trivial

theorem guard_usesOnly {arity : Arity} {body : Behaviour κ} (h : (body call).UsesOnly xs S) :
    (arity.guard body call).UsesOnly xs S := by
  rw [Arity.guard_apply]
  cases arity.check call.operands.length with
  | none => exact h
  | some mismatch => trivial

end Behaviour

/-! ## The procedures -/

namespace Library

open Action.UsesOnly

variable {x y z : Operand} {us : List Operand}

theorem addFrom_usesOnly (hus : us ⊆ xs) (i : Nat) (sum : Int64) :
    (addFrom i sum us : Action κ).UsesOnly xs S := by
  induction us generalizing xs i sum with
  | nil => exact fun x hx => nomatch hx
  | cons u us ih =>
    obtain ⟨hu, hus⟩ := List.cons_subset.mp hus
    refine value hu fun v ys hsub _ => ?_
    split
    · split
      · exact ih (List.Subset.trans hus hsub) _ _
      · trivial
    · trivial

theorem inSequence_usesOnly (hus : us ⊆ xs) {last : Value κ} (hlast : last.KeepsOnly (· ∈ xs)) :
    (inSequence last us).UsesOnly xs S := by
  induction us generalizing xs last with
  | nil => exact hlast
  | cons u us ih =>
    obtain ⟨hu, hus⟩ := List.cons_subset.mp hus
    exact value hu fun v ys hsub hv => ih (List.Subset.trans hus hsub) hv

theorem fields_usesOnly (hus : us ⊆ xs) {next : List (String × Value κ) → Action κ}
    (hnext : ∀ pairs ys, xs ⊆ ys → (∀ e ∈ pairs, e.2.KeepsOnly (· ∈ ys)) →
      (next pairs).UsesOnly ys S) : (fields us next).UsesOnly xs S := by
  fun_induction fields us next generalizing xs with
  | case1 next key x rest ih =>
    obtain ⟨hkey, hus⟩ := List.cons_subset.mp hus
    obtain ⟨hx, hus⟩ := List.cons_subset.mp hus
    refine text hkey fun k ys hys => value (hys hx) fun v zs hzs hv => ?_
    refine ih k v (fun u hu => hzs (hys (hus hu))) fun pairs zs' hzs' hpairs => ?_
    refine hnext _ zs' (fun u hu => hzs' (hzs (hys hu))) (List.forall_mem_cons.mpr ⟨?_, hpairs⟩)
    exact fun u hu => hzs' (hv u hu)
  | case2 next us _ => exact hnext [] xs (List.Subset.refl xs) fun e he => nomatch he

theorem makeRecord_usesOnly (hus : us ⊆ xs) (kind : RecordKind) :
    (makeRecord kind us : Action κ).UsesOnly xs S := by
  unfold makeRecord
  split
  · refine fields_usesOnly hus fun pairs ys _ hpairs => userData fun x hx => ?_
    have hkeeps : Environment.KeepsOnly (· ∈ ys) (Bindings.ofList pairs) := .ofList hpairs
    exact hkeeps x hx
  · trivial

theorem chooseBy_usesOnly (hx : x ∈ xs) (hy : y ∈ xs) (hz : z ∈ xs) :
    (chooseBy x y z : Action κ).UsesOnly xs S := by
  refine value hx fun v ys hsub _ => ?_
  split
  · exact tail (hsub hy) trivial
  · exact tail (hsub hz) trivial
  · trivial

theorem defineIn_usesOnly (hx : x ∈ xs) (hy : y ∈ xs) (hz : z ∈ xs) :
    (defineIn x y z : Action κ).UsesOnly xs S := by
  refine value hx fun v ys hys _ => ?_
  split
  · refine value (hys hy) fun v zs hzs hv => tail (hzs (hys hz)) ?_
    exact Environment.KeepsOnly.empty.insert hv
  · trivial

theorem iterateTimes_usesOnly (hx : x ∈ xs) (n : Nat) {last : Value κ}
    (hlast : last.KeepsOnly (· ∈ xs)) : (iterateTimes x n last).UsesOnly xs S := by
  induction n generalizing xs last with
  | zero => exact hlast
  | succ n ih => exact value hx fun v ys hsub hv => ih (hsub hx) hv

theorem inEach_usesOnly (hx : x ∈ xs) {envs : List (Environment κ)}
    (henvs : ∀ env ∈ envs, env.KeepsOnly (· ∈ xs)) {next : List (Value κ) → Action κ}
    (hnext : ∀ vs ys, xs ⊆ ys → (∀ v ∈ vs, v.KeepsOnly (· ∈ ys)) → (next vs).UsesOnly ys S) :
    (inEach x envs next).UsesOnly xs S := by
  induction envs generalizing xs next with
  | nil => exact hnext [] xs (List.Subset.refl xs) fun v hv => nomatch hv
  | cons env envs ih =>
    obtain ⟨henv, henvs⟩ := List.forall_mem_cons.mp henvs
    refine forceThen hx henv fun v ys hys hv => ?_
    refine ih (hys hx) (fun e he u hu => hys (henvs e he u hu)) fun vs zs hzs hvs => ?_
    refine hnext (v :: vs) zs (List.Subset.trans hys hzs) (List.forall_mem_cons.mpr ⟨?_, hvs⟩)
    exact fun u hu => hzs (hv u hu)

theorem countingFrom_usesOnly (hx : x ∈ xs) (n i : Nat) {next : List (Value κ) → Action κ}
    (hnext : ∀ vs ys, xs ⊆ ys → (∀ v ∈ vs, v.KeepsOnly (· ∈ ys)) → (next vs).UsesOnly ys S) :
    (countingFrom x n i next).UsesOnly xs S := by
  induction n generalizing xs i next with
  | zero => exact hnext [] xs (List.Subset.refl xs) fun v hv => nomatch hv
  | succ n ih =>
    have henv : Environment.KeepsOnly (· ∈ xs)
        (Bindings.ofList [("i", .int (Int64.ofNat i))] : Environment κ) :=
      Environment.KeepsOnly.empty.insert fun u hu => nomatch hu
    refine forceThen hx henv fun v ys hys hv => ih (hys hx) (i + 1) fun vs zs hzs hvs => ?_
    refine hnext (v :: vs) zs (List.Subset.trans hys hzs) (List.forall_mem_cons.mpr ⟨?_, hvs⟩)
    exact fun u hu => hzs (hv u hu)

theorem lineBindings_keepsOnly (P : Operand → Prop) (line : String) :
    Environment.KeepsOnly P (lineBindings line : Environment κ) := by
  refine .ofList fun e he => ?_
  rcases List.mem_cons.mp he with rfl | he
  · exact fun u hu => nomatch hu
  · obtain ⟨word, -, rfl⟩ := List.mem_map.mp he
    exact fun u hu => nomatch hu

theorem makeClosure_usesOnly (hus : us ⊆ xs) : (makeClosure us).UsesOnly xs S := by
  unfold makeClosure
  split
  · trivial
  next body hbody =>
    have hdrop : us.dropLast ⊆ xs := fun u hu => hus (List.dropLast_subset us hu)
    refine texts hdrop fun parameters ys hsub identity u hu => ?_
    rw [List.mem_singleton.mp hu]
    exact hsub (hus (List.mem_of_getLast? hbody))

theorem callClosure_usesOnly {captured : List Operand} (hcaptured : captured ⊆ xs)
    (parameters : List String) {call : Call Builtin} (hoperands : call.operands ⊆ xs) :
    (callClosure parameters captured call).UsesOnly xs S := by
  refine Behaviour.guard_usesOnly ?_
  split
  next body rest =>
    refine values hoperands fun vs ys hsub hvs => ?_
    refine tail (hsub (hcaptured List.mem_cons_self)) (Environment.KeepsOnly.ofList fun e he => ?_)
    exact hvs e.2 (List.of_mem_zip he).2
  · exact fun u hu => nomatch hu

theorem quoted_usesOnly (hx : x ∈ xs) {next : Operand → Action κ}
    (hnext : ∀ y ys, xs ⊆ ys → y ∈ ys → (next y).UsesOnly ys S) :
    (quoted x next).UsesOnly xs S := by
  refine value hx fun v ys hsub hv => ?_
  split
  next identity y => exact hnext y ys hsub (hv y List.mem_cons_self)
  · trivial

theorem inReleased_usesOnly (hx : x ∈ xs) {env : Environment κ} (henv : env.KeepsOnly (· ∈ xs)) :
    (inReleased x env).UsesOnly xs S := by
  refine ⟨henv, fun s => ?_, fun s r => ?_⟩
  · exact tail hx (Set.mem_insert s S)
  · exact ofReply (List.subset_append_left _ xs)

theorem found_usesOnly (v : Option (Value κ)) :
    (found v).UsesOnly (Value.operandsOfFound v ++ xs) S := by
  cases v with
  | none => exact fun u hu => nomatch hu
  | some v => exact fun u hu => List.mem_append_left xs hu

theorem foundOutside_usesOnly (v : Option (Option (Value κ))) :
    (foundOutside v).UsesOnly (Value.operandsOfFound v.join ++ xs) S := by
  cases v with
  | none => trivial
  | some v => exact found_usesOnly v

theorem mapFailure_usesOnly (hx : x ∈ xs) (f : Error → Error) :
    (mapFailure f x : Action κ).UsesOnly xs S := by
  refine ⟨hx, trivial, fun r => ofReply ?_⟩
  cases r with
  | ok v => exact List.subset_append_left _ xs
  | error e => exact List.nil_subset _

theorem attemptOr_usesOnly (hx : x ∈ xs) (hy : y ∈ xs) :
    (attemptOr x y : Action κ).UsesOnly xs S := by
  refine ⟨hx, trivial, fun r => ?_⟩
  cases r with
  | ok v => exact fun u hu => List.mem_append_left xs hu
  | error e =>
    refine tail hy (Environment.KeepsOnly.ofList fun e he => ?_)
    simp only [List.mem_cons, List.not_mem_nil, or_false] at he
    rcases he with rfl | rfl | rfl <;> exact fun u hu => nomatch hu

theorem checkPattern_usesOnly (hx : x ∈ xs) (hy : y ∈ xs) :
    (checkPattern x y : Action κ).UsesOnly xs S := by
  refine text hx fun p ys hsub => require fun a _ => ?_
  refine value (hsub hy) fun v zs _ _ => require fun k _ => ?_
  split
  · trivial
  · exact fun u hu => nomatch hu

theorem getKey_usesOnly (hx : x ∈ xs) (hy : y ∈ xs) : (getKey x y : Action κ).UsesOnly xs S := by
  refine text hy fun k ys hsub => value (hsub hx) fun v zs _ hv => ?_
  split
  next w hw => exact hv.select hw
  · trivial
  · trivial

theorem emitAll_usesOnly (hus : us ⊆ xs) (count : Nat) : (emitAll count us).UsesOnly xs S := by
  induction us generalizing xs with
  | nil => exact fun u hu => nomatch hu
  | cons u us ih =>
    obtain ⟨hu, hus⟩ := List.cons_subset.mp hus
    exact value hu fun v ys hsub _ => withData (ih (List.Subset.trans hus hsub))

theorem ofType_keepsOnly {P : Operand → Prop} {v w : Value κ} (hv : v.KeepsOnly P)
    {type : ValueType} (hw : v.ofType type = .ok w) : w.KeepsOnly P := by
  unfold Value.ofType Value.ofType? at hw
  split at hw
  next u hu =>
    split at hu
    · cases hu
      cases hw
      exact hv
    · cases hu
  · cases hw

/-- No procedure makes an operand up that calls no other one directly. `STALE` asks for a scope after
its release. -/
theorem plain_usesOnly (hS : ∀ s, s ∈ S) {captured : List Operand} (hcaptured : captured ⊆ xs)
    {call : Call Builtin} (hoperands : call.operands ⊆ xs)
    (hoptions : Environment.KeepsOnly (· ∈ xs) call.options) (code : Builtin) :
    (plain captured code call).UsesOnly xs S := by
  have hnone : ∀ {v : Value Builtin}, v.operands = [] → ∀ ys : List Operand,
      v.KeepsOnly (· ∈ ys) := fun hv ys x hx => by rw [hv] at hx; cases hx
  cases code <;> rw [plain]
  case itself => exact Behaviour.unary_usesOnly fun x hx => tail (hoperands hx) trivial
  case plus => exact addFrom_usesOnly hoperands 0 0
  case define =>
    exact Behaviour.ternary_usesOnly fun x hx y hy z hz =>
      defineIn_usesOnly (hoperands hx) (hoperands hy) (hoperands hz)
  case block => exact inSequence_usesOnly hoperands (hnone rfl xs)
  case array =>
    exact values hoperands fun vs ys _ hvs => userDataList hvs
  case record kind => exact makeRecord_usesOnly hoperands kind
  case choose =>
    exact Behaviour.ternary_usesOnly fun x hx y hy z hz =>
      chooseBy_usesOnly (hoperands hx) (hoperands hy) (hoperands hz)
  case equal =>
    exact Behaviour.binary_usesOnly fun x hx y hy =>
      value (hoperands hx) fun v ys hsub _ =>
        value (hsub (hoperands hy)) fun w zs _ _ => hnone rfl zs
  case options => exact userData hoptions
  case set =>
    refine Behaviour.binary_usesOnly fun x hx y hy => text (hoperands hx) fun id ys hsub => ?_
    exact value (hsub (hoperands hy)) fun v zs _ hv => ⟨hv, hv⟩
  case layer => exact Behaviour.unary_usesOnly fun x hx => tail (hoperands hx) hoptions
  case derive =>
    refine Behaviour.unary_usesOnly fun x hx => ⟨hoptions, fun s => ?_⟩
    exact tail (hoperands hx) (Set.mem_insert s S)
  case withDerived =>
    exact Behaviour.unary_usesOnly fun x hx => inReleased_usesOnly (hoperands hx) hoptions
  -- The scope is released by the time it is asked for, so that only `hS` grants it.
  case stale =>
    refine Behaviour.unary_usesOnly fun x hx => ⟨hoptions, fun s => hnone rfl xs, fun s r => ?_⟩
    exact tail (List.mem_append_right _ (hoperands hx)) (hS s)
  case scopes | maxDepth => exact Behaviour.nullary_usesOnly fun n => hnone rfl xs
  case lookup | lookupLocal =>
    exact Behaviour.unary_usesOnly fun x hx => text (hoperands hx) fun id ys _ => found_usesOnly
  case lookupOuter =>
    exact Behaviour.unary_usesOnly fun x hx =>
      text (hoperands hx) fun id ys _ => foundOutside_usesOnly
  case quote =>
    refine Behaviour.unary_usesOnly fun x hx => userData fun y hy => ?_
    exact List.mem_singleton.mp hy ▸ hoperands hx
  case force =>
    exact Behaviour.unary_usesOnly fun x hx =>
      quoted_usesOnly (hoperands hx) fun y ys _ hy => tail hy trivial
  case forceWith =>
    exact Behaviour.unary_usesOnly fun x hx => quoted_usesOnly (hoperands hx) fun y ys hsub hy =>
      tail hy fun z hz => hsub (hoptions z hz)
  case sameScope =>
    exact Behaviour.binary_usesOnly fun x hx y hy =>
      quoted_usesOnly (hoperands hx) fun p ys hsub _ =>
        quoted_usesOnly (hsub (hoperands hy)) fun q zs _ _ => hnone rfl zs
  case inspect => exact hnone rfl xs
  case capture =>
    refine Behaviour.binary_usesOnly fun x hx y hy => text (hoperands hx) fun name ys hsub => ?_
    exact withData ⟨hsub (hoperands hy), hnone rfl ys⟩
  case lambda => exact makeClosure_usesOnly hoperands
  case closure parameters => exact callClosure_usesOnly hcaptured parameters hoperands
  case call => exact Behaviour.guard_usesOnly (hnone rfl xs)
  case iterate =>
    refine Behaviour.binary_usesOnly fun x hx y hy => value (hoperands hx) fun v ys hsub _ => ?_
    exact require fun k _ => iterateTimes_usesOnly (hsub (hoperands hy)) _ (hnone rfl ys)
  case loop =>
    refine Behaviour.binary_usesOnly fun x hx y hy => value (hoperands hx) fun v ys hsub _ => ?_
    exact require fun k _ =>
      countingFrom_usesOnly (hsub (hoperands hy)) _ 0 fun vs zs _ hvs => userDataList hvs
  case eachLine =>
    refine Behaviour.binary_usesOnly fun x hx y hy => text (hoperands hx) fun lines ys hsub => ?_
    refine inEach_usesOnly (hsub (hoperands hy)) (fun env henv => ?_) fun vs zs _ => userDataList
    obtain ⟨line, -, rfl⟩ := List.mem_map.mp henv
    exact lineBindings_keepsOnly _ line
  case tick => exact Behaviour.nullary_usesOnly (withData fun n => hnone rfl xs)
  case emit => exact emitAll_usesOnly hoperands _
  case failure | wrap | emptyBinding =>
    exact Behaviour.unary_usesOnly fun x hx => text (hoperands hx) fun m ys _ => trivial
  case failureWithHelp =>
    exact Behaviour.binary_usesOnly fun x hx y hy =>
      text (hoperands hx) fun m ys hsub => text (hsub (hoperands hy)) fun h zs _ => trivial
  case nest => exact Behaviour.unary_usesOnly fun x hx => mapFailure_usesOnly (hoperands hx) _
  case help =>
    exact Behaviour.binary_usesOnly fun x hx y hy =>
      text (hoperands hx) fun h ys hsub => mapFailure_usesOnly (hsub (hoperands hy)) _
  case attempt =>
    exact Behaviour.binary_usesOnly fun x hx y hy =>
      attemptOr_usesOnly (hoperands hx) (hoperands hy)
  case checkArity =>
    exact Behaviour.binary_usesOnly fun x hx y hy =>
      checkPattern_usesOnly (hoperands hx) (hoperands hy)
  case count arity => exact Behaviour.guard_usesOnly (hnone rfl xs)
  case convert type =>
    exact Behaviour.unary_usesOnly fun x hx =>
      value (hoperands hx) fun v ys _ hv => require fun w hw => ofType_keepsOnly hv hw
  case typeName | render =>
    exact Behaviour.unary_usesOnly fun x hx => value (hoperands hx) fun v ys _ _ => hnone rfl ys
  case get =>
    exact Behaviour.binary_usesOnly fun x hx y hy => getKey_usesOnly (hoperands hx) (hoperands hy)

theorem invoke_usesOnly (hS : ∀ s, s ∈ S) {options : Environment Builtin}
    (hoptions : options.KeepsOnly (· ∈ xs)) (hus : us ⊆ xs) {p : Procedure Builtin}
    (hp : p.captured ⊆ xs) : (invoke options us p).UsesOnly xs S := by
  induction us generalizing xs p with
  | nil => exact plain_usesOnly hS hp hus hoptions p.code
  | cons u us ih =>
    rw [invoke]
    split
    · obtain ⟨hu, hus⟩ := List.cons_subset.mp hus
      refine value hu fun v ys hsub hv => require fun q hq => ?_
      have hq : q.captured ⊆ ys := by
        cases v with
        | procedure p =>
          cases hq
          exact fun x hx => hv x hx
        | _ => cases hq
      exact ih (fun x hx => hsub (hoptions x hx)) (List.Subset.trans hus hsub) hq
    · exact plain_usesOnly hS hp hus hoptions p.code

/-- The procedures of the library make no operands up. -/
theorem host_usesOnly : Host.UsesOnly Set.univ host := by
  intro p call
  refine invoke_usesOnly (fun s => .inl (Set.mem_univ s)) (fun x hx => ?_) (fun x hx => ?_)
    fun x hx => ?_
  · exact List.mem_append_right _ hx
  · exact List.mem_append_left _ (List.mem_append_right _ hx)
  · exact List.mem_append_left _ (List.mem_append_left _ hx)

end Library

end Fexpr
