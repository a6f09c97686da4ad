import Fexpr.Library.Host
import Fexpr.Proofs.Eval.Alike

/-!
# The procedures of the library that ignore places

All procedures of the library ignore places but three (`Library.host_ignoresPlaces`): `INSPECT`
answers the texts and spans of its operands, and `TRY` and `NEST` put an error, with its location,
into words.
-/

namespace Fexpr

variable {κ : Type} {L : Likeness κ}

namespace Action.Alike

variable {x x' : Operand} {place place' : Place κ}

theorem ofReply {r r' : Reply κ} (h : Reply.Alike L r r') :
    (Action.ofReply r).Alike L (Action.ofReply r') := by
  cases h with
  | error he => exact .fail he
  | ok hv => exact .done hv

theorem tail (hx : x.Alike L x') (hplace : place.Alike L place') :
    (Action.tail x place).Alike L (Action.tail x' place') :=
  .force hx hplace fun _ _ hr => ofReply hr

theorem require {α : Type} {R : α → α → Prop} {result result' : Except Error α}
    {next next' : α → Action κ} (h : ExceptRel (Error.Alike L) R result result')
    (hnext : ∀ a a', R a a' → (next a).Alike L (next' a')) :
    (Action.require result next).Alike L (Action.require result' next') := by
  cases h with
  | error he => exact .fail he
  | ok ha => exact hnext _ _ ha

theorem forceThen {next next' : Value κ → Action κ} (hx : x.Alike L x')
    (hplace : place.Alike L place')
    (hnext : ∀ v v', v.Alike L v' → (next v).Alike L (next' v')) :
    (Action.force x place fun r => Action.require r next).Alike L
      (Action.force x' place' fun r => Action.require r next') :=
  .force hx hplace fun _ _ hr => require hr hnext

theorem value {next next' : Value κ → Action κ} (hx : x.Alike L x')
    (hnext : ∀ v v', v.Alike L v' → (next v).Alike L (next' v')) :
    (Action.value x next).Alike L (Action.value x' next') :=
  forceThen hx .own hnext

theorem failWith (message : String) :
    (Action.failWith message : Action κ).Alike L (Action.failWith message) :=
  .fail (.raised message [])

end Action.Alike

namespace Value.Alike

variable {v v' u u' : Value κ}

theorem mismatch (h : v.Alike L v') (expected : ValueType) :
    (v.mismatch expected).Alike L (v'.mismatch expected) := by
  rw [Value.mismatch, Value.mismatch, h.type_eq]
  exact .raised _ []

theorem toText (h : v.Alike L v') : ExceptRel (Error.Alike L) Eq v.toText v'.toText := by
  have hmismatch := h.mismatch .string
  cases h with
  | string s => exact .ok rfl
  | _ => exact .error hmismatch

theorem toInt (h : v.Alike L v') : ExceptRel (Error.Alike L) Eq v.toInt v'.toInt := by
  have hmismatch := h.mismatch .int
  cases h with
  | int n => exact .ok rfl
  | _ => exact .error hmismatch

theorem toUInt (h : v.Alike L v') : ExceptRel (Error.Alike L) Eq v.toUInt v'.toUInt := by
  have hmismatch := h.mismatch .uint
  cases h with
  | uint n => exact .ok rfl
  | _ => exact .error hmismatch

theorem toProcedure (h : v.Alike L v') :
    ExceptRel (Error.Alike L) (Procedure.Alike L) v.toProcedure v'.toProcedure := by
  have hmismatch := h.mismatch .procedure
  cases h with
  | procedure hp => exact .ok hp
  | _ => exact .error hmismatch

theorem ofType (h : v.Alike L v') (expected : ValueType) :
    ExceptRel (Error.Alike L) (Value.Alike L) (v.ofType expected) (v'.ofType expected) := by
  simp only [Value.ofType, Value.ofType?, h.type_eq]
  by_cases htype : v.type = expected
  · rw [if_pos htype, if_pos htype]
    exact .ok h
  · rw [if_neg htype, if_neg htype]
    exact .error (h.mismatch expected)

theorem render_eq (h : v.Alike L v') : v'.render = v.render := by
  cases h with
  | userData i h =>
    cases h with
    | record kind h => cases kind <;> rfl
    | _ => rfl
  | _ => rfl

theorem equals_eq (hv : v.Alike L v') (hu : u.Alike L u') : v'.equals u' = v.equals u := by
  cases hv with
  | procedure hp =>
    cases hp
    cases hu with
    | procedure hq =>
      cases hq
      rfl
    | _ => rfl
  | _ => cases hu <;> rfl

end Value.Alike

namespace Action.Alike

variable {x x' : Operand} {xs xs' : List Operand}

theorem text {next next' : String → Action κ} (hx : x.Alike L x')
    (hnext : ∀ s, (next s).Alike L (next' s)) :
    (Action.text x next).Alike L (Action.text x' next') := by
  refine value hx fun v v' hv => require hv.toText ?_
  rintro s _ rfl
  exact hnext s

theorem values {next next' : List (Value κ) → Action κ}
    (hxs : List.Forall₂ (Operand.Alike L) xs xs')
    (hnext : ∀ vs vs', List.Forall₂ (Value.Alike L) vs vs' → (next vs).Alike L (next' vs')) :
    (Action.values xs next).Alike L (Action.values xs' next') := by
  induction hxs generalizing next next' with
  | nil => exact hnext [] [] .nil
  | cons hx _ ih => exact value hx fun v v' hv => ih fun vs vs' hvs => hnext _ _ (.cons hv hvs)

theorem texts {next next' : List String → Action κ} (hxs : List.Forall₂ (Operand.Alike L) xs xs')
    (hnext : ∀ ss, (next ss).Alike L (next' ss)) :
    (Action.texts xs next).Alike L (Action.texts xs' next') := by
  induction hxs generalizing next next' with
  | nil => exact hnext []
  | cons hx _ ih => exact text hx fun s => ih fun ss => hnext (s :: ss)

theorem userData {c c' : UserData κ} (h : c.Alike L c') :
    (Action.userData c).Alike L (Action.userData c') :=
  .fresh fun i => .done (.userData i h)

theorem withData {next next' : Action κ} (h : next.Alike L next') :
    (Action.withData next).Alike L (Action.withData next') := by
  refine .hasData fun present => ?_
  cases present with
  | true => exact h
  | false => exact failWith _

end Action.Alike

/-! ## Numbers of operands -/

namespace Behaviour

variable {call call' : Call κ}

theorem wrongCount_alike (n : Nat) (h : call.Alike L call') :
    (wrongCount n call).Alike L (wrongCount n call') := by
  rw [wrongCount, wrongCount, h.operands.length_eq]
  exact .fail (.arity _)

theorem nullary_alike {body body' : Action κ} (h : call.Alike L call') (hbody : body.Alike L body') :
    (nullary body call).Alike L (nullary body' call') := by
  have hwrong := wrongCount_alike 0 h
  obtain ⟨operands, options⟩ := call
  obtain ⟨operands', options'⟩ := call'
  obtain ⟨hoperands, -⟩ := h
  cases hoperands with
  | nil => exact hbody
  | cons _ _ => exact hwrong

theorem unary_alike {body body' : Operand → Environment κ → Action κ} (h : call.Alike L call')
    (hbody : ∀ x x', x.Alike L x' → (body x call.options).Alike L (body' x' call'.options)) :
    (unary body call).Alike L (unary body' call') := by
  have hwrong := wrongCount_alike 1 h
  obtain ⟨operands, options⟩ := call
  obtain ⟨operands', options'⟩ := call'
  obtain ⟨hoperands, -⟩ := h
  cases hoperands with
  | nil => exact hwrong
  | cons hx hxs =>
    cases hxs with
    | nil => exact hbody _ _ hx
    | cons _ _ => exact hwrong

theorem binary_alike {body body' : Operand → Operand → Action κ} (h : call.Alike L call')
    (hbody : ∀ x x' y y', x.Alike L x' → y.Alike L y' → (body x y).Alike L (body' x' y')) :
    (binary body call).Alike L (binary body' call') := by
  have hwrong := wrongCount_alike 2 h
  obtain ⟨operands, options⟩ := call
  obtain ⟨operands', options'⟩ := call'
  obtain ⟨hoperands, -⟩ := h
  cases hoperands with
  | nil => exact hwrong
  | cons hx hxs =>
    cases hxs with
    | nil => exact hwrong
    | cons hy hxs =>
      cases hxs with
      | nil => exact hbody _ _ _ _ hx hy
      | cons _ _ => exact hwrong

theorem ternary_alike {body body' : Operand → Operand → Operand → Action κ}
    (h : call.Alike L call') (hbody : ∀ x x' y y' z z', x.Alike L x' → y.Alike L y' →
      z.Alike L z' → (body x y z).Alike L (body' x' y' z')) :
    (ternary body call).Alike L (ternary body' call') := by
  have hwrong := wrongCount_alike 3 h
  obtain ⟨operands, options⟩ := call
  obtain ⟨operands', options'⟩ := call'
  obtain ⟨hoperands, -⟩ := h
  cases hoperands with
  | nil => exact hwrong
  | cons hx hxs =>
    cases hxs with
    | nil => exact hwrong
    | cons hy hxs =>
      cases hxs with
      | nil => exact hwrong
      | cons hz hxs =>
        cases hxs with
        | nil => exact hbody _ _ _ _ _ _ hx hy hz
        | cons _ _ => exact hwrong

theorem guard_alike (arity : Arity) {body body' : Behaviour κ} (h : call.Alike L call')
    (hbody : (body call).Alike L (body' call')) :
    (arity.guard body call).Alike L (arity.guard body' call') := by
  rw [Arity.guard_apply, Arity.guard_apply, h.operands.length_eq]
  cases arity.check call'.operands.length with
  | none => exact hbody
  | some mismatch => exact .fail (.arity mismatch)

end Behaviour

/-! ## The procedures -/

namespace Library

open Action.Alike

variable {x x' y y' z z' : Operand} {xs xs' : List Operand}

theorem addFrom_alike (i : Nat) (sum : Int64) (hxs : List.Forall₂ (Operand.Alike L) xs xs') :
    (addFrom i sum xs : Action κ).Alike L (addFrom i sum xs') := by
  induction hxs generalizing i sum with
  | nil => exact .done (.int sum)
  | cons hx _ ih =>
    refine value hx fun v v' hv => ?_
    cases hv with
    | int n =>
      dsimp only
      split
      · exact ih _ _
      · exact failWith _
    | _ => exact failWith _

theorem inSequence_alike {last last' : Value κ} (hlast : last.Alike L last')
    (hxs : List.Forall₂ (Operand.Alike L) xs xs') :
    (inSequence last xs).Alike L (inSequence last' xs') := by
  induction hxs generalizing last last' with
  | nil => exact .done hlast
  | cons hx _ ih => exact value hx fun v v' hv => ih hv

theorem chooseBy_alike (hx : x.Alike L x') (hy : y.Alike L y') (hz : z.Alike L z') :
    (chooseBy x y z : Action κ).Alike L (chooseBy x' y' z') := by
  refine value hx fun v v' hv => ?_
  cases hv with
  | bool b =>
    cases b with
    | true => exact tail hy .own
    | false => exact tail hz .own
  | _ => exact failWith _

theorem defineIn_alike (hx : x.Alike L x') (hy : y.Alike L y') (hz : z.Alike L z') :
    (defineIn x y z : Action κ).Alike L (defineIn x' y' z') := by
  refine value hx fun v v' hv => ?_
  cases hv with
  | string name =>
    refine value hy fun v v' hv => tail hz (.layered (.ofList ?_))
    exact .cons (.mk name hv) .nil
  | _ => exact failWith _

theorem fields_alike {xs xs' : List Operand} {next next' : List (String × Value κ) → Action κ}
    (hxs : List.Forall₂ (Operand.Alike L) xs xs')
    (hnext : ∀ pairs pairs', List.Forall₂ (Bindings.EntryRel (Value.Alike L)) pairs pairs' →
      (next pairs).Alike L (next' pairs')) : (fields xs next).Alike L (fields xs' next') := by
  -- Keys and values come in pairs, so the recursion is on the list without its first two.
  cases hxs with
  | nil => exact hnext [] [] .nil
  | cons hkey hxs =>
    cases hxs with
    | nil => exact hnext [] [] .nil
    | cons hx hrest =>
      refine text hkey fun k => value hx fun v v' hv => ?_
      exact fields_alike hrest fun pairs pairs' hpairs => hnext _ _ (.cons (.mk k hv) hpairs)

theorem makeRecord_alike (kind : RecordKind) (hxs : List.Forall₂ (Operand.Alike L) xs xs') :
    (makeRecord kind xs : Action κ).Alike L (makeRecord kind xs') := by
  simp only [makeRecord, hxs.length_eq]
  split
  · refine fields_alike hxs fun pairs pairs' hpairs => userData (.record kind ?_)
    exact Bindings.Rel.ofList hpairs
  · exact failWith _

theorem iterateTimes_alike (hx : x.Alike L x') (n : Nat) {last last' : Value κ}
    (hlast : last.Alike L last') : (iterateTimes x n last).Alike L (iterateTimes x' n last') := by
  induction n generalizing last last' with
  | zero => exact .done hlast
  | succ n ih => exact value hx fun v v' hv => ih hv

theorem inEach_alike (hx : x.Alike L x') {envs envs' : List (Environment κ)}
    (henvs : List.Forall₂ (Environment.Alike L) envs envs') {next next' : List (Value κ) → Action κ}
    (hnext : ∀ vs vs', List.Forall₂ (Value.Alike L) vs vs' → (next vs).Alike L (next' vs')) :
    (inEach x envs next).Alike L (inEach x' envs' next') := by
  induction henvs generalizing next next' with
  | nil => exact hnext [] [] .nil
  | cons henv _ ih =>
    exact forceThen hx (.layered henv) fun v v' hv => ih fun vs vs' hvs => hnext _ _ (.cons hv hvs)

theorem countingFrom_alike (hx : x.Alike L x') (n i : Nat)
    {next next' : List (Value κ) → Action κ}
    (hnext : ∀ vs vs', List.Forall₂ (Value.Alike L) vs vs' → (next vs).Alike L (next' vs')) :
    (countingFrom x n i next).Alike L (countingFrom x' n i next') := by
  induction n generalizing i next next' with
  | zero => exact hnext [] [] .nil
  | succ n ih =>
    have henv : Environment.Alike L (Bindings.ofList [("i", .int (Int64.ofNat i))])
        (Bindings.ofList [("i", .int (Int64.ofNat i))]) := .ofList (.cons (.mk "i" (.int _)) .nil)
    exact forceThen hx (.layered henv) fun v v' hv =>
      ih (i + 1) fun vs vs' hvs => hnext _ _ (.cons hv hvs)

theorem lineBindings_alike (line : String) :
    Environment.Alike L (lineBindings line) (lineBindings line) := by
  refine .ofList (.cons (.mk _ (.string _)) (List.forall₂_same.mpr fun e he => ?_))
  obtain ⟨word, -, rfl⟩ := List.mem_map.mp he
  exact .mk _ (.string _)

theorem quoted_alike (hx : x.Alike L x') {next next' : Operand → Action κ}
    (hnext : ∀ y y', y.Alike L y' → (next y).Alike L (next' y')) :
    (quoted x next).Alike L (quoted x' next') := by
  refine value hx fun v v' hv => ?_
  cases hv with
  | userData i h =>
    cases h with
    | operand hy => exact hnext _ _ hy
    | _ => exact failWith _
  | _ => exact failWith _

theorem found_alike {v v' : Option (Value κ)} (hv : Option.Rel (Value.Alike L) v v') :
    (found v).Alike L (found v') := by
  cases hv with
  | none => exact .done .nil
  | some hv => exact .done hv

theorem foundOutside_alike {v v' : Option (Option (Value κ))}
    (hv : Option.Rel (Option.Rel (Value.Alike L)) v v') :
    (foundOutside v).Alike L (foundOutside v') := by
  cases hv with
  | none => exact failWith _
  | some hv => exact found_alike hv

theorem checkPattern_alike (hx : x.Alike L x') (hy : y.Alike L y') :
    (checkPattern x y : Action κ).Alike L (checkPattern x' y') := by
  refine text hx fun p => ?_
  rw [Arity.ofPattern]
  cases Arity.ofPattern? p with
  | none => exact .fail (.badPattern p)
  | some a =>
    refine value hy fun v v' hv => require hv.toUInt ?_
    rintro k _ rfl
    split
    · exact .fail (.arity _)
    · exact .done (.string _)

theorem getKey_alike (hx : x.Alike L x') (hy : y.Alike L y') :
    (getKey x y : Action κ).Alike L (getKey x' y') := by
  refine text hy fun k => value hx fun v v' hv => ?_
  have hselect := hv.select k
  generalize v.select k = found at hselect
  generalize v'.select k = found' at hselect
  cases hselect with
  | ok hu => exact .done hu
  | @error e _ he =>
    subst he
    cases e with
    | notIndexable => exact failWith _
    | notFound => exact failWith _

theorem withHelp_alike (help : String) {e e' : Error} (h : e.Alike L e') :
    (e.withHelp help).Alike L (e'.withHelp help) := by
  cases h with
  | rejected rule h =>
    obtain ⟨hmoves, span, _⟩ := h
    exact .rejected rule (.mk hmoves span _)
  | unbound id h =>
    obtain ⟨hmoves, span, _⟩ := h
    exact .unbound id (.mk hmoves span _)
  | failed problem h =>
    obtain ⟨hmoves, span, _⟩ := h
    exact .failed problem (.mk hmoves span _)
  | arity mismatch => exact .arity mismatch
  | raised message causes => exact .raised message causes
  | noValue id => exact .noValue id
  | badPattern pattern => exact .badPattern pattern

theorem mapFailure_alike {f : Error → Error} (hf : ∀ e e', e.Alike L e' → (f e).Alike L (f e'))
    (hx : x.Alike L x') : (mapFailure f x : Action κ).Alike L (mapFailure f x') :=
  .force hx .own fun _ _ hr => ofReply (hr.mapError hf)

theorem emitAll_alike {L : Likeness Builtin} (count : Nat)
    (hxs : List.Forall₂ (Operand.Alike L) xs xs') :
    (emitAll count xs).Alike L (emitAll count xs') := by
  induction hxs with
  | nil => exact .done (.int _)
  | cons hx _ ih =>
    refine value hx fun v v' hv => withData ?_
    rw [hv.render_eq]
    exact .emit _ ih

end Library

/-- Whether a procedure looks neither at texts or spans of its operands nor at places of errors. -/
def Builtin.ignoresPlaces : Builtin → Bool
  | inspect => false
  | nest => false
  | attempt => false
  | _ => true

namespace Library

open Action.Alike

variable {L : Likeness Builtin} {x x' : Operand} {xs xs' : List Operand} {call call' : Call Builtin}

theorem makeClosure_alike (hL : ∀ code, code.ignoresPlaces = true → L.Allows code)
    (hxs : List.Forall₂ (Operand.Alike L) xs xs') : (makeClosure xs).Alike L (makeClosure xs') := by
  have hlast : Option.Rel (Operand.Alike L) xs.getLast? xs'.getLast? := by
    rw [List.getLast?_eq_getElem?, List.getLast?_eq_getElem?, hxs.length_eq]
    exact forall₂_getElem? hxs _
  have hinit : List.Forall₂ (Operand.Alike L) xs.dropLast xs'.dropLast := by
    rw [List.dropLast_eq_take, List.dropLast_eq_take, hxs.length_eq]
    exact List.forall₂_take _ hxs
  unfold makeClosure
  generalize xs.getLast? = last at hlast
  generalize xs'.getLast? = last' at hlast
  cases hlast with
  | none => exact failWith _
  | some hbody =>
    refine texts hinit fun parameters => .fresh fun i => .done (.procedure (.mk i ?_ ?_))
    · exact hL _ rfl
    · exact .cons hbody .nil

theorem callClosure_alike (parameters : List String)
    (hcaptured : List.Forall₂ (Operand.Alike L) xs xs') (hcall : call.Alike L call') :
    (callClosure parameters xs call).Alike L (callClosure parameters xs' call') := by
  refine Behaviour.guard_alike _ hcall ?_
  cases hcaptured with
  | nil => exact .done .nil
  | cons hbody _ =>
    refine values hcall.operands fun vs vs' hvs => tail hbody (.layered (.ofList ?_))
    induction hvs generalizing parameters with
    | nil => rw [List.zip_nil_right]; exact .nil
    | cons hv _ ih =>
      cases parameters with
      | nil => exact .nil
      | cons p parameters => exact .cons (.mk p hv) (ih parameters)

theorem plain_alike (hL : ∀ code, code.ignoresPlaces = true → L.Allows code)
    (hcaptured : List.Forall₂ (Operand.Alike L) xs xs') (hcall : call.Alike L call')
    {code : Builtin} (hcode : code.ignoresPlaces = true) :
    (plain xs code call).Alike L (plain xs' code call') := by
  cases code <;> rw [plain, plain]
  case itself => exact Behaviour.unary_alike hcall fun x x' hx => tail hx .own
  case plus => exact addFrom_alike 0 0 hcall.operands
  case define =>
    exact Behaviour.ternary_alike hcall fun _ _ _ _ _ _ hx hy hz => defineIn_alike hx hy hz
  case block => exact inSequence_alike .nil hcall.operands
  case array => exact values hcall.operands fun vs vs' hvs => userData (.list hvs)
  case record kind => exact makeRecord_alike kind hcall.operands
  case choose =>
    exact Behaviour.ternary_alike hcall fun _ _ _ _ _ _ hx hy hz => chooseBy_alike hx hy hz
  case equal =>
    refine Behaviour.binary_alike hcall fun x x' y y' hx hy =>
      value hx fun v v' hv => value hy fun u u' hu => ?_
    rw [hv.equals_eq hu]
    exact .done (.bool _)
  case options => exact userData (.record .ordered hcall.options)
  case set =>
    exact Behaviour.binary_alike hcall fun x x' y y' hx hy =>
      text hx fun name => value hy fun v v' hv => .define name hv (.done hv)
  case layer => exact Behaviour.unary_alike hcall fun x x' hx => tail hx (.layered hcall.options)
  case derive =>
    exact Behaviour.unary_alike hcall fun x x' hx =>
      .derive hcall.options fun s => tail hx (.scope s)
  case withDerived =>
    exact Behaviour.unary_alike hcall fun x x' hx =>
      .withDerived hcall.options (fun s => tail hx (.scope s)) fun s r r' hr => ofReply hr
  case stale =>
    exact Behaviour.unary_alike hcall fun x x' hx =>
      .withDerived hcall.options (fun s => .done .nil) fun s r r' _ => tail hx (.scope s)
  case scopes => exact Behaviour.nullary_alike hcall (.scopeCount fun n => .done (.uint _))
  case maxDepth => exact Behaviour.nullary_alike hcall (.maxDepth fun n => .done (.uint _))
  case lookup =>
    exact Behaviour.unary_alike hcall fun x x' hx =>
      text hx fun id => .lookup id fun v v' hv => found_alike hv
  case lookupLocal =>
    exact Behaviour.unary_alike hcall fun x x' hx =>
      text hx fun id => .lookupLocal id fun v v' hv => found_alike hv
  case lookupOuter =>
    exact Behaviour.unary_alike hcall fun x x' hx =>
      text hx fun id => .lookupOuter id fun v v' hv => foundOutside_alike hv
  case quote => exact Behaviour.unary_alike hcall fun x x' hx => userData (.operand hx)
  case force =>
    exact Behaviour.unary_alike hcall fun x x' hx => quoted_alike hx fun y y' hy => tail hy .own
  case forceWith =>
    exact Behaviour.unary_alike hcall fun x x' hx =>
      quoted_alike hx fun y y' hy => tail hy (.layered hcall.options)
  case sameScope =>
    refine Behaviour.binary_alike hcall fun x x' y y' hx hy =>
      quoted_alike hx fun p p' hp => quoted_alike hy fun q q' hq => ?_
    cases hp
    cases hq
    exact .done (.bool _)
  -- What shows the text or the place of an operand is ruled out by `hcode`.
  case inspect => cases hcode
  case capture =>
    exact Behaviour.binary_alike hcall fun x x' y y' hx hy =>
      text hx fun n => withData (.capture n hy (.done .nil))
  case lambda => exact makeClosure_alike hL hcall.operands
  case closure parameters => exact callClosure_alike parameters hcaptured hcall
  case call => exact Behaviour.guard_alike _ hcall (.done .nil)
  case iterate =>
    refine Behaviour.binary_alike hcall fun x x' y y' hx hy =>
      value hx fun v v' hv => require hv.toInt ?_
    rintro k _ rfl
    exact iterateTimes_alike hy _ .nil
  case loop =>
    refine Behaviour.binary_alike hcall fun x x' y y' hx hy =>
      value hx fun v v' hv => require hv.toInt ?_
    rintro k _ rfl
    exact countingFrom_alike hy _ 0 fun vs vs' hvs => userData (.list hvs)
  case eachLine =>
    refine Behaviour.binary_alike hcall fun x x' y y' hx hy => text hx fun lines => ?_
    refine inEach_alike hy (List.forall₂_same.mpr fun env henv => ?_) fun vs vs' hvs =>
      userData (.list hvs)
    obtain ⟨line, -, rfl⟩ := List.mem_map.mp henv
    exact lineBindings_alike line
  case tick =>
    exact Behaviour.nullary_alike hcall (withData (.tick fun n => .done (.uint _)))
  case emit =>
    simp only [Behaviour.variadic, hcall.operands.length_eq]
    exact emitAll_alike _ hcall.operands
  case failure => exact Behaviour.unary_alike hcall fun x x' hx => text hx fun m => failWith m
  case failureWithHelp =>
    exact Behaviour.binary_alike hcall fun x x' y y' hx hy =>
      text hx fun m => text hy fun h => .fail (.raised m [])
  case wrap => exact Behaviour.unary_alike hcall fun x x' hx => text hx fun m => .fail (.raised m [m])
  case nest => cases hcode
  case help =>
    exact Behaviour.binary_alike hcall fun x x' y y' hx hy =>
      text hx fun h => mapFailure_alike (fun e e' he => withHelp_alike h he) hy
  case attempt => cases hcode
  case emptyBinding =>
    exact Behaviour.unary_alike hcall fun x x' hx => text hx fun id => .fail (.noValue id)
  case checkArity =>
    exact Behaviour.binary_alike hcall fun _ _ _ _ hx hy => checkPattern_alike hx hy
  case count arity =>
    refine Behaviour.guard_alike _ hcall ?_
    rw [hcall.operands.length_eq]
    exact .done (.uint _)
  case convert type =>
    exact Behaviour.unary_alike hcall fun x x' hx =>
      value hx fun v v' hv => require (hv.ofType type) fun u u' hu => .done hu
  case typeName =>
    refine Behaviour.unary_alike hcall fun x x' hx => value hx fun v v' hv => ?_
    rw [hv.type_eq]
    exact .done (.string _)
  case render =>
    refine Behaviour.unary_alike hcall fun x x' hx => value hx fun v v' hv => ?_
    rw [hv.render_eq]
    exact .done (.string _)
  case get => exact Behaviour.binary_alike hcall fun _ _ _ _ hx hy => getKey_alike hx hy

theorem invoke_alike (hL : ∀ code, L.Allows code ↔ code.ignoresPlaces = true)
    {options options' : Environment Builtin} (hoptions : options.Alike L options')
    (hxs : List.Forall₂ (Operand.Alike L) xs xs') {p p' : Procedure Builtin} (hp : p.Alike L p') :
    (invoke options xs p).Alike L (invoke options' xs' p') := by
  have hplain : ∀ {xs xs' : List Operand} {p p' : Procedure Builtin},
      List.Forall₂ (Operand.Alike L) xs xs' → p.Alike L p' →
      (plain p.captured p.code ⟨xs, options⟩).Alike L
        (plain p'.captured p'.code ⟨xs', options'⟩) := by
    intro xs xs' p p' hxs hp
    obtain ⟨identity, hcode, hcaptured⟩ := hp
    exact plain_alike (fun code => (hL code).mpr) hcaptured ⟨hxs, hoptions⟩ ((hL _).mp hcode)
  induction hxs generalizing p p' with
  | nil => exact hplain .nil hp
  | cons hx hxs ih =>
    have hcons := hplain (.cons hx hxs) hp
    cases hp with
    | @mk identity code =>
      rw [invoke, invoke]
      cases code with
      | call => exact value hx fun v v' hv => require hv.toProcedure fun q q' hq => ih hq
      | _ => exact hcons

/-- The procedures of the library ignore places, but for those that put places into words. -/
theorem host_ignoresPlaces : host.IgnoresPlaces fun code => code.ignoresPlaces = true := by
  intro moves p p' call call' hp hcall
  exact invoke_alike (fun code => Iff.rfl) hcall.options hcall.operands hp

end Library

end Fexpr
