import Fexpr.Library.Host
import Fexpr.Proofs.Eval.Lexical
import Fexpr.Proofs.Form.Marks
import Fexpr.Proofs.Scope.WellFormed

/-!
# Paths

A path is a name and one or more steps, each of them a dot and a key, with gaps behind the name and
the keys (`Tree.WritesPath`). It is evaluated by looking the name up and selecting the keys one
after the other (`Form.PathReply`): an unbound name is an error at the name, and the first key that
cannot be selected is an error at its step. There are two causes of the latter: the value has no
keys at all, or it lacks this one.
-/

namespace Fexpr

open Text (Span byteSize)
open Grammar

variable {κ : Type}

/-! ## How paths are written -/

namespace Tree

/-- The node covers the text and the gap behind it, and its trimmed span covers the text alone. -/
def Covers (cs : List Char) (v : Tree) (text : List Char) : Prop :=
  ∃ pre gap post, cs = pre ++ (text ++ (gap ++ post)) ∧ GapBefore post gap ∧
    v.span = ⟨byteSize pre, byteSize (pre ++ (text ++ gap))⟩ ∧
    v.trimmedSpan cs = ⟨byteSize pre, byteSize (pre ++ text)⟩

/-- The nodes are those of the steps, each of them a dot and a key. They cover what is between the
two offsets, one after the other. -/
inductive WritesSteps (cs : List Char) : Nat → List Tree → List Form.Attribute → Nat → Prop
  | nil (n : Nat) : WritesSteps cs n [] [] n
  | cons {l m n : Nat} {v : Tree} {vs : List Tree} {a : Form.Attribute} {as : List Form.Attribute}
    (hrule : v.rule = .attr) (hspan : v.span = ⟨l, m⟩) (hkey : isWord a.key.toList = true)
    (hcovers : v.Covers cs ('.' :: a.key.toList)) (ha : a.span = v.trimmedSpan cs)
    (h : WritesSteps cs m vs as n) : WritesSteps cs l (v :: vs) (a :: as) n

/-- The children of the node are those of a name and of one or more steps. They cover all of the
node, one after the other. -/
structure WritesPath (cs : List Char) (u : Tree) (base : Form.Name)
    (attributes : List Form.Attribute) : Prop where
  parts : ∃ v vs, u.children = v :: vs ∧ v.rule = .identifier ∧ v.span.start = u.span.start ∧
    isWord base.text.toList = true ∧ v.Covers cs base.text.toList ∧
    base.span = v.trimmedSpan cs ∧ WritesSteps cs v.span.stop vs attributes u.span.stop
  ne_nil : attributes ≠ []

end Tree

namespace Grammar

variable {cs w : List Char} {i j k : Cursor}

theorem covers_of_across {v : Tree} {text : List Char} (hi : i.IsIn cs) (hij : i.Across text j)
    (hgap : Spaced j k) (hspan : v.span = ⟨i.offset, k.offset⟩)
    (htrimmed : v.trimmedSpan cs = ⟨i.offset, j.offset⟩) : v.Covers cs text := by
  obtain ⟨pre, hcs, hoffset⟩ := hi
  obtain ⟨gap, hjk, hbefore⟩ := hgap
  have hj : j.offset = byteSize (pre ++ text) := by rw [hij.2, hoffset, Text.byteSize_append]
  have hk : k.offset = byteSize (pre ++ (text ++ gap)) := by
    rw [hjk.2, hj, ← Text.byteSize_append, List.append_assoc]
  refine ⟨pre, gap, k.rest, ?_, hbefore, ?_, ?_⟩
  · rw [hcs, hij.1, hjk.1]
  · rw [hspan, hoffset, hk]
  · rw [htrimmed, hoffset, hj]

/-- The node of a step covers the dot and the key. -/
theorem exists_writesStep {l : Cursor} (hi : i.IsIn cs) (hdot : i.Across ['.'] j)
    (hname : NameAt w j k l) :
    ∃ v, Tree.prunes [nodeAt .attr i l [nameNode j k l]] = [v] ∧ v.rule = .attr ∧
      v.span = ⟨i.offset, l.offset⟩ ∧ v.trimmedSpan cs = ⟨i.offset, k.offset⟩ ∧
      v.Covers cs ('.' :: w) := by
  obtain ⟨-, v, hv, -, hrule, -, hread⟩ := attribute_reads hi hdot hname
  have hlt := hdot.offset_lt (List.cons_ne_nil _ _)
  have hlt' := hname.offset_lt
  have hle := hname.spaced.offset_le
  have hspan : v.span = ⟨i.offset, l.offset⟩ := by
    rw [prunes_nodeAt (by omega)] at hv
    rw [← (List.cons.inj hv).1]
    rfl
  have htrimmed := (span_of_attributeOf hread).symm
  exact ⟨v, hv, hrule, hspan, htrimmed,
    covers_of_across hi (hdot.trans hname.across) hname.spaced hspan htrimmed⟩

theorem AttributesAt.writesSteps {ts : List Tree} {as : List Form.Attribute}
    (h : AttributesAt i j k ts as) (hi : i.IsIn cs) :
    Tree.WritesSteps cs i.offset (Tree.prunes ts) as k.offset ∧ as ≠ [] := by
  -- Whatever the steps behind it, a step is written in front of them.
  have hstep : ∀ {i j k l : Cursor} {w : List Char} {ts : List Tree} {as : List Form.Attribute}
      {n : Nat}, i.IsIn cs → i.Across ['.'] j → NameAt w j k l →
      Tree.WritesSteps cs l.offset (Tree.prunes ts) as n →
      Tree.WritesSteps cs i.offset (Tree.prunes (nodeAt .attr i l [nameNode j k l] :: ts))
        (⟨String.ofList w, ⟨i.offset, k.offset⟩⟩ :: as) n := by
    intro i j k l w ts as n hi hdot hname hrest
    obtain ⟨v, hv, hrule, hspan, htrimmed, hcovers⟩ := exists_writesStep hi hdot hname
    rw [prunes_cons, hv, List.singleton_append]
    have hword : (String.ofList w).toList = w := String.toList_ofList
    exact .cons hrule hspan (hword.symm ▸ hname.word) (hword.symm ▸ hcovers) htrimmed.symm hrest
  induction h with
  | last hdot hname _ =>
    refine ⟨hstep hi hdot hname ?_, List.cons_ne_nil _ _⟩
    rw [Tree.prunes_nil]
    exact .nil _
  | more hdot hname _ ih =>
    obtain ⟨hrest, -⟩ := ih (hname.isIn (hi.across hdot))
    exact ⟨hstep hi hdot hname hrest, List.cons_ne_nil _ _⟩

/-- What the rule of paths matches is a path. -/
theorem exists_writesPath {mayOpen : Nat → Prop} {n : Nat} {m : Cursor} {ts : List Tree}
    {source : Source} (hi : i.IsIn source.chars)
    (h : Derives mayOpen n (.of .identifierAttr) i (.success m ts)) :
    ∃ u base attributes, u = nodeAt .identifierAttr i m (Tree.prunes ts) ∧
      u.WritesPath source.chars base attributes ∧
      Form.IsAt source u (.atom (.path base attributes (u.trimmedSpan source.chars))) := by
  cases h with
  | @seq _ _ _ _ k _ _ us hbase hattrs =>
    obtain ⟨w, j, hname, rfl⟩ := nameAt_of_derives hbase
    obtain ⟨l, as, has⟩ := attributesAt_of_derives hattrs
    obtain ⟨-, u, rfl, -, hspan, hread⟩ := path_reads hi hname has
    obtain ⟨hsteps, hne⟩ := has.writesSteps (hname.isIn hi)
    have hchildren : Tree.prunes ([nameNode i j k] ++ us) =
        nodeAt .identifier i k (Tree.prunes [gapNode j k]) :: Tree.prunes us := by
      rw [Tree.prunes_append, hname.prunes, List.singleton_append]
    have hword : (String.ofList w).toList = w := String.toList_ofList
    refine ⟨_, nameForm w i j, as, congrArg (nodeAt .identifierAttr i m) hchildren.symm,
      ⟨⟨_, _, rfl, rfl, rfl, ?_, ?_, (hname.trimmedSpan hi).symm, hsteps⟩, hne⟩, ?_, rfl, rfl⟩
    · exact hword.symm ▸ hname.word
    · exact hword.symm ▸
        covers_of_across hi hname.across hname.spaced rfl (hname.trimmedSpan hi)
    · rw [← hspan] at hread
      rw [Form.ofTree_eq_atomOf (.inr (.inl rfl)), hread]
      rfl

end Grammar

/-- In the tree of an accepted text the nodes of paths are those of paths. -/
theorem Program.exists_writesPath {source : Source} {p : Program}
    (hp : Program.compile source = .ok p) :
    ∃ root, p.tree? = some root ∧ ∀ u ∈ root.nodes, u.rule = .identifierAttr →
      ∃ base attributes, u.WritesPath source.chars base attributes ∧
        Form.IsAt source u (.atom (.path base attributes (u.trimmedSpan source.chars))) := by
  obtain ⟨i, j, t, f, hscript, rfl⟩ := Program.exists_scriptAt_of_compile hp
  obtain ⟨root, -, -, -, hroot, -⟩ := hscript.reads
  refine ⟨root, by rw [Program.tree?, hroot]; rfl, ?_⟩
  refine hscript.forall_nodes hroot fun {n r k l ts} hk hr _ hrule => ?_
  obtain rfl : r = .identifierAttr := hrule
  obtain ⟨u, base, attributes, rfl, hwrites, hat⟩ := Grammar.exists_writesPath hk hr
  exact ⟨base, attributes, hwrites, hat⟩

/-! ## How paths are evaluated -/

namespace Value

/-- The value is user data that has keys. -/
def IsSelectable (v : Value κ) : Prop :=
  ∃ i content, v = .userData i content ∧ content.isSelectable = true

/-- The keys lead from one value to the other, each selected from what the one before led to. -/
inductive Selects : Value κ → List String → Value κ → Prop
  | nil (v : Value κ) : Selects v [] v
  | cons {u v w : Value κ} {key : String} {keys : List String} (h : u.select key = .ok v)
    (hs : Selects v keys w) : Selects u (key :: keys) w

/-- A key is selected, or the value lacks it, or it has no keys at all. -/
theorem select_cases (key : String) (v : Value κ) :
    (∃ w, v.select key = .ok w) ∨ (v.select key = .error .notFound ∧ v.IsSelectable) ∨
      (v.select key = .error .notIndexable ∧ ¬ v.IsSelectable) := by
  unfold select
  split
  next i kind fields =>
    split
    · exact .inl ⟨_, rfl⟩
    · exact .inr (.inl ⟨rfl, i, _, rfl, rfl⟩)
  next i name parts selector =>
    split
    · exact .inl ⟨_, rfl⟩
    · exact .inr (.inl ⟨rfl, i, _, rfl, rfl⟩)
  next hrecord hobject =>
    refine .inr (.inr ⟨rfl, ?_⟩)
    rintro ⟨i, content, rfl, hcontent⟩
    cases content with
    | record kind fields => exact hrecord i kind fields rfl
    | object name parts selector =>
      obtain ⟨selector, rfl⟩ := Option.isSome_iff_exists.mp hcontent
      exact hobject i name parts selector rfl
    | list | operand | byte => cases hcontent

theorem select_eq_notIndexable {key : String} {v : Value κ} (h : ¬ v.IsSelectable) :
    v.select key = .error .notIndexable := by
  rcases v.select_cases key with ⟨w, hw⟩ | ⟨-, hv⟩ | ⟨herror, -⟩
  · unfold select at hw
    split at hw
    · exact absurd ⟨_, _, rfl, rfl⟩ h
    · exact absurd ⟨_, _, rfl, rfl⟩ h
    · cases hw
  · exact absurd hv h
  · exact herror

theorem select_eq_notFound {key : String} {v : Value κ} (h : v.IsSelectable)
    (hkey : ∀ w, v.select key ≠ .ok w) : v.select key = .error .notFound := by
  rcases v.select_cases key with ⟨w, hw⟩ | ⟨herror, -⟩ | ⟨-, hv⟩
  · exact absurd hw (hkey w)
  · exact herror
  · exact absurd h hv

end Value

namespace Form

variable {source : Source}

/-- What comes out of following the steps from a value: the value that all keys lead to, or an error
at the first step whose key cannot be selected. It names the key and the type of the value that the
keys before it led to. -/
inductive Follows (source : Source) (v₀ : Value κ) (attributes : List Attribute) : Reply κ → Prop
  | selected {v : Value κ} (h : v₀.Selects (attributes.map Attribute.key) v) :
    Follows source v₀ attributes (.ok v)
  /-- The value has no keys. -/
  | notIndexable {v : Value κ} {before after : List Attribute} {a : Attribute}
    (hsplit : attributes = before ++ a :: after) (h : v₀.Selects (before.map Attribute.key) v)
    (hv : ¬ v.IsSelectable) :
    Follows source v₀ attributes
      (.error (.failed (.notIndexable a.key v.type) ⟨source, a.span, none⟩))
  /-- The value has keys and lacks this one. -/
  | notFound {v : Value κ} {before after : List Attribute} {a : Attribute}
    (hsplit : attributes = before ++ a :: after) (h : v₀.Selects (before.map Attribute.key) v)
    (hv : v.IsSelectable) (hkey : ∀ w, v.select a.key ≠ .ok w) :
    Follows source v₀ attributes
      (.error (.failed (.notFound a.key v.type) ⟨source, a.span, none⟩))

/-- What comes out of evaluating a path where the environments are seen, the innermost first. -/
inductive PathReply (source : Source) (envs : List (Environment κ)) (base : Name)
    (attributes : List Attribute) : Reply κ → Prop
  | unbound (h : ∀ env ∈ envs, env.find? base.text = none) :
    PathReply source envs base attributes (.error (.unbound base.text ⟨source, base.span, none⟩))
  /-- The steps are followed from the innermost binding of the name. -/
  | bound {inner outer : List (Environment κ)} {env : Environment κ} {v₀ : Value κ} {r : Reply κ}
    (henvs : envs = inner ++ env :: outer) (hinner : ∀ env ∈ inner, env.find? base.text = none)
    (hv₀ : env.find? base.text = some v₀) (h : Follows source v₀ attributes r) :
    PathReply source envs base attributes r

/-- Keys that can be selected are passed over. -/
theorem follow_append {before : List Attribute} {v₀ v : Value κ}
    (h : v₀.Selects (before.map Attribute.key) v) (rest : List Attribute) :
    follow source (before ++ rest) v₀ = follow source rest v := by
  induction before generalizing v₀ with
  | nil =>
    cases h
    rfl
  | cons a before ih =>
    cases h with
    | cons hselect hs =>
      rw [List.cons_append, follow, hselect]
      exact ih hs

theorem Follows.follow_eq {attributes : List Attribute} {v₀ : Value κ} {r : Reply κ}
    (h : Follows source v₀ attributes r) : follow source attributes v₀ = r := by
  cases h with
  | selected h =>
    have hfollow : follow source (attributes ++ []) v₀ = _ := follow_append h []
    rw [List.append_nil] at hfollow
    exact hfollow
  | notIndexable hsplit h hv =>
    rw [hsplit, follow_append h, follow, Value.select_eq_notIndexable hv]
  | notFound hsplit h hv hkey =>
    rw [hsplit, follow_append h, follow, Value.select_eq_notFound hv hkey]

theorem follows_follow (attributes : List Attribute) (v₀ : Value κ) :
    Follows source v₀ attributes (follow source attributes v₀) := by
  induction attributes generalizing v₀ with
  | nil => exact .selected (.nil v₀)
  | cons a attributes ih =>
    rw [follow]
    rcases v₀.select_cases a.key with ⟨w, hw⟩ | ⟨herror, hv⟩ | ⟨herror, hv⟩
    · rw [hw]
      dsimp only
      -- What is wrong with a later step is the first thing that is wrong.
      have hrest := ih w
      generalize follow source attributes w = r at hrest
      cases hrest with
      | selected h => exact .selected (.cons hw h)
      | @notIndexable _ before after b hsplit h hv =>
        have hsplit : a :: attributes = (a :: before) ++ b :: after := by rw [hsplit]; rfl
        exact .notIndexable hsplit (.cons hw h) hv
      | @notFound _ before after b hsplit h hv hkey =>
        have hsplit : a :: attributes = (a :: before) ++ b :: after := by rw [hsplit]; rfl
        exact .notFound hsplit (.cons hw h) hv hkey
    · rw [herror]
      refine .notFound (List.nil_append _).symm (.nil v₀) hv fun w hw => ?_
      cases herror.symm.trans hw
    · rw [herror]
      exact .notIndexable (List.nil_append _).symm (.nil v₀) hv

/-- The value of a path is what comes out of it, and nothing else is. -/
theorem atomValue_path_iff {envs : List (Environment κ)} {base : Name}
    {attributes : List Attribute} {span : Span} {r : Reply κ} :
    Lexical.atomValue source envs (.path base attributes span) = r ↔
      PathReply source envs base attributes r := by
  rw [Lexical.atomValue, Lexical.nameValue]
  constructor
  · rintro rfl
    cases hfind : envs.findSome? (·.find? base.text) with
    | none => exact .unbound (List.findSome?_eq_none_iff.mp hfind)
    | some v₀ =>
      obtain ⟨inner, env, outer, henvs, hv₀, hinner⟩ := List.findSome?_eq_some_iff.mp hfind
      exact .bound henvs hinner hv₀ (follows_follow attributes v₀)
  · intro h
    cases h with
    | unbound h =>
      rw [List.findSome?_eq_none_iff.mpr h]
      rfl
    | bound henvs hinner hv₀ h =>
      rw [List.findSome?_eq_some_iff.mpr ⟨_, _, _, henvs, hv₀, hinner⟩]
      exact h.follow_eq

end Form

/-- A path with gaps behind its names, one of them with a comment. -/
def Source.gappyPath : Source := ⟨"script", "a .k ; c\n.x"⟩

/-- A world where the name is bound to a record, in which the first key has a number. -/
def World.recordBound : World Builtin :=
  ⟨Context.new 0 (Bindings.ofList [("a", .userData 0 (.record .ordered [("k", .int 1)]))]) 8
    .absent, .fresh, 1⟩

theorem World.recordBound_wellFormed : World.recordBound.context.arena.WellFormed :=
  .ofRoot _

/-- The base, and the keys and spans of the steps, if the form is a path. -/
def Form.pathParts? : Form → Option ((String × Span) × List (String × Span))
  | .atom (.path base attributes _) =>
    some ((base.text, base.span), attributes.map fun a => (a.key, a.span))
  | _ => none

end Fexpr
