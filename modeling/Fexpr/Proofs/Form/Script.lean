import Fexpr.Program
import Fexpr.Proofs.Form.Written

/-!
# Scripts and programs

A text compiles if it is a gap, a value and nothing else (`ScriptAt`). Its program then has one tree,
that of the value without empty nodes, and the form that the value stands for.
-/

namespace Fexpr

open Text (Span byteSize)
open Grammar

/-- The tree is that of the value of a script: the first significant child of the value that is the
first significant child of the script. -/
def Tree.IsContentOf (u root : Tree) : Prop :=
  ∃ v, root.firstSignificant? = some v ∧ v.rule = .value ∧ v.firstSignificant? = some u

theorem Form.ofTree_eq_of_isContentOf {cs : List Char} {u : Tree} {s : Span} {children : List Tree}
    (h : u.IsContentOf (.node .script s children)) : ofTree cs (.node .script s children) =
      ofTree cs u := by
  have hfirst : ∀ {r ts c}, ts.find? (·.rule != .spacing) = some c →
      ofFirst cs r ts = ofTree cs c := by
    intro r ts c hc
    induction ts with
    | nil => cases hc
    | cons t ts ih =>
      by_cases ht : t.rule = .spacing
      · rw [ofFirst_spacing r ht]
        exact ih (by rwa [List.find?_cons_of_neg (by simp [ht])] at hc)
      · rw [List.find?_cons_of_pos (by simpa using ht)] at hc
        rw [ofFirst_eq_ofTree r ht, Option.some.inj hc]
  obtain ⟨⟨r, s', children'⟩, hv, hrule, hu⟩ := h
  obtain rfl : r = .value := hrule
  calc ofTree cs (.node .script s children)
      = ofFirst cs .script children := by rw [ofTree]
    _ = ofTree cs (.node .value s' children') := hfirst hv
    _ = ofFirst cs .value children' := by rw [ofTree]
    _ = ofTree cs u := hfirst hu

namespace Grammar

/-- A script: a gap up to `i`, and a value from there to the end `j` of the text. -/
structure ScriptAt (cs : List Char) (i j : Cursor) (t : Tree) (f : Form) : Prop where
  lead : Spaced ⟨cs, 0⟩ i
  value : Written (· < maxNesting) 0 .value i j [t] [.operand f]
  rest : j.rest = []

/-- The tree of a script, empty nodes included. -/
def scriptNode (cs : List Char) (i : Cursor) (t : Tree) : Tree :=
  .node .script ⟨0, byteSize cs⟩
    [gapNode ⟨cs, 0⟩ i, t, .node .eot ⟨byteSize cs, byteSize cs⟩ []]

section Script

variable {cs : List Char} {i j : Cursor} {t : Tree} {f : Form}

theorem ScriptAt.isIn (h : ScriptAt cs i j t f) : i.IsIn cs := h.lead.isIn ⟨[], rfl, rfl⟩

theorem ScriptAt.stop_eq (h : ScriptAt cs i j t f) : j = ⟨[], byteSize cs⟩ := by
  obtain ⟨pre, hcs, hoffset⟩ := h.value.isIn h.isIn
  obtain ⟨rest, offset⟩ := j
  obtain rfl : rest = [] := h.rest
  rw [List.append_nil] at hcs
  rw [hcs]
  exact congrArg _ hoffset

theorem ScriptAt.derives (h : ScriptAt cs i j t f) :
    DerivesScript cs (.success ⟨[], byteSize cs⟩ [scriptNode cs i t]) := by
  have hj := h.stop_eq
  subst hj
  refine .rule (fun h => nomatch h) (.seq (.seq (h.lead.lexes _ _) h.value.derives) ?_)
  exact .rule (fun h => nomatch h) (.not .charEnd)

theorem scriptAt_of_derives {ts : List Tree} (h : DerivesScript cs (.success j ts)) :
    ∃ i t f, ScriptAt cs i j t f ∧ ts = [scriptNode cs i t] := by
  have hj := h.stop_of_script
  subst hj
  cases h with
  | rule _ hr =>
  cases hr with
  | seq hr heot =>
  cases hr with
  | seq hspacing hvalue =>
    obtain ⟨hlead, rfl⟩ := spaced_of_derives hspacing
    obtain ⟨f, hf⟩ := written_of_derives hlead.clear hvalue
    obtain ⟨t, k, u, rfl, -⟩ := hf.reads (hlead.isIn ⟨[], rfl, rfl⟩)
    cases heot with
    | rule _ hend =>
    cases hend with
    | not _ => exact ⟨_, _, f, ⟨hlead, hf, rfl⟩, rfl⟩

/-- What holds of the nodes of matches in the text holds of the nodes of its tree. -/
theorem ScriptAt.forall_nodes {root : Tree} {P : Tree → Prop}
    (h : ScriptAt cs i j t f) (hroot : Tree.prunes [scriptNode cs i t] = [root])
    (hP : ∀ {n r k l ts}, k.IsIn cs → Derives (· < maxNesting) n (.of r) k (.success l ts) →
      k.offset ≠ l.offset → P (.node r ⟨k.offset, l.offset⟩ (Tree.prunes ts))) :
    ∀ u ∈ root.nodes, P u := by
  have hall := h.derives.forall_nodes (Q := Cursor.IsIn cs) (P := P)
    (fun i ds j hi hij => hi.across hij) (fun n r k l ts hk hr hkl => hP hk hr hkl) ⟨[], rfl, rfl⟩
  rw [hroot] at hall
  exact hall root (List.mem_singleton.mpr rfl)

/-- The log of a script. -/
theorem ScriptAt.matchScript (h : ScriptAt cs i j t f) :
    matchScript cs = .ok (Tree.logged [scriptNode cs i t]) := by
  cases hm : Grammar.matchScript cs with
  | error t => cases h.derives.unique (derivesScript_of_matchScript_error hm)
  | ok log =>
    obtain ⟨ts, hts, rfl⟩ := derivesScript_of_matchScript_ok hm
    cases h.derives.unique hts
    rfl

theorem exists_scriptAt {log : List Token} (h : Grammar.matchScript cs = .ok log) :
    ∃ i j t f, ScriptAt cs i j t f ∧ log = Tree.logged [scriptNode cs i t] := by
  obtain ⟨ts, hts, rfl⟩ := derivesScript_of_matchScript_ok h
  obtain ⟨i, t, f, hscript, rfl⟩ := scriptAt_of_derives hts
  exact ⟨i, _, t, f, hscript, rfl⟩

/-- The tree of a script has the form of its value. -/
theorem ScriptAt.reads (h : ScriptAt cs i j t f) :
    ∃ tree t' k u, Tree.prunes [scriptNode cs i t] = [tree] ∧ Form.ofTree cs tree = .ok f ∧
      t = nodeAt .value i j [t', gapNode k j] ∧ Tree.prunes [t'] = [u] ∧ u.IsContentOf tree ∧
      u.trimmedSpan cs = f.span ∧ Form.ofTree cs u = .ok f := by
  obtain ⟨t, k, u, ht, hprunes, hrule, hspan, hread⟩ := h.value.reads h.isIn
  cases ht
  have hlt := h.value.offset_lt
  have hsize : 0 ≠ byteSize cs := by
    rw [h.stop_eq] at hlt
    exact Nat.ne_of_lt (Nat.zero_lt_of_lt hlt)
  have hvalue : Tree.prunes [nodeAt .value i j [t, gapNode k j]] =
      [nodeAt .value i j (u :: Tree.prunes [gapNode k j])] := by
    rw [prunes_nodeAt (Nat.ne_of_lt hlt), prunes_cons, hprunes, List.singleton_append]
  have hcontent : u.IsContentOf (.node .script ⟨0, byteSize cs⟩ (Tree.prunes
      [gapNode ⟨cs, 0⟩ i, nodeAt .value i j [t, gapNode k j],
        .node .eot ⟨byteSize cs, byteSize cs⟩ []])) := by
    refine ⟨nodeAt .value i j (u :: Tree.prunes [gapNode k j]), ?_, rfl, ?_⟩
    · rw [prunes_cons, prunes_cons (nodeAt .value i j _), hvalue]
      rcases prunes_gapNode_cases ⟨cs, 0⟩ i with ⟨-, hgap⟩ | hgap <;> rw [hgap] <;> rfl
    · exact List.find?_cons_of_pos (by simpa using hrule)
  refine ⟨_, t, k, u, Tree.prunes_node hsize, ?_, rfl, hprunes, hcontent, hspan, hread⟩
  rw [Form.ofTree_eq_of_isContentOf hcontent, hread]

end Script

end Grammar

/-- The log of a script reduces to its tree. -/
theorem Grammar.ScriptAt.ofTokens {cs : List Char} {i j : Cursor} {t : Tree} {f : Form}
    (h : ScriptAt cs i j t f) :
    Forest.ofTokens (Tree.logged [scriptNode cs i t]) = Tree.prunes [scriptNode cs i t] := by
  obtain ⟨us, hd, hnested, hlog, -⟩ := exists_tree_of_matchScript h.matchScript
  have hnode : scriptNode cs i t = .node .script ⟨0, byteSize cs⟩ us := by
    cases h.derives.unique hd
    rfl
  have hlt : 0 < byteSize cs := hnested.start_lt_stop
  rw [hlog, Forest.ofTokens_postorder hnested, hnode, Tree.prunes_node (Nat.ne_of_lt hlt)]

namespace Program

variable {source : Source} {p : Program}

/-- The program of a script. -/
theorem compile_eq_ok {i j : Cursor} {t : Tree} {f : Form} (h : ScriptAt source.chars i j t f) :
    compile source = .ok ⟨source, Tree.prunes [scriptNode source.chars i t], .ok f⟩ := by
  obtain ⟨tree, -, -, -, hprunes, hread, -⟩ := h.reads
  have hmatch := h.matchScript
  have hforest := h.ofTokens
  rw [hprunes] at hforest ⊢
  unfold Program.compile
  dsimp only
  rw [hmatch]
  dsimp only
  rw [hforest]
  simp only [Forest.root?, List.head?_cons, hread]

/-- What compiles is a script. -/
theorem exists_scriptAt_of_compile (h : compile source = .ok p) :
    ∃ i j t f, ScriptAt source.chars i j t f ∧
      p = ⟨source, Tree.prunes [scriptNode source.chars i t], .ok f⟩ := by
  have hok : ∃ log, matchScript source.chars = .ok log := by
    unfold Program.compile at h
    dsimp only at h
    split at h
    · cases h
    next log hmatch => exact ⟨log, hmatch⟩
  obtain ⟨log, hmatch⟩ := hok
  obtain ⟨i, j, t, f, hscript, -⟩ := exists_scriptAt hmatch
  rw [compile_eq_ok hscript] at h
  exact ⟨i, j, t, f, hscript, (Except.ok.inj h).symm⟩

/-- What is read off the first node of a rule is read off a node of that rule in the tree. -/
theorem exists_node_of_find? {α : Type} {rule : Rule} {f : Tree → α} {a : α}
    (h : (((compile source).toOption.bind tree?).bind fun t =>
      t.nodes.find? (·.rule == rule)).map f = some a) :
    ∃ p root u, compile source = .ok p ∧ p.tree? = some root ∧ u ∈ root.nodes ∧ u.rule = rule ∧
      f u = a := by
  obtain ⟨u, hu, hf⟩ := Option.map_eq_some_iff.mp h
  obtain ⟨root, hroot, hu⟩ := Option.bind_eq_some_iff.mp hu
  obtain ⟨p, hp, hroot⟩ := Option.bind_eq_some_iff.mp hroot
  have hrule : u.rule = rule := by simpa using List.find?_some hu
  exact ⟨p, root, u, compile_eq_ok_of_toOption hp, hroot, List.mem_of_find?_eq_some hu, hrule, hf⟩

/-- A node of a literal comes from a match of its kind, and is read as what was matched. -/
theorem exists_match_of_literal (kind : Form.LiteralKind) (h : compile source = .ok p) :
    ∃ root, p.tree? = some root ∧ ∀ u ∈ root.nodes, u.rule = kind.rule →
      ∃ n k l ts,
        Derives (· < maxNesting) n (.rule kind.rule) k (.success l [nodeAt kind.rule k l ts]) ∧
        u = nodeAt kind.rule k l (Tree.prunes ts) ∧
        ∀ text, k.Across text l →
          Form.literalOf source.chars u = .ok ⟨kind, text, u.span⟩ := by
  obtain ⟨i, j, t, f, hscript, rfl⟩ := exists_scriptAt_of_compile h
  obtain ⟨root, -, -, -, hroot, -⟩ := hscript.reads
  refine ⟨root, by rw [Program.tree?, hroot]; rfl, ?_⟩
  refine hscript.forall_nodes hroot fun {n r k l ts} hk hr _ hrule => ?_
  obtain rfl : r = kind.rule := hrule
  have hshut : kind.rule ≠ .expression ∧ kind.rule.opened n = n := by
    cases kind <;> exact ⟨by decide, rfl⟩
  have hmatch : Derives (· < maxNesting) n (.rule kind.rule) k
      (.success l [nodeAt kind.rule k l ts]) := by
    refine .rule (fun hopen => absurd hopen hshut.1) ?_
    rw [hshut.2]
    exact hr
  exact ⟨n, k, l, ts, hmatch, rfl, fun text hkl => (Grammar.literalOf_eq hk hkl hmatch).2⟩

end Program

end Fexpr
