import Fexpr.Proofs.Form.Script

/-!
# Printing scripts

An `Outline` is what a script says, without places: literals by their texts, names, paths and calls.
It is printed with single spaces between the items of a call. Whatever outline is printed, as long as
its words are words and its literals are literals, the text compiles, and what is read from it is
this outline again (`compile_render`).

Printing needs no more than single spaces because no lexeme of the outline reads over a blank or a
parenthesis, and none of them starts like something else.
-/

namespace Fexpr

open Text (byteSize)
open Grammar

/-! ## Outlines -/

namespace Outline

/-- An atom without places. -/
inductive Atom where
  /-- A literal of a kind, by its text. -/
  | literal (kind : Form.LiteralKind) (text : List Char)
  /-- A name. -/
  | name (word : List Char)
  /-- A path of keys from a base. -/
  | path (base : List Char) (keys : List (List Char))

end Outline

mutual

/-- A script without places. -/
inductive Outline where
  /-- An atom. -/
  | atom (a : Outline.Atom)
  /-- A call of an operator with items. -/
  | call (operator : List Char) (items : List Outline.Item)

/-- An item of a call without places. -/
inductive Outline.Item where
  /-- An operand. -/
  | operand (o : Outline)
  /-- An option. -/
  | option (key : List Char) (value : Outline.Atom)

end

/-- The expression that literals of a kind match. -/
def Form.LiteralKind.peg : Form.LiteralKind → Peg
  | nil => nilLiteral
  | bool => boolLiteral
  | integer => integerLiteral
  | float => floatLiteral
  | string => stringLiteral
  | longString => longStringLiteral

/-- Whether the whole text is a literal of the kind. -/
def Form.LiteralKind.matchesWhole (kind : LiteralKind) (cs : List Char) : Bool :=
  match kind.peg.run (.start cs) with
  | .ok s => s.rest.isEmpty
  | .error _ => false

namespace Outline

/-- Whether a word can be evaluated as a name: it is not that of the absent value. -/
def isNameable (w : List Char) : Bool := isWord w && w != ['n', 'i', 'l']

/-- Whether the parts of an atom are what they are taken for. -/
def Atom.isSound : Atom → Bool
  | literal kind text => kind.matchesWhole text
  | name w => isNameable w
  | path base keys => isNameable base && !keys.isEmpty && keys.all isWord

mutual

/-- Whether all atoms, operators and keys are what they are taken for. -/
def isSound : Outline → Bool
  | atom a => a.isSound
  | call operator items => isWord operator && areSound items

def areSound : List Item → Bool
  | [] => true
  | .operand o :: items => o.isSound && areSound items
  | .option key value :: items => isWord key && value.isSound && areSound items

end

mutual

/-- How many calls are inside each other. -/
def depth : Outline → Nat
  | atom _ => 0
  | call _ items => depths items + 1

def depths : List Item → Nat
  | [] => 0
  | .operand o :: items => max o.depth (depths items)
  | .option _ _ :: items => depths items

end

/-- The text of the keys of a path. -/
def renderKeys (keys : List (List Char)) : List Char := keys.flatMap fun key => '.' :: key

/-- The text of an atom. -/
def Atom.render : Atom → List Char
  | literal _ text => text
  | name w => w
  | path base keys => base ++ renderKeys keys

mutual

/-- The text of an outline. -/
def render : Outline → List Char
  | atom a => a.render
  | call operator items => '(' :: (operator ++ (renders items ++ [')']))

/-- The items of a call, each after a space. -/
def renders : List Item → List Char
  | [] => []
  | .operand o :: items => ' ' :: (o.render ++ renders items)
  | .option key value :: items => ' ' :: '#' :: ':' :: (key ++ ' ' :: (value.render ++ renders items))

end

end Outline

namespace Form

/-- An atom without its places. -/
def Atom.outline : Atom → Outline.Atom
  | literal l => .literal l.kind l.text
  | name n => .name n.text.toList
  | path base as _ => .path base.text.toList (as.map (·.key.toList))

mutual

/-- What a form says, without places. -/
def outline : Form → Outline
  | atom a => .atom a.outline
  | call operator items _ => .call operator.text.toList (outlines items)

def outlines : List Item → List Outline.Item
  | [] => []
  | .operand f :: items => .operand f.outline :: outlines items
  | .option key value :: items => .option key.text.toList value.outline :: outlines items

end

end Form

/-! ## Printed atoms -/

namespace Grammar

open Outline

variable {i j k l m : Cursor} {w : List Char}

theorem follows_peg (mayOpen : Nat → Prop) (n : Nat) (kind : Form.LiteralKind) :
    Follows mayOpen n (.rule kind.rule) kind.peg := by
  cases kind with
  | nil => exact follows_nilLiteral
  | bool => exact follows_boolLiteral
  | integer => exact follows_integerLiteral
  | float => exact follows_floatLiteral
  | string => exact follows_stringLiteral
  | longString => exact follows_longStringLiteral

theorem derives_of_matchesWhole {kind : Form.LiteralKind} {cs : List Char}
    (h : kind.matchesWhole cs = true) (mayOpen : Nat → Prop) (n : Nat) :
    ∃ ts, Derives mayOpen n (.rule kind.rule) ⟨cs, 0⟩ (.success ⟨[], byteSize cs⟩ ts) := by
  unfold Form.LiteralKind.matchesWhole at h
  split at h
  next s hrun =>
    obtain ⟨ts, hts, -⟩ := (follows_peg mayOpen n kind (.start cs)).1 s hrun
    have hrest : s.cursor.rest = [] := List.isEmpty_iff.mp h
    obtain ⟨ds, hcs, hoffset⟩ := hts.across
    rw [hrest, List.append_nil] at hcs
    have hstop : s.cursor = ⟨[], byteSize cs⟩ := by
      rw [show s.cursor = ⟨s.cursor.rest, s.cursor.offset⟩ from rfl, hrest, hoffset, ← hcs]
      simp [Peg.State.cursor, Peg.State.start]
    exact ⟨ts, hstop ▸ hts⟩
  next => cases h

theorem matchesWhole_of_derives {kind : Form.LiteralKind} {cs : List Char} {mayOpen : Nat → Prop}
    {n k : Nat} {ts : List Tree}
    (h : Derives mayOpen n (.rule kind.rule) ⟨cs, 0⟩ (.success ⟨[], k⟩ ts)) :
    kind.matchesWhole cs = true := by
  unfold Form.LiteralKind.matchesWhole
  cases hrun : kind.peg.run (.start cs) with
  | error g => cases h.unique ((follows_peg mayOpen n kind (.start cs)).2 g hrun)
  | ok s =>
    obtain ⟨us, hus, -⟩ := (follows_peg mayOpen n kind (.start cs)).1 s hrun
    obtain ⟨hstop, -⟩ := Ending.success.inj (h.unique hus)
    exact List.isEmpty_iff.mpr (congrArg Cursor.rest hstop).symm

/-- The texts of a kind are the texts of its literals, if what the grammar takes for one has the text
of one and if that is taken for one wherever it is closed. -/
theorem matchesWhole_iff_exists {kind : Form.LiteralKind} {cs : List Char} {α : Type}
    {text : α → List Char}
    (hread : ∀ {i j ts}, Derives (fun _ => True) 0 (.rule kind.rule) i (.success j ts) →
      ∃ a, i.Across (text a) j)
    (hlexes : ∀ a {i j}, i.Across (text a) j → Delimited j.rest →
      ∃ ts, Lexes (.rule kind.rule) i j ts) :
    kind.matchesWhole cs = true ↔ ∃ a, text a = cs := by
  constructor
  · intro h
    obtain ⟨ts, hts⟩ := derives_of_matchesWhole h (fun _ => True) 0
    obtain ⟨a, ha⟩ := hread hts
    exact ⟨a, (ha.1.trans (List.append_nil _)).symm⟩
  · rintro ⟨a, rfl⟩
    have hacross : Cursor.Across ⟨text a, 0⟩ (text a) ⟨[], 0 + byteSize (text a)⟩ :=
      ⟨(List.append_nil _).symm, rfl⟩
    obtain ⟨ts, hts⟩ := hlexes a hacross (by rintro c ⟨⟩)
    exact matchesWhole_of_derives (hts (fun _ => True) 0)

/-- A literal stands wherever its text does, if nothing solid follows. -/
theorem exists_literal {kind : Form.LiteralKind} (h : kind.matchesWhole w = true)
    (hij : i.Across w j) (hj : Delimited j.rest) :
    ∃ us, Lexes (.rule .literal) i j [nodeAt .literal i j [nodeAt kind.rule i j us]] := by
  obtain ⟨rest, offset⟩ := i
  obtain ⟨rest', offset'⟩ := j
  obtain ⟨hrest, hoffset⟩ := hij
  simp only at hrest hoffset hj
  subst hrest hoffset
  obtain ⟨ts, hts⟩ := derives_of_matchesWhole h (fun _ => True) 0
  obtain ⟨us, rfl⟩ := hts.exists_node
  rw [← List.append_nil w] at hts
  have hφ : Translates (offset + ·) 0 := fun m s _ => (Nat.add_assoc offset m s).symm
  have hmove := (literal_of_kind kind hj hts).translate hφ
  simp only [Ending.relocate, Tree.relocates_cons, Tree.relocates_nil, Tree.relocate_node,
    Text.Span.relocate, Nat.add_zero, List.append_nil] at hmove
  exact ⟨_, fun mayOpen n => hmove.anywhere .literal n⟩

theorem NameAt.of_delimited (hw : isWord w = true) (hij : i.Across w j) (hj : Delimited j.rest)
    (hjk : Spaced j k) : NameAt w i j k :=
  ⟨hw, hij, fun c hc => solid_isNameChar.eq_false (hj c hc), hjk⟩

/-- A name before the dot of a path. -/
theorem NameAt.of_dot (hw : isWord w = true) (hij : i.Across w j)
    (hj : j.rest.head? = some '.') : NameAt w i j j := by
  refine ⟨hw, hij, fun c hc => ?_, .refl fun c hc => ?_⟩
  · cases Option.some.inj (hj.symm.trans hc)
    rfl
  · cases Option.some.inj (hj.symm.trans hc)
    rfl

theorem exists_attributesAt {keys : List (List Char)} (hne : keys ≠ [])
    (hkeys : keys.all isWord = true) (hij : i.Across (renderKeys keys) j) (hj : Delimited j.rest)
    (hjk : Spaced j k) (hk : attributeAhead k.rest = false) :
    ∃ ts as, AttributesAt i j k ts as ∧ as.map (·.key.toList) = keys := by
  induction keys generalizing i with
  | nil => exact absurd rfl hne
  | cons key keys ih =>
    rw [List.all_cons, Bool.and_eq_true] at hkeys
    have hij : i.Across (['.'] ++ (key ++ renderKeys keys)) j := hij
    obtain ⟨i', hii', hi'j⟩ := hij.split ['.']
    cases keys with
    | nil =>
      rw [renderKeys, List.flatMap_nil, List.append_nil] at hi'j
      refine ⟨_, _, .last hii' (.of_delimited hkeys.1 hi'j hj hjk) hk, ?_⟩
      simp
    | cons key' keys =>
      obtain ⟨l, hi'l, hlj⟩ := hi'j.split key
      obtain ⟨ts, as, has, houtline⟩ := ih (List.cons_ne_nil _ _) hkeys.2 hlj
      have hdot : l.rest.head? = some '.' := by
        rw [hlj.1]
        rfl
      refine ⟨_, _, .more hii' (.of_dot hkeys.1 hi'l hdot) has, ?_⟩
      simp [houtline]

theorem exists_atomAt {a : Outline.Atom} (ha : a.isSound = true) (hij : i.Across a.render j)
    (hj : Delimited j.rest) (hjk : Spaced j k) (hk : attributeAhead k.rest = false) :
    ∃ l t b, AtomAt i j l t b ∧ Spaced l k ∧ b.outline = a := by
  cases a with
  | literal kind text =>
    obtain ⟨us, hlexes⟩ := exists_literal ha hij hj
    exact ⟨j, _, _, .literal hlexes hij, hjk, rfl⟩
  | name w =>
    obtain ⟨hw, hnil⟩ := Bool.and_eq_true_iff.mp ha
    refine ⟨k, _, _, .name (.of_delimited hw hij hj hjk) (bne_iff_ne.mp hnil) hk, .refl hjk.clear, ?_⟩
    simp [Form.Atom.outline, nameForm]
  | path base keys =>
    simp only [Outline.Atom.isSound, isNameable, Bool.and_eq_true, bne_iff_ne, Bool.not_eq_true',
      List.isEmpty_eq_false_iff] at ha
    obtain ⟨⟨⟨hbase, hnil⟩, hne⟩, hkeys⟩ := ha
    obtain ⟨l, hil, hlj⟩ := hij.split base
    have hdot : l.rest.head? = some '.' := by
      obtain ⟨key, keys, rfl⟩ := List.exists_cons_of_ne_nil hne
      rw [hlj.1]
      rfl
    obtain ⟨ts, as, has, houtline⟩ := exists_attributesAt hne hkeys hlj hj hjk hk
    refine ⟨k, _, _, .path (.of_dot hbase hil hdot) hnil has, .refl hjk.clear, ?_⟩
    simp [Form.Atom.outline, nameForm, houtline]

/-! ## Printed calls -/

/-- An option before a row joins the options that the row starts with. -/
theorem Written.exists_option_cons {mayOpen : Nat → Prop} {n : Nat} {t : Tree} {us : List Tree}
    {item : Form.Item} {items : List Form.Item} (h : OptionAt i j t item)
    (hrow : Written mayOpen n .row j k us items) :
    ∃ ts, Written mayOpen n .row i k ts (item :: items) := by
  by_cases hmark : ['#', ':'] <+: j.rest
  · cases hrow with
    | nil hclose =>
      obtain ⟨ds, hds⟩ := hmark
      rw [← hds] at hclose
      cases hclose
    | operand hvalue _ => exact absurd hmark hvalue.exists_head.2
    | options hs hrest => exact ⟨_, .options (.more h hs) hrest⟩
  · exact ⟨_, .options (.last h hmark) hrow⟩

theorem delimited_renders (items : List Outline.Item) (rest : List Char) :
    Delimited (renders items ++ ')' :: rest) := by
  intro c hc
  cases items with
  | nil =>
    cases hc
    rfl
  | cons item items =>
    cases item <;>
    · cases hc
      rfl

mutual

/-- A printed outline is written where its text stands. -/
theorem exists_written {n : Nat} {o : Outline} (ho : o.isSound = true)
    (hn : n + o.depth ≤ maxNesting) {i j k : Cursor} (hij : i.Across o.render j)
    (hj : Delimited j.rest) (hjk : Spaced j k) (hk : attributeAhead k.rest = false) :
    ∃ ts f, Written (· < maxNesting) n .value i k ts [.operand f] ∧ f.outline = o := by
  cases o with
  | atom a =>
    rw [isSound] at ho
    rw [render] at hij
    obtain ⟨l, t, b, hb, hlk, houtline⟩ := exists_atomAt ho hij hj hjk hk
    exact ⟨_, _, .atom hb hlk, by rw [Form.outline, houtline]⟩
  | call operator items =>
    rw [isSound, Bool.and_eq_true] at ho
    rw [depth] at hn
    rw [render, ← List.singleton_append] at hij
    obtain ⟨l, hil, hlj⟩ := hij.split ['(']
    obtain ⟨m, hlm, hmj⟩ := hlj.split operator
    obtain ⟨p, hmp, hpj⟩ := hmj.split (renders items)
    have hm : Delimited m.rest := by
      rw [hmp.1, hpj.1]
      exact delimited_renders items _
    -- The row comes first, because the gap behind the operator is the one in front of the row.
    obtain ⟨q, ts, forms, hmq, -, hrow, houtlines⟩ :=
      exists_writtenRow ho.2 (show n + 1 + depths items ≤ maxNesting by omega) hmp
        (show p.rest.head? = some ')' by rw [hpj.1]; rfl)
    have hname := NameAt.of_delimited ho.1 hlm hm hmq
    refine ⟨_, _, .call (show n < maxNesting by omega) hil (.refl hname.clear_start) hname hrow hpj
      hjk, ?_⟩
    rw [Form.outline, houtlines]
    simp [nameForm]

/-- Printed items are written behind the space that they start with. -/
theorem exists_writtenRow {n : Nat} {items : List Outline.Item} (hitems : areSound items = true)
    (hn : n + depths items ≤ maxNesting) {i j : Cursor} (hij : i.Across (renders items) j)
    (hj : j.rest.head? = some ')') :
    ∃ k ts forms, Spaced i k ∧ attributeAhead k.rest = false ∧
      Written (· < maxNesting) n .row k j ts forms ∧ Form.outlines forms = items := by
  have hdelimited : ∀ {items} {l : Cursor}, l.Across (renders items) j → Delimited l.rest := by
    intro items l hlj
    obtain ⟨cs, hcs⟩ := List.head?_eq_some_iff.mp hj
    rw [hlj.1, hcs]
    exact delimited_renders items cs
  cases items with
  | nil =>
    rw [renders] at hij
    obtain rfl := hij.eq_of_nil
    obtain ⟨cs, hcs⟩ := List.head?_eq_some_iff.mp hj
    refine ⟨i, [], [], .refl fun c hc => ?_, ?_, .nil hj, by rw [Form.outlines]⟩
    · cases Option.some.inj (hj.symm.trans hc)
      rfl
    · exact attributeAhead_eq_false_of_head hcs (by decide)
  -- The rest of the row says which gap follows the item, and that no step of a path does.
  | cons item items =>
    cases item with
    | operand o =>
      rw [areSound, Bool.and_eq_true] at hitems
      rw [depths] at hn
      rw [renders, ← List.singleton_append] at hij
      obtain ⟨k, hik, hkj⟩ := hij.split [' ']
      obtain ⟨l, hkl, hlj⟩ := hkj.split o.render
      obtain ⟨m, us, forms, hlm, hahead, hrow, houtlines⟩ :=
        exists_writtenRow hitems.2 (show n + depths items ≤ maxNesting by omega) hlj hj
      obtain ⟨ts, f, hvalue, houtline⟩ := exists_written hitems.1
        (show n + o.depth ≤ maxNesting by omega) hkl (hdelimited hlj) hlm hahead
      refine ⟨k, _, _, ⟨_, hik, .blank rfl (.nil hvalue.clear_start)⟩,
        hvalue.attributeAhead_eq_false, .operand hvalue hrow, ?_⟩
      rw [List.singleton_append, Form.outlines, houtline, houtlines]
    | option key value =>
      rw [areSound, Bool.and_eq_true, Bool.and_eq_true] at hitems
      rw [depths] at hn
      rw [renders, ← List.singleton_append] at hij
      obtain ⟨k, hik, hkj⟩ := hij.split [' ']
      obtain ⟨p, hkp, hpj⟩ := hkj.split ['#', ':']
      obtain ⟨q, hpq, hqj⟩ := hpj.split key
      obtain ⟨r, hqr, hrj⟩ := hqj.split [' ']
      obtain ⟨l, hrl, hlj⟩ := hrj.split value.render
      obtain ⟨m, us, forms, hlm, hahead, hrow, houtlines⟩ := exists_writtenRow hitems.2 hn hlj hj
      obtain ⟨x, t, a, ha, hxm, houtline⟩ :=
        exists_atomAt hitems.1.2 hrl (hdelimited hlj) hlm hahead
      have hgap : Spaced q r := ⟨_, hqr, .blank rfl (.nil ?_)⟩
      · have hkey : NameAt key p q r := .of_delimited hitems.1.1 hpq ?_ hgap
        · obtain ⟨ts, hrow⟩ := hrow.exists_option_cons (.mk hkp hkey ha hxm)
          refine ⟨k, ts, _, ⟨_, hik, .blank rfl (.nil ?_)⟩, ?_, hrow, ?_⟩
          · rw [hkp.1]
            intro c hc
            cases hc
            rfl
          · exact attributeAhead_eq_false_of_head hkp.1 (by decide)
          · rw [Form.outlines, houtline, houtlines]
            simp [nameForm]
        · rw [hqr.1]
          intro c hc
          cases hc
          rfl
      · have hvalue : Written (fun _ => True) 0 .value _ _ _ _ := .atom ha hxm
        exact hvalue.clear_start

end

end Grammar

/-- Printing an outline and reading the text back are inverse to each other. Every outline whose
words are words and whose literals are matched in full, with no more calls inside each other than a
script may have, is printed as a text that is accepted and compiles, and the form that is read from
its tree says what the outline says. -/
theorem compile_render (o : Outline) (ho : o.isSound = true) (hdepth : o.depth ≤ maxNesting) :
    ∃ log tree f, matchScript o.render = .ok log ∧ Forest.ofTokens log = [tree] ∧
      Form.ofTree o.render tree = .ok f ∧ f.outline = o ∧
      ∀ name, Program.compile ⟨name, String.ofList o.render⟩ =
        .ok ⟨⟨name, String.ofList o.render⟩, [tree], .ok f⟩ := by
  have hacross : Cursor.Across ⟨o.render, 0⟩ o.render ⟨[], byteSize o.render⟩ :=
    ⟨(List.append_nil _).symm, (Nat.zero_add _).symm⟩
  have hend : Cursor.Clear ⟨[], byteSize o.render⟩ := fun c hc => nomatch hc
  obtain ⟨ts, f, hvalue, houtline⟩ := exists_written ho (show 0 + o.depth ≤ maxNesting by omega)
    hacross (fun c hc => nomatch hc) (.refl hend) rfl
  obtain ⟨t, k, u, rfl, -⟩ := hvalue.reads ⟨[], rfl, rfl⟩
  have hscript : ScriptAt o.render _ _ _ f := ⟨.refl hvalue.clear_start, hvalue, rfl⟩
  obtain ⟨tree, -, -, -, hprunes, hread, -⟩ := hscript.reads
  refine ⟨_, tree, f, hscript.matchScript, hscript.ofTokens.trans hprunes, hread, houtline, ?_⟩
  intro name
  have hchars : (⟨name, String.ofList o.render⟩ : Source).chars = o.render := String.toList_ofList
  have hcompile : Program.compile ⟨name, String.ofList o.render⟩ = _ :=
    Program.compile_eq_ok (hchars.symm ▸ hscript)
  rw [hcompile, hchars, hprunes]

/-- A call whose items could be taken for parts of each other if they were printed without care:
an empty string before another one, a float after a name, and a truth value after a key. -/
def crowdedCall : Outline :=
  .call ['f'] [.operand (.atom (.literal .string ['"', '"'])),
    .operand (.atom (.literal .string ['"', '"'])), .operand (.atom (.name ['n', 'i', 'l', '-'])),
    .operand (.atom (.literal .float ['.', '5'])), .option ['k'] (.literal .bool ['#', 't']),
    .option ['m'] (.path ['a'] [['b'], ['c']]), .operand (.call ['g'] [])]

/-- The crowded call is printed and read back. -/
theorem compile_render_crowdedCall :
    crowdedCall.render = "(f \"\" \"\" nil- .5 #:k #t #:m a.b.c (g))".toList ∧
      ∃ p f, Program.compile ⟨"crowded", String.ofList crowdedCall.render⟩ = .ok p ∧
        p.body = .ok f ∧ f.outline = crowdedCall := by
  refine ⟨by decide +kernel, ?_⟩
  obtain ⟨log, tree, f, -, -, -, houtline, hcompile⟩ :=
    compile_render crowdedCall (by decide +kernel) (by decide +kernel)
  exact ⟨_, f, hcompile "crowded", rfl, houtline⟩

end Fexpr
