import Fexpr.Proofs.Eval.Safety
import Fexpr.Proofs.Literal.Text
import Fexpr.Tree.Listing

/-!
# Writing listings

A sink that runs full keeps a first part of what it is given, and which part does not depend on how
the bytes reach it. This is shown one layer after the other. A text may be taken in portions of any
size (`Sink.Offers`). Texts may be written one by one, up to the first that fails (`Sink.Writes`).
They may be written from inside a walk that cannot be stopped and only remembers that a write has
failed (`Sink.Visits`). Each layer comes to one write of everything at once, so that the listing of
a tree fills a sink in the same way whatever the pieces of its lines are.
-/

namespace Fexpr

open Text (Sink)

namespace Text

/-! ## Encodings -/

/-- The bytes of a text. -/
def encoding (text : String) : List UInt8 := text.toUTF8.toList

private theorem toList_loop_eq (bs : ByteArray) (i : Nat) (read : List UInt8) :
    ByteArray.toList.loop bs i read = read.reverse ++ bs.data.toList.drop i := by
  fun_induction ByteArray.toList.loop bs i read with
  | case1 i read hi ih =>
    have hlen : i < bs.data.toList.length := hi
    have hget : bs.get! i = bs.data.toList[i] := by
      show bs.data[i]! = bs.data.toList[i]
      rw [getElem!_pos bs.data i hi, Array.getElem_toList]
    rw [ih, hget, List.reverse_cons, List.append_assoc, List.drop_eq_getElem_cons hlen]
    rfl
  | case2 i read hi =>
    have hlen : bs.data.toList.length ≤ i := Nat.le_of_not_lt hi
    rw [List.drop_eq_nil_of_le hlen, List.append_nil]

theorem encoding_eq (text : String) :
    encoding text = text.toList.flatMap String.utf8EncodeChar := by
  have hbytes : text.toUTF8.toList = text.toUTF8.data.toList := toList_loop_eq text.toUTF8 0 []
  rw [encoding, hbytes, Literal.toUTF8_toList]

@[simp] theorem encoding_empty : encoding "" = [] := by
  rw [encoding_eq]
  rfl

@[simp] theorem encoding_append (s t : String) : encoding (s ++ t) = encoding s ++ encoding t := by
  rw [encoding_eq, encoding_eq, encoding_eq, String.toList_append, List.flatMap_append]

namespace Sink

variable {k k' : Sink} {text : String} {texts : List String} {r : Sink × Bool}

/-! ## Portions

What is offered may be taken in several portions, as long as there is room for one more byte. -/

/-- What becomes of a sink that is given all the bytes at once. -/
def feed (k : Sink) (bytes : List UInt8) : Sink × Bool :=
  (⟨k.room - bytes.length, k.written ++ bytes.take k.room⟩, decide (bytes.length ≤ k.room))

theorem write_eq_feed (k : Sink) (text : String) : k.write text = k.feed (encoding text) := rfl

@[simp] theorem feed_nil (k : Sink) : k.feed [] = (k, true) := by
  simp [feed]

/-- Bytes that find room are taken whole. -/
theorem feed_of_le {bytes : List UInt8} (h : bytes.length ≤ k.room) :
    k.feed bytes = (⟨k.room - bytes.length, k.written ++ bytes⟩, true) := by
  rw [feed, List.take_of_length_le h, decide_eq_true h]

/-- Bytes that come after others find the room that those left. -/
theorem feed_append_of_le {bytes : List UInt8} (h : bytes.length ≤ k.room) (more : List UInt8) :
    k.feed (bytes ++ more) = feed ⟨k.room - bytes.length, k.written ++ bytes⟩ more := by
  have htaken : bytes.take k.room = bytes := List.take_of_length_le h
  have hroom : k.room - (bytes.length + more.length) = k.room - bytes.length - more.length := by
    omega
  have hfits : bytes.length + more.length ≤ k.room ↔ more.length ≤ k.room - bytes.length := by
    omega
  have hwritten : ∀ rest : List UInt8, k.written ++ (bytes ++ rest) = k.written ++ bytes ++ rest :=
    fun rest => Array.toList_inj.mp (by simp)
  simp [feed, List.take_append, htaken, hroom, hfits, hwritten]

/-- Once bytes have found no room, nothing that follows them is taken. -/
theorem feed_append_of_lt {bytes : List UInt8} (h : k.room < bytes.length) (more : List UInt8) :
    k.feed (bytes ++ more) = k.feed bytes := by
  have hover : k.room - bytes.length = 0 := by omega
  have hroom : k.room - (bytes.length + more.length) = 0 := by omega
  have hfits : ¬ bytes.length + more.length ≤ k.room := by omega
  have hfits' : ¬ bytes.length ≤ k.room := by omega
  simp [feed, List.take_append, hover, hroom, hfits, hfits']

/-- Offers bytes to a sink until it has taken them all. Whenever there is room it takes a portion of
at least one byte, from the front; the rest is offered again. A sink without room fails. -/
inductive Offers : Sink → List UInt8 → Sink × Bool → Prop
  | done (k : Sink) : Offers k [] (k, true)
  | take {k : Sink} {portion rest : List UInt8} {r : Sink × Bool} (some : portion ≠ [])
      (fits : portion.length ≤ k.room)
      (more : Offers ⟨k.room - portion.length, k.written ++ portion⟩ rest r) :
      Offers k (portion ++ rest) r
  | full {k : Sink} {bytes : List UInt8} (some : bytes ≠ []) (room : k.room = 0) :
      Offers k bytes (k, false)

theorem feed_of_full {bytes : List UInt8} (hbytes : bytes ≠ []) (hroom : k.room = 0) :
    k.feed bytes = (k, false) := by
  obtain ⟨room, written⟩ := k
  subst hroom
  simp [feed, hbytes]

theorem Offers.eq_feed {bytes : List UInt8} (h : Offers k bytes r) : r = k.feed bytes := by
  induction h with
  | done k => exact (feed_nil k).symm
  | take _ fits _ ih => rw [ih, feed_append_of_le fits]
  | full some room => exact (feed_of_full some room).symm

/-- A sink may take all that it has room for in one portion. -/
theorem offers_feed (k : Sink) (bytes : List UInt8) : Offers k bytes (k.feed bytes) := by
  by_cases hbytes : bytes = []
  · rw [hbytes, feed_nil]
    exact .done k
  by_cases hroom : k.room = 0
  · rw [feed_of_full hbytes hroom]
    exact .full hbytes hroom
  by_cases hfits : bytes.length ≤ k.room
  · have htake := Offers.take hbytes hfits (.done _)
    rw [feed_of_le hfits]
    rwa [List.append_nil] at htake
  · -- The sink takes bytes until it is full, and refuses the first one after them.
    have hlen : (bytes.take k.room).length = k.room := by
      rw [List.length_take]
      omega
    have hfront : bytes.take k.room ≠ [] := by
      rw [← List.length_pos_iff]
      omega
    have hrest : bytes.drop k.room ≠ [] := by
      rw [← List.length_pos_iff, List.length_drop]
      omega
    have htake := Offers.take hfront (Nat.le_of_eq hlen) (.full hrest (by
      show k.room - (bytes.take k.room).length = 0
      omega))
    rw [List.take_append_drop] at htake
    rwa [htake.eq_feed] at htake

/-! ## Texts one by one -/

/-- Writes texts one after the other. The first that fails ends the writing. -/
inductive Writes : Sink → List String → Sink × Bool → Prop
  | done (k : Sink) : Writes k [] (k, true)
  | next {k k' : Sink} {text : String} {texts : List String} {r : Sink × Bool}
      (taken : Offers k (encoding text) (k', true)) (rest : Writes k' texts r) :
      Writes k (text :: texts) r
  | fail {k k' : Sink} {text : String} {texts : List String}
      (failed : Offers k (encoding text) (k', false)) : Writes k (text :: texts) (k', false)

theorem writeAll_cons_of_true (h : k.write text = (k', true)) :
    k.writeAll (text :: texts) = k'.writeAll texts := by
  rw [writeAll, h]

theorem writeAll_cons_of_false (h : k.write text = (k', false)) :
    k.writeAll (text :: texts) = (k', false) := by
  rw [writeAll, h]

theorem Writes.eq_writeAll (h : Writes k texts r) : r = k.writeAll texts := by
  induction h with
  | done k => rfl
  | next taken _ ih => rw [writeAll_cons_of_true taken.eq_feed.symm, ih]
  | fail failed => rw [writeAll_cons_of_false failed.eq_feed.symm]

theorem writes_writeAll (texts : List String) : ∀ k : Sink, Writes k texts (k.writeAll texts) := by
  induction texts with
  | nil => exact Writes.done
  | cons text texts ih =>
    intro k
    have hoffers := offers_feed k (encoding text)
    rw [← write_eq_feed] at hoffers
    rcases hwrite : k.write text with ⟨k', b⟩
    rw [hwrite] at hoffers
    cases b with
    | true =>
      rw [writeAll_cons_of_true hwrite]
      exact .next hoffers (ih k')
    | false =>
      rw [writeAll_cons_of_false hwrite]
      exact .fail hoffers

/-- A text after one that was taken is written to the sink which that left. -/
theorem write_append_of_true (h : k.write text = (k', true)) (more : String) :
    k.write (text ++ more) = k'.write more := by
  have hfits : (encoding text).length ≤ k.room := of_decide_eq_true (congrArg Prod.snd h)
  rw [write_eq_feed, feed_of_le hfits] at h
  rw [write_eq_feed, encoding_append, feed_append_of_le hfits, (Prod.mk.inj h).1, write_eq_feed]

theorem write_append_of_false (h : k.write text = (k', false)) (more : String) :
    k.write (text ++ more) = (k', false) := by
  have hfits : ¬ (encoding text).length ≤ k.room := of_decide_eq_false (congrArg Prod.snd h)
  rw [write_eq_feed, encoding_append, feed_append_of_lt (Nat.lt_of_not_le hfits), ← write_eq_feed]
  exact h

/-- Writing texts one by one comes to writing them as one text. -/
theorem writeAll_eq (texts : List String) :
    ∀ k : Sink, k.writeAll texts = k.write (String.join texts) := by
  induction texts with
  | nil =>
    intro k
    rw [String.join_nil, write_eq_feed, encoding_empty, feed_nil, writeAll]
  | cons text texts ih =>
    intro k
    rw [String.join_cons]
    rcases hwrite : k.write text with ⟨k', b⟩
    cases b with
    | true => rw [writeAll_cons_of_true hwrite, ih, write_append_of_true hwrite]
    | false => rw [writeAll_cons_of_false hwrite, write_append_of_false hwrite]

/-! ## Writing from a walk

A walk shows every node to its visitor, whatever becomes of the writing. So the visitor keeps the
answer of the last write and leaves the sink alone once it was `false`. -/

/-- Writes the texts of one node after the other, from the answer that is kept. -/
inductive Visits : Sink × Bool → List (List String) → Sink × Bool → Prop
  | done (r : Sink × Bool) : Visits r [] r
  | write {k : Sink} {texts : List String} {nodes : List (List String)} {r r' : Sink × Bool}
      (written : Writes k texts r) (rest : Visits r nodes r') : Visits (k, true) (texts :: nodes) r'
  | skip {k : Sink} {texts : List String} {nodes : List (List String)} {r : Sink × Bool}
      (rest : Visits (k, false) nodes r) : Visits (k, false) (texts :: nodes) r

/-- After a failure the walk goes on to its end without a write. -/
theorem visits_false_iff {nodes : List (List String)} :
    Visits (k, false) nodes r ↔ r = (k, false) := by
  induction nodes with
  | nil =>
    constructor
    · rintro ⟨⟩
      rfl
    · rintro rfl
      exact .done _
  | cons texts nodes ih =>
    constructor
    · rintro (_ | _ | hrest)
      exact ih.mp hrest
    · intro hr
      exact .skip (ih.mpr hr)

/-- A walk that writes in one node after the other comes to writing all their texts as one. -/
theorem visits_iff {nodes : List (List String)} :
    Visits (k, true) nodes r ↔ r = k.write (String.join nodes.flatten) := by
  induction nodes generalizing k with
  | nil =>
    rw [List.flatten_nil, ← writeAll_eq, writeAll]
    constructor
    · rintro ⟨⟩
      rfl
    · rintro rfl
      exact .done _
  | cons texts nodes ih =>
    -- The visitor's first answer decides whether the rest of the walk writes or not.
    have hsplit : Visits (k, true) (texts :: nodes) r ↔ Visits (k.writeAll texts) nodes r := by
      constructor
      · rintro (_ | ⟨hwritten, hrest⟩)
        rwa [hwritten.eq_writeAll] at hrest
      · exact .write (writes_writeAll texts k)
    rw [hsplit, List.flatten_cons, String.join_append, writeAll_eq]
    rcases hwrite : k.write (String.join texts) with ⟨k', b⟩
    cases b with
    | true => rw [ih, write_append_of_true hwrite]
    | false => rw [visits_false_iff, write_append_of_false hwrite]

/-! ## Sinks of a given room -/

/-- A sink with room for `n` bytes was given a text: it holds the first `n` bytes, or all of them if
there are fewer, and the answer tells whether there are no more. -/
structure Fills (n : Nat) (text : String) (r : Sink × Bool) : Prop where
  /-- What was taken. -/
  written : r.1.written.toList = (encoding text).take (min n (encoding text).length)
  /-- What was answered. -/
  answer : r.2 = true ↔ (encoding text).length ≤ n

theorem fills_write (n : Nat) (text : String) : Fills n text ((withRoom n).write text) where
  written := by simp [write_eq_feed, feed, withRoom]
  answer := by simp [write_eq_feed, feed, withRoom]

end Sink

end Text

/-! ## Listings -/

namespace Listing

/-- Without colours the pieces of a line make up the plain line. -/
theorem Line.join_pieces_plain (l : Line) : String.join (l.pieces .plain) = l.plain := by
  simp [Line.pieces, Line.plain, Style.plain, String.append_assoc]

end Listing

namespace Tree

open Listing Text.Sink

/-- A walk over the nodes of a tree that writes each line in texts of its own. -/
def ListsBy (texts : Line → List String) (cs : List Char) (t : Tree) (k : Sink) (r : Sink × Bool) :
    Prop :=
  Visits (k, true) ((t.lines cs).map texts) r

variable {cs : List Char} {t : Tree} {texts : Line → List String} {k : Sink} {r : Sink × Bool}

theorem listsBy_iff : t.ListsBy texts cs k r ↔ r = k.writeAll ((t.lines cs).flatMap texts) := by
  rw [ListsBy, visits_iff, writeAll_eq, List.flatMap_def]

/-- Writing line by line is the walk that writes each line as a whole. -/
theorem listsBy_plain_iff : t.ListsBy (fun l => [l.plain]) cs k r ↔ r = t.writeListing cs k := by
  rw [listsBy_iff, ← List.map_eq_flatMap, writeListing]

/-- Writing piece by piece is the walk that writes the pieces of each line. -/
theorem listsBy_pieces_iff {style : Style} :
    t.ListsBy (Line.pieces style) cs k r ↔ r = t.writeStyled style cs k := listsBy_iff

theorem join_flatMap_of_join_eq {ls : List Line} (h : ∀ l ∈ ls, String.join (texts l) = l.plain) :
    String.join (ls.flatMap texts) = String.join (ls.map Line.plain) := by
  induction ls with
  | nil => rfl
  | cons l ls ih =>
    rw [List.flatMap_cons, String.join_append, List.map_cons, String.join_cons,
      h l List.mem_cons_self, ih fun l' hl' => h l' (List.mem_cons_of_mem l hl')]

/-- Whatever the texts are that make up the lines, a walk that writes them comes to one write of the
listing. -/
theorem listsBy_iff_of_join_eq (h : ∀ l ∈ t.lines cs, String.join (texts l) = l.plain) :
    t.ListsBy texts cs k r ↔ r = k.write (t.listing cs) := by
  rw [listsBy_iff, writeAll_eq, join_flatMap_of_join_eq h, listing]

end Tree

open Listing (Line)

/-- The two writers of trees fill every sink alike. A compiled script has a tree, and however many
bytes a sink has room for, both the writer of whole lines and the writer of uncoloured pieces leave
in it the first bytes of the listing, as many as there are or as it has room for, and answer that
all went well exactly if the listing found room.

Each of the two is a walk over the whole tree whose visitor writes some texts for each line, in
portions as the sink takes them, and does not write again after a failure. Every such walk whose
texts make up the lines does the same, so that the pieces in which a line is formatted and the
portions in which it is taken are free. -/
theorem writers_fill_alike {source : Source} {p : Program} (h : Program.compile source = .ok p) :
    ∃ t, p.tree? = some t ∧ ∀ n,
      Sink.Fills n (t.listing source.chars) (t.writeListing source.chars (.withRoom n)) ∧
      Sink.Fills n (t.listing source.chars) (t.writeStyled .plain source.chars (.withRoom n)) ∧
      (∀ r, t.ListsBy (fun l => [l.plain]) source.chars (.withRoom n) r ↔
        r = t.writeListing source.chars (.withRoom n)) ∧
      (∀ style r, t.ListsBy (Line.pieces style) source.chars (.withRoom n) r ↔
        r = t.writeStyled style source.chars (.withRoom n)) ∧
      ∀ texts : Line → List String, (∀ l, String.join (texts l) = l.plain) →
        (∃ r, t.ListsBy texts source.chars (.withRoom n) r) ∧
        ∀ r, t.ListsBy texts source.chars (.withRoom n) r →
          Sink.Fills n (t.listing source.chars) r := by
  obtain ⟨t, form, rfl, -⟩ := Program.exists_of_compile h
  refine ⟨t, rfl, fun n => ?_⟩
  have hfills := Sink.fills_write n (t.listing source.chars)
  have hplain : t.writeListing source.chars (.withRoom n) =
      (Sink.withRoom n).write (t.listing source.chars) :=
    (Tree.listsBy_iff_of_join_eq fun l _ => by simp).mp
      (Tree.listsBy_plain_iff.mpr rfl)
  have hpieces : t.writeStyled .plain source.chars (.withRoom n) =
      (Sink.withRoom n).write (t.listing source.chars) :=
    (Tree.listsBy_iff_of_join_eq fun l _ => l.join_pieces_plain).mp
      (Tree.listsBy_pieces_iff.mpr rfl)
  refine ⟨hplain ▸ hfills, hpieces ▸ hfills, fun r => Tree.listsBy_plain_iff,
    fun style r => Tree.listsBy_pieces_iff, fun texts htexts => ⟨?_, fun r hr => ?_⟩⟩
  · exact ⟨_, Tree.listsBy_iff.mpr rfl⟩
  · rw [Tree.listsBy_iff_of_join_eq fun l _ => htexts l] at hr
    exact hr ▸ hfills

/-- A text with a character of two bytes. -/
def Source.accented : Source := ⟨"script", "\"é\""⟩

/-- The sink runs full in the middle of the character, on the second line of the listing. Only its
first byte is taken, by both writers, and both say so. -/
theorem writers_fill_alike_accented :
    ∃ p t, Program.compile .accented = .ok p ∧ p.tree? = some t ∧
      Sink.Fills 27 (t.listing Source.accented.chars)
        (t.writeListing Source.accented.chars (.withRoom 27)) ∧
      Sink.Fills 27 (t.listing Source.accented.chars)
        (t.writeStyled .plain Source.accented.chars (.withRoom 27)) ∧
      (t.writeListing Source.accented.chars (.withRoom 27)).1.written.toList.getLast? =
        some 0xC3 ∧
      ¬ (t.writeStyled .plain Source.accented.chars (.withRoom 27)).2 = true := by
  have hread : ((Program.compile .accented).toOption.bind Program.tree?).map (fun t =>
      let bytes := (t.listing Source.accented.chars).toList.flatMap String.utf8EncodeChar
      ((bytes.take (min 27 bytes.length)).getLast?, decide (bytes.length ≤ 27))) =
      some (some 0xC3, false) := by
    decide +kernel
  obtain ⟨t, ht, hread⟩ := Option.map_eq_some_iff.mp hread
  obtain ⟨p, hp, ht⟩ := Option.bind_eq_some_iff.mp ht
  have hp := Program.compile_eq_ok_of_toOption hp
  obtain ⟨t', ht', hfills⟩ := writers_fill_alike hp
  cases ht.symm.trans ht'
  obtain ⟨hplain, hpieces, -⟩ := hfills 27
  obtain ⟨hlast, hlong⟩ := Prod.mk.inj hread
  rw [← Text.encoding_eq] at hlast hlong
  refine ⟨p, t, hp, ht, hplain, hpieces, hplain.written ▸ hlast, ?_⟩
  rw [hpieces.answer]
  exact of_decide_eq_false hlong

end Fexpr
