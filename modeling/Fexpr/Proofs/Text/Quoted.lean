import Fexpr.Proofs.Literal.Digits
import Fexpr.Text.Quoted

/-!
# Quoted texts are told apart

A character inside a quoted text stands for itself, or it is escaped by a letter or by its code
point. No such piece is the beginning of another one (`escapeChar_append_inj`), so a quoted text
tells what was quoted (`quote_injective`).
-/

namespace Fexpr.Text

/-- The characters that are escaped by one character, with that character. -/
def shortEscapes : List (Char × Char) :=
  [('"', '"'), ('\\', '\\'), ('\t', 't'), ('\r', 'r'), ('\n', 'n'), ('\x00', '0')]

theorem escapeChar_cases (c : Char) :
    (c ≠ '\\' ∧ escapeChar c = [c]) ∨
      (∃ x, (c, x) ∈ shortEscapes ∧ escapeChar c = ['\\', x]) ∨
      escapeChar c = '\\' :: 'u' :: '\x7b' :: (hexDigits c.toNat ++ ['\x7d']) := by
  unfold escapeChar
  split_ifs with hquote hslash htab hreturn hline hzero hprint
  · exact .inr (.inl ⟨'"', by simp [shortEscapes, hquote], rfl⟩)
  · exact .inr (.inl ⟨'\\', by simp [shortEscapes, hslash], rfl⟩)
  · exact .inr (.inl ⟨'t', by simp [shortEscapes, htab], rfl⟩)
  · exact .inr (.inl ⟨'r', by simp [shortEscapes, hreturn], rfl⟩)
  · exact .inr (.inl ⟨'n', by simp [shortEscapes, hline], rfl⟩)
  · have hnull : c = '\x00' := by
      rw [← Char.ofNat_toNat c, hzero]
    exact .inr (.inl ⟨'0', by simp [shortEscapes, hnull], rfl⟩)
  · exact .inl ⟨hslash, rfl⟩
  · exact .inr (.inr rfl)

/-- The digits of a code point end at the brace, and tell the character. -/
theorem hexDigits_append_inj {c d : Char} {r s : List Char}
    (h : hexDigits c.toNat ++ '\x7d' :: r = hexDigits d.toNat ++ '\x7d' :: s) : c = d ∧ r = s := by
  have hchar : ∀ k < 16, (k.digitChar != '\x7d') = true := by decide
  have hdigit : ∀ n, ∀ x ∈ hexDigits n, (x != '\x7d') = true := by
    intro n x hx
    obtain ⟨k, hk, rfl⟩ := Literal.exists_digitChar (by decide) hx
    exact hchar k hk
  have htake := congrArg (List.takeWhile (· != '\x7d')) h
  have hdrop := congrArg (List.dropWhile (· != '\x7d')) h
  rw [List.takeWhile_append_of_pos (hdigit _), List.takeWhile_append_of_pos (hdigit _)] at htake
  rw [List.dropWhile_append_of_pos (hdigit _), List.dropWhile_append_of_pos (hdigit _)] at hdrop
  have hdigits : hexDigits c.toNat = hexDigits d.toNat := by simpa using htake
  have hvalue : ∀ n, Nat.ofDigits 16 ((hexDigits n).reverse.map Literal.digitValue) = n :=
    Literal.ofDigits_toDigits (by decide) (by decide)
  have hcode : c.toNat = d.toNat := by rw [← hvalue c.toNat, hdigits, hvalue]
  refine ⟨?_, by simpa using hdrop⟩
  rw [← Char.ofNat_toNat c, hcode, Char.ofNat_toNat]

/-- No escaped character is the beginning of another one. -/
theorem escapeChar_append_inj {c d : Char} {r s : List Char}
    (h : escapeChar c ++ r = escapeChar d ++ s) : c = d ∧ r = s := by
  have hshort : ∀ e ∈ shortEscapes, e.2 ≠ 'u' ∧ ∀ e' ∈ shortEscapes, e.2 = e'.2 → e = e' := by
    simp [shortEscapes]
  rcases escapeChar_cases c with ⟨hc, hce⟩ | ⟨x, hx, hce⟩ | hce <;>
    rcases escapeChar_cases d with ⟨hd, hde⟩ | ⟨y, hy, hde⟩ | hde <;>
    simp only [hce, hde, List.cons_append, List.nil_append, List.append_assoc, List.cons.injEq] at h
  case inl.inl => exact h
  case inr.inl.inr.inl =>
    obtain ⟨-, hxy, hrs⟩ := h
    exact ⟨(Prod.mk.inj ((hshort _ hx).2 _ hy hxy)).1, hrs⟩
  case inr.inr.inr.inr => exact hexDigits_append_inj h.2.2.2
  -- In all other cases the first or the second character differs.
  case inl.inr.inl | inl.inr.inr => exact absurd h.1 hc
  case inr.inl.inl | inr.inr.inl => exact absurd h.1.symm hd
  case inr.inl.inr.inr => exact absurd h.2.1 (hshort _ hx).1
  case inr.inr.inr.inl => exact absurd h.2.1.symm (hshort _ hy).1

theorem escapeChar_ne_nil (c : Char) : escapeChar c ≠ [] := by
  rcases escapeChar_cases c with ⟨-, h⟩ | ⟨x, -, h⟩ | h <;> simp [h]

theorem flatMap_escapeChar_inj {cs ds : List Char}
    (h : cs.flatMap escapeChar = ds.flatMap escapeChar) : cs = ds := by
  induction cs generalizing ds with
  | nil =>
    cases ds with
    | nil => rfl
    | cons d ds =>
      rw [List.flatMap_nil, List.flatMap_cons] at h
      exact absurd (List.append_eq_nil_iff.mp h.symm).1 (escapeChar_ne_nil d)
  | cons c cs ih =>
    cases ds with
    | nil =>
      rw [List.flatMap_nil, List.flatMap_cons] at h
      exact absurd (List.append_eq_nil_iff.mp h).1 (escapeChar_ne_nil c)
    | cons d ds =>
      rw [List.flatMap_cons, List.flatMap_cons] at h
      obtain ⟨rfl, hrest⟩ := escapeChar_append_inj h
      rw [ih hrest]

/-- A quoted text tells what was quoted. -/
theorem quote_injective : Function.Injective quote := by
  intro cs ds h
  have hlist := String.ofList_injective h
  exact flatMap_escapeChar_inj (List.append_cancel_right (List.cons.inj hlist).2)

end Fexpr.Text
