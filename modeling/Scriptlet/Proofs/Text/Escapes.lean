import Scriptlet.Text.Quoted
import Mathlib.Data.List.TakeWhile

/-!
# Reading quoted text back

The characters between the quotes can be read back one by one, so that a
quoted text ends at the same place whatever comes after it, and no two texts
are quoted alike.
-/

set_option autoImplicit false

namespace Scriptlet.Text.Quoted

/-! ## Hexadecimal digits -/

def hexDigitValue (c : Char) : Nat := if c.isDigit then c.toNat - 48 else c.toNat - 87

/-- The number that a row of hexadecimal digits stands for. -/
def natOfHex (cs : List Char) : Nat := cs.foldl (fun n c => 16 * n + hexDigitValue c) 0

theorem hexDigitValue_digitChar : ∀ d < 16, hexDigitValue d.digitChar = d := by decide

theorem digitChar_ne_brace : ∀ d < 16, d.digitChar ≠ '\x7d' := by decide

theorem natOfHex_hex (n : Nat) : natOfHex (hex n) = n := by
  unfold hex
  induction n using Nat.base_induction 16 (by decide) with
  | single m hm => simp [Nat.toDigits_of_lt_base hm, natOfHex, hexDigitValue_digitChar m hm]
  | digit m d hd hm ih =>
    rw [← Nat.toDigits_append_toDigits (by decide) hm hd, natOfHex, List.foldl_append]
    rw [natOfHex] at ih
    rw [ih, Nat.toDigits_of_lt_base hd, List.foldl_cons, List.foldl_nil,
      hexDigitValue_digitChar d hd]

theorem brace_not_mem_hex (n : Nat) : '\x7d' ∉ hex n := by
  unfold hex
  induction n using Nat.base_induction 16 (by decide) with
  | single m hm =>
    rw [Nat.toDigits_of_lt_base hm, List.mem_singleton]
    exact (digitChar_ne_brace m hm).symm
  | digit m d hd hm ih =>
    rw [← Nat.toDigits_append_toDigits (by decide) hm hd, List.mem_append, not_or,
      Nat.toDigits_of_lt_base hd, List.mem_singleton]
    exact ⟨ih, (digitChar_ne_brace d hd).symm⟩

/-! ## Characters -/

/-- The character that is written at the start of a text, and what comes after it; none where the
quoted text ends. -/
def readChar? : List Char → Option (Char × List Char)
  | '\\' :: '0' :: cs => some ('\x00', cs)
  | '\\' :: 't' :: cs => some ('\t', cs)
  | '\\' :: 'r' :: cs => some ('\r', cs)
  | '\\' :: 'n' :: cs => some ('\n', cs)
  | '\\' :: 'u' :: '\x7b' :: cs =>
    some (Char.ofNat (natOfHex (cs.takeWhile (· ≠ '\x7d'))), (cs.dropWhile (· ≠ '\x7d')).tail)
  | '\\' :: c :: cs => some (c, cs)
  | '"' :: _ => none
  | c :: cs => some (c, cs)
  | [] => none

theorem readChar?_codePoint (c : Char) (cs : List Char) :
    readChar? (codePoint c ++ cs) = some (c, cs) := by
  have hpass : ∀ d ∈ hex c.toNat, decide (d ≠ '\x7d') = true := fun d hd =>
    decide_eq_true fun h => brace_not_mem_hex _ (h ▸ hd)
  simp only [codePoint, List.cons_append, List.append_assoc, List.nil_append, readChar?]
  rw [List.takeWhile_append_of_pos hpass, List.dropWhile_append_of_pos hpass]
  simp [natOfHex_hex]

theorem readChar?_plain {c : Char} (hquote : c ≠ '"') (hslash : c ≠ '\\') (cs : List Char) :
    readChar? (c :: cs) = some (c, cs) := by
  unfold readChar?
  split <;> simp_all

theorem readChar?_encodeChar (c : Char) (cs : List Char) :
    readChar? (encodeChar c ++ cs) = some (c, cs) := by
  unfold encodeChar
  split_ifs with hzero htab hreturn hnewline hquote hslash
  · rw [hzero]; rfl
  · rw [htab]; rfl
  · rw [hreturn]; rfl
  · rw [hnewline]; rfl
  · rw [hquote]; rfl
  · rw [hslash]; rfl
  · exact readChar?_plain hquote hslash cs
  · exact readChar?_codePoint c cs
  · exact readChar?_plain hquote hslash cs

/-- A quoted text says where it ends and which text it stands for. -/
theorem encode_append_inj {cs ds us vs : List Char} (h : encode cs ++ us = encode ds ++ vs) :
    cs = ds ∧ us = vs := by
  simp only [encode, List.cons_append, List.append_assoc, List.nil_append, List.cons.injEq,
    true_and] at h
  induction cs generalizing ds with
  | nil =>
    cases ds with
    | nil => simpa using h
    | cons d ds =>
      have hread := congrArg readChar? h
      rw [List.flatMap_cons, List.append_assoc, readChar?_encodeChar] at hread
      cases hread
  | cons c cs ih =>
    have hread := congrArg readChar? h
    rw [List.flatMap_cons, List.append_assoc, readChar?_encodeChar] at hread
    cases ds with
    | nil => cases hread
    | cons d ds =>
      rw [List.flatMap_cons, List.append_assoc, readChar?_encodeChar] at hread
      obtain ⟨rfl, hrest⟩ := Prod.mk.inj (Option.some.inj hread)
      obtain ⟨rfl, rfl⟩ := ih hrest
      exact ⟨rfl, rfl⟩

end Scriptlet.Text.Quoted
