import Scriptlet.Token.Lexer
import Mathlib.Data.List.Basic

/-!
# One piece of a text

What `scan` takes and what it leaves make up the text. It takes the same if
the text is cut off later on: a piece is the longest of its kind, so nothing
after it matters but its first character, and that only against a longer one.
-/

set_option autoImplicit false

namespace Scriptlet

namespace Lexer

variable {c : Char} {us body tail : List Char}

/-! ## Runs of characters -/

theorem takeWhile_cut {p : Char → Bool} (h : (us ++ (body ++ tail)).takeWhile p = us) :
    (us ++ body).takeWhile p = us := by
  induction us with
  | nil =>
    cases body with
    | nil => rfl
    | cons d ds =>
      by_cases hd : p d
      · simp [hd] at h
      · simp [hd]
  | cons u us ih =>
    by_cases hu : p u
    · simp only [List.cons_append, List.takeWhile_cons, hu, if_true, List.cons.injEq, true_and] at h
      simp only [List.cons_append, List.takeWhile_cons, hu, if_true, ih h]
    · simp [hu] at h

theorem dropWhile_of_takeWhile {p : Char → Bool} (h : (us ++ body).takeWhile p = us) :
    (us ++ body).dropWhile p = body := by
  have hsplit := List.takeWhile_append_dropWhile (p := p) (l := us ++ body)
  rw [h] at hsplit
  exact List.append_cancel_left hsplit

theorem run_cut {p : Char → Bool} {reading : List Char → Reading} {r : Reading}
    (h : run p reading (us ++ (body ++ tail)) = ⟨r, us, body ++ tail⟩) :
    run p reading (us ++ body) = ⟨r, us, body⟩ := by
  obtain ⟨hr, ht, -⟩ := Piece.mk.inj h
  have htake := takeWhile_cut ht
  rw [run, htake, dropWhile_of_takeWhile htake, ← hr, ht]

/-! ## Words -/

theorem isWordPart_of_isWordStart (h : isWordStart c = true) : isWordPart c = true := by
  simp only [isWordStart, isWordPart, Char.isAlphanum, Bool.or_eq_true] at h ⊢
  tauto

theorem isAlpha_iff {c : Char} : c.isAlpha = true ↔
    c.val ≥ 'A'.val ∧ c.val ≤ 'Z'.val ∨ c.val ≥ 'a'.val ∧ c.val ≤ 'z'.val := by
  have halpha : c.isAlpha = (decide (c.val ≥ 'A'.val ∧ c.val ≤ 'Z'.val) ||
    (decide (c.val ≥ 'a'.val) && decide (c.val ≤ 'z'.val))) := rfl
  simp only [halpha, Bool.or_eq_true, Bool.and_eq_true, decide_eq_true_eq]

theorem not_isDigit_of_isWordStart (h : isWordStart c = true) : c.isDigit = false := by
  cases hdigit : c.isDigit with
  | false => rfl
  | true =>
    simp only [isWordStart, Char.isDigit, Bool.or_eq_true, Bool.and_eq_true, decide_eq_true_eq,
      isAlpha_iff] at h hdigit
    rcases h with (h | h) | rfl
    · exact absurd (UInt32.le_trans h.1 hdigit.2) (by decide)
    · exact absurd (UInt32.le_trans h.1 hdigit.2) (by decide)
    · simp at hdigit

/-! ## Numbers -/

theorem number_append (cs : List Char) : (number cs).taken ++ (number cs).rest = cs := by
  unfold number
  have hsplit := List.takeWhile_append_dropWhile (p := Char.isDigit) (l := cs)
  split
  · rename_i rest hrest
    rw [hrest] at hsplit
    simpa [List.takeWhile_append_dropWhile] using hsplit
  · rename_i rest hrest
    exact hsplit

theorem number_cut {r : Reading}
    (h : number (us ++ (body ++ tail)) = ⟨r, us, body ++ tail⟩) :
    number (us ++ body) = ⟨r, us, body⟩ := by
  unfold number at h
  split at h
  · rename_i rest hrest
    dsimp only at h
    generalize hwhole : (us ++ (body ++ tail)).takeWhile Char.isDigit = whole at h
    generalize hfraction : rest.takeWhile (fun c => c.isDigit || decide (c = '.')) = fraction at h
    obtain ⟨hr, hus, hleft⟩ := Piece.mk.inj h
    have hdigits : ∀ d ∈ whole, d.isDigit := by
      rw [← hwhole]
      exact List.all_eq_true.mp List.all_takeWhile
    have hsplit : fraction ++ (body ++ tail) = rest := by
      rw [← hfraction, ← hleft, List.takeWhile_append_dropWhile]
    have hcut : (fraction ++ body).takeWhile (fun c => c.isDigit || decide (c = '.')) = fraction :=
      takeWhile_cut (hsplit ▸ hfraction)
    have htake : (whole ++ '.' :: (fraction ++ body)).takeWhile Char.isDigit = whole := by
      rw [List.takeWhile_append_of_pos hdigits]
      simp [Char.isDigit]
    have hdrop : (whole ++ '.' :: (fraction ++ body)).dropWhile Char.isDigit =
        '.' :: (fraction ++ body) := dropWhile_of_takeWhile htake
    have hall : us ++ body = whole ++ '.' :: (fraction ++ body) := by simp [← hus]
    rw [hall, number, htake, hdrop]
    simp only [hcut, dropWhile_of_takeWhile hcut, hr, hus]
  · rename_i hpoint
    obtain ⟨hr, hus, hleft⟩ := Piece.mk.inj h
    have htake := takeWhile_cut hus
    have hdrop := dropWhile_of_takeWhile htake
    rw [number, htake, hdrop, ← hr, hus]
    split
    · exact absurd hleft (hpoint _)
    · rfl

/-! ## String literals -/

theorem extent_append (cs : List Char) : (extent cs).taken ++ (extent cs).rest = cs := by
  fun_induction extent cs <;> simp_all [Extent.prepend]

theorem extent_cons (hquote : c ≠ '"') (hslash : c ≠ '\\') (cs : List Char) :
    extent (c :: cs) = (extent cs).prepend [c] := by
  rw [extent]
  · exact hquote
  · intro h
    exact absurd h hslash
  · intro d ds h
    exact absurd h hslash

theorem extent_cut (h : extent (us ++ (body ++ tail)) = ⟨true, us, body ++ tail⟩) :
    extent (us ++ body) = ⟨true, us, body⟩ := by
  generalize hcs : us ++ (body ++ tail) = cs at h
  fun_induction extent cs generalizing us with
  | case1 => simp at h
  | case2 cs =>
    obtain ⟨-, rfl, -⟩ := Extent.mk.inj h
    simp [extent]
  | case3 => simp at h
  | case4 => simp at h
  | case5 c cs hc ih =>
    cases he : extent cs with
    | mk closed taken rest =>
      rw [he] at h ih
      obtain ⟨rfl, rfl, rfl⟩ := Extent.mk.inj h
      have hrec := ih (by simpa using hcs) rfl
      simp [extent, hc, hrec, Extent.prepend]
  | case6 c cs hquote hend hslash ih =>
    cases he : extent cs with
    | mk closed taken rest =>
      rw [he] at h ih
      obtain ⟨rfl, rfl, rfl⟩ := Extent.mk.inj h
      have hrec := ih (by simpa using hcs) rfl
      have hc : c ≠ '\\' := by
        intro hc
        cases cs with
        | nil => exact hend hc rfl
        | cons d ds => exact hslash d ds hc rfl
      have hcons := extent_cons hquote hc (taken ++ body)
      rw [hrec] at hcons
      exact hcons

theorem text_append (cs : List Char) : (text cs).taken ++ (text cs).rest = '"' :: cs := by
  have hsplit := extent_append cs
  unfold text
  dsimp only
  split <;> simpa using hsplit

theorem text_cut {r : Reading} (hr : ∀ f, r ≠ .fault f)
    (h : text (us ++ (body ++ tail)) = ⟨r, '"' :: us, body ++ tail⟩) :
    text (us ++ body) = ⟨r, '"' :: us, body⟩ := by
  cases he : extent (us ++ (body ++ tail)) with
  | mk closed taken rest =>
    cases closed with
    | false =>
      simp only [text, he, Bool.false_eq_true, if_false] at h
      exact absurd (Piece.mk.inj h).1.symm (hr _)
    | true =>
      simp only [text, he, if_true] at h
      obtain ⟨rfl, htaken, rfl⟩ := Piece.mk.inj h
      obtain rfl := (List.cons.inj htaken).2
      rw [text, extent_cut he]
      rfl

/-! ## Marks -/

theorem mark_append (c : Char) (cs : List Char) :
    (mark c cs).taken ++ (mark c cs).rest = c :: cs := by
  have hsingle : (singleMark c cs).taken ++ (singleMark c cs).rest = c :: cs := by
    unfold singleMark
    split <;> rfl
  unfold mark
  split
  · exact hsingle
  · split
    · rfl
    · exact hsingle

theorem mark_cut {r : Reading} (hr : ∀ f, r ≠ .fault f)
    (h : mark c (us ++ (body ++ tail)) = ⟨r, c :: us, body ++ tail⟩) :
    mark c (us ++ body) = ⟨r, c :: us, body⟩ := by
  have hsingle {ds : List Char} (h : singleMark c ds = ⟨r, c :: us, body ++ tail⟩) :
      us = [] ∧ singleMark c body = ⟨r, [c], body⟩ := by
    unfold singleMark at h ⊢
    split at h
    · obtain ⟨rfl, hus, -⟩ := Piece.mk.inj h
      exact ⟨(List.cons.inj hus).2.symm, rfl⟩
    · exact absurd (Piece.mk.inj h).1.symm (hr _)
  cases hall : us ++ (body ++ tail) with
  | nil =>
    rw [hall, mark] at h
    obtain ⟨rfl, hone⟩ := hsingle h
    obtain rfl : body = [] := (List.append_eq_nil_iff.mp (List.append_eq_nil_iff.mp hall).2).1
    exact hone
  | cons d ds =>
    rw [hall] at h
    simp only [mark] at h
    split at h
    · rename_i m hm
      obtain ⟨rfl, hus, rfl⟩ := Piece.mk.inj h
      obtain rfl := (List.cons.inj hus).2
      simp [mark, hm]
    · rename_i hm
      obtain ⟨rfl, hone⟩ := hsingle h
      cases body with
      | nil => exact hone
      | cons e es =>
        obtain rfl : e = d := (List.cons.inj hall).1
        simp only [List.nil_append, mark, hm]
        exact hone

/-! ## All pieces -/

theorem scan_append (c : Char) (cs : List Char) :
    (scan c cs).taken ++ (scan c cs).rest = c :: cs := by
  unfold scan
  split_ifs with hblank hcomment hdigit hword hquote
  · exact List.takeWhile_append_dropWhile
  · exact List.takeWhile_append_dropWhile
  · exact number_append _
  · exact List.takeWhile_append_dropWhile
  · exact hquote ▸ text_append cs
  · exact mark_append c cs

theorem scan_cut {r : Reading} (hr : ∀ f, r ≠ .fault f)
    (h : scan c (us ++ (body ++ tail)) = ⟨r, c :: us, body ++ tail⟩) :
    scan c (us ++ body) = ⟨r, c :: us, body⟩ := by
  unfold scan at h ⊢
  split_ifs at h ⊢ with hblank hcomment hdigit hword hquote
  · exact run_cut (show run _ _ ((c :: us) ++ (body ++ tail)) = _ from h)
  · exact run_cut (show run _ _ ((c :: us) ++ (body ++ tail)) = _ from h)
  · exact number_cut (show number ((c :: us) ++ (body ++ tail)) = _ from h)
  · exact run_cut (show run _ _ ((c :: us) ++ (body ++ tail)) = _ from h)
  · exact hquote ▸ text_cut hr (hquote ▸ h)
  · exact mark_cut hr h

end Lexer

end Scriptlet
