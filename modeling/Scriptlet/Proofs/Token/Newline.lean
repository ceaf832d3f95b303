import Scriptlet.Proofs.Token.Lexing

/-!
# Two texts with a newline between them

No piece but an unfinished string literal goes on over a newline. So where two
texts have tokens, the first with a newline and the second after it has those
of the first, a separator, and those of the second.
-/

set_option autoImplicit false

namespace Scriptlet

namespace Lexer

variable {c : Char} {cs taken rest : List Char} {r : Reading}

/-! ## Pieces before a newline -/

theorem takeWhile_newline {p : Char → Bool} (hp : p '\n' = false) (cs ds : List Char) :
    (cs ++ '\n' :: ds).takeWhile p = cs.takeWhile p := by
  induction cs with
  | nil => simp [hp]
  | cons c cs ih => simp only [List.cons_append, List.takeWhile_cons, ih]

theorem dropWhile_newline {p : Char → Bool} (hp : p '\n' = false) (cs ds : List Char) :
    (cs ++ '\n' :: ds).dropWhile p = cs.dropWhile p ++ '\n' :: ds := by
  induction cs with
  | nil => simp [hp]
  | cons c cs ih =>
    simp only [List.cons_append, List.dropWhile_cons, ih]
    split <;> rfl

/-- The piece with more text after it. -/
def Piece.before (piece : Piece) (ds : List Char) : Piece := { piece with rest := piece.rest ++ ds }

theorem while_newline {p : Char → Bool} (hp : p '\n' = false) (reading : List Char → Reading)
    (cs ds : List Char) :
    run p reading (cs ++ '\n' :: ds) = (run p reading cs).before ('\n' :: ds) := by
  simp only [run, Piece.before, takeWhile_newline hp, dropWhile_newline hp]

theorem number_newline (cs ds : List Char) :
    number (cs ++ '\n' :: ds) = (number cs).before ('\n' :: ds) := by
  have hdigit : Char.isDigit '\n' = false := by decide
  have htake := takeWhile_newline (p := fun c => c.isDigit || decide (c = '.')) (by decide)
  have hdrop := dropWhile_newline (p := fun c => c.isDigit || decide (c = '.')) (by decide)
  simp only [number, takeWhile_newline hdigit, dropWhile_newline hdigit]
  cases cs.dropWhile Char.isDigit with
  | nil => rfl
  | cons d rest =>
    by_cases hd : d = '.'
    · subst hd
      simp only [List.cons_append, htake, hdrop, Piece.before]
    · simp [hd, Piece.before]

theorem extent_append_of_closed (h : (extent cs).closed = true) (ds : List Char) :
    extent (cs ++ ds) = ⟨true, (extent cs).taken, (extent cs).rest ++ ds⟩ := by
  fun_induction extent cs with
  | case1 => simp at h
  | case2 cs => rfl
  | case3 => simp at h
  | case4 => simp at h
  | case5 c cs hc ih =>
    simp only [List.cons_append, extent, hc, if_false, ih h, Extent.prepend]
  | case6 c cs hquote hend hslash ih =>
    have hc : c ≠ '\\' := by
      rintro rfl
      cases cs with
      | nil => exact hend rfl rfl
      | cons d ds => exact hslash d ds rfl rfl
    rw [List.cons_append, extent_cons hquote hc, ih h]
    rfl

theorem text_newline (hr : ∀ f, (text cs).reading ≠ .fault f) (ds : List Char) :
    text (cs ++ '\n' :: ds) = (text cs).before ('\n' :: ds) := by
  cases hclosed : (extent cs).closed with
  | false => exact absurd (by simp [text, hclosed]) (hr .unterminatedText)
  | true => simp [text, hclosed, extent_append_of_closed hclosed, Piece.before]

theorem mark_newline (c : Char) (cs ds : List Char) :
    mark c (cs ++ '\n' :: ds) = (mark c cs).before ('\n' :: ds) := by
  have hsingle (es : List Char) : singleMark c (es ++ '\n' :: ds) =
      (singleMark c es).before ('\n' :: ds) := by
    unfold singleMark
    split <;> rfl
  cases cs with
  | nil =>
    have hpair : pair? c '\n' = none := by
      unfold pair?
      split <;> simp_all
    simp only [List.nil_append, mark, hpair]
    exact hsingle []
  | cons d es =>
    simp only [List.cons_append, mark]
    cases pair? c d with
    | some m => rfl
    | none => exact hsingle (d :: es)

theorem scan_newline (hr : ∀ f, r ≠ .fault f) (h : scan c cs = ⟨r, taken, rest⟩)
    (ds : List Char) : scan c (cs ++ '\n' :: ds) = ⟨r, taken, rest ++ '\n' :: ds⟩ := by
  have hpiece : (scan c cs).before ('\n' :: ds) = ⟨r, taken, rest ++ '\n' :: ds⟩ := by
    rw [h, Piece.before]
  rw [← hpiece]
  unfold scan at h ⊢
  split_ifs at h ⊢ with hblank hcomment hdigit hword hquote
  · exact while_newline (by decide) _ (c :: cs) ds
  · exact while_newline (by decide) _ (c :: cs) ds
  · exact number_newline (c :: cs) ds
  · exact while_newline (by decide) _ (c :: cs) ds
  · exact text_newline (by rwa [h]) ds
  · exact mark_newline c cs ds

/-! ## Tokens of both texts -/

/-- The separator that a newline makes. -/
def newline (p : Position) : Token := ⟨.mark .separator, ⟨p, p.advance '\n'⟩⟩

theorem Lexes.newline {p : Position} {ds : List Char} {ts us : List Token} (h : Lexes p cs ts)
    (h' : Lexes ((p.walk cs).advance '\n') ds us) :
    ∃ init, ts = init ++ [ending (p.walk cs)] ∧
      Lexes p (cs ++ '\n' :: ds) (init ++ Lexer.newline (p.walk cs) :: us) := by
  induction h with
  | stop p =>
    refine ⟨[], rfl, ?_⟩
    have hscan : scan '\n' ds = ⟨.token (.mark .separator), ['\n'], ds⟩ := by
      cases ds <;> rfl
    exact .token hscan h'
  | @blank p c cs taken rest ts hs _ ih =>
    have hwalk : (p.walk taken).walk rest = p.walk (c :: cs) := by
      rw [← Position.walk_append, scan_split hs]
    rw [hwalk] at ih
    obtain ⟨init, hts, hlex⟩ := ih h'
    exact ⟨init, hts, .blank (scan_newline (by simp) hs ds) hlex⟩
  | @token p c cs taken rest kind ts hs _ ih =>
    have hwalk : (p.walk taken).walk rest = p.walk (c :: cs) := by
      rw [← Position.walk_append, scan_split hs]
    rw [hwalk] at ih
    obtain ⟨init, rfl, hlex⟩ := ih h'
    exact ⟨_ :: init, rfl, .token (scan_newline (by simp) hs ds) hlex⟩

end Lexer

/-- The tokens of two texts with a newline between them, but for where they stand. -/
theorem tokenize_newline {a b : String} {ts us : List Token} (ha : tokenize a = .ok ts)
    (hb : tokenize b = .ok us) :
    ∃ init p q ws, ts = init ++ [Lexer.ending p] ∧ kinds ws = kinds us ∧
      tokenize (a ++ "\n" ++ b) = .ok (init ++ Lexer.newline q :: ws) := by
  obtain ⟨ws, hws, hk⟩ := (Lexer.tokenize_iff.mp hb).shift
    ((Position.origin.walk a.toList).advance '\n')
  obtain ⟨init, hts, hlex⟩ := (Lexer.tokenize_iff.mp ha).newline hws
  have htext : (a ++ "\n" ++ b).toList = a.toList ++ '\n' :: b.toList := by simp
  rw [← htext] at hlex
  exact ⟨init, _, _, ws, hts, hk, Lexer.tokenize_iff.mpr hlex⟩

end Scriptlet
