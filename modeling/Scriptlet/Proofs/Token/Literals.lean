import Scriptlet.Proofs.Token.Munch

/-!
# String literals

A backslash takes the character after it along, so whether a quote ends a
literal is told by pairing from the opening quote on. Where no backslash is
paired with a newline, the first quote that is not the second of a pair ends
the literal, and without one the literal has no end before the text has. A
spelling of a text pairs up in just this way, and is read as that text.
-/

set_option autoImplicit false

namespace Scriptlet

namespace Lexer

/-- The reader gets from one place of a text to another, past some tokens. -/
inductive Arrives : Position → List Char → List Token → Position → List Char → Prop where
  | here (p : Position) (cs : List Char) : Arrives p cs [] p cs
  | blank {p q : Position} {cs taken rest ds : List Char} {ts : List Token}
      (h : Munch cs ⟨.blank, taken, rest⟩) (hr : Arrives (p.walk taken) rest ts q ds) :
      Arrives p cs ts q ds
  | token {p q : Position} {cs taken rest ds : List Char} {kind : Token.Kind} {ts : List Token}
      (h : Munch cs ⟨.token kind, taken, rest⟩) (hr : Arrives (p.walk taken) rest ts q ds) :
      Arrives p cs (⟨kind, ⟨p, p.walk taken⟩⟩ :: ts) q ds

/-- The tokens of a text that begins at a position. -/
def tokensAt (p : Position) (cs : List Char) : Except Misread (List Token) :=
  tokensFrom cs.length p cs []

/-- Characters in which each backslash is paired with the one after it, and no quote is left
unpaired. -/
inductive Paired (after : Char → Prop) : List Char → Prop where
  | nil : Paired after []
  | char {c : Char} {cs : List Char} (hquote : c ≠ '"') (hslash : c ≠ '\\')
      (h : Paired after cs) : Paired after (c :: cs)
  | pair {c : Char} {cs : List Char} (hc : after c) (h : Paired after cs) :
      Paired after ('\\' :: c :: cs)

/-- The ways to write a text between quotes. -/
inductive Spells : List Char → List Char → Prop where
  | nil : Spells [] []
  | escaped {c : Char} {cs ds : List Char} (hc : c = '"' ∨ c = '\\') (h : Spells cs ds) :
      Spells (c :: cs) ('\\' :: c :: ds)
  | newline {cs ds : List Char} (h : Spells cs ds) : Spells ('\n' :: cs) ('\\' :: 'n' :: ds)
  | tab {cs ds : List Char} (h : Spells cs ds) : Spells ('\t' :: cs) ('\\' :: 't' :: ds)
  | raw {c : Char} {cs ds : List Char} (hquote : c ≠ '"') (hslash : c ≠ '\\')
      (h : Spells cs ds) : Spells (c :: cs) (c :: ds)

variable {p q : Position} {body cs ds rest : List Char} {ts : List Token}
  {result : Except Misread (List Token)}

/-! ## Reading on from a place -/

theorem Munches.tokensAt (h : Munches p cs result) : tokensAt p cs = result := by
  rw [Lexer.tokensAt, h.tokensFrom (Nat.le_refl _)]
  cases result <;> rfl

theorem munches_tokensAt (p : Position) (cs : List Char) : Munches p cs (tokensAt p cs) := by
  obtain ⟨result, h⟩ := exists_munches p cs
  rwa [h.tokensAt]

theorem tokensAt_token {kind : Token.Kind} {taken : List Char}
    (h : Munch cs ⟨.token kind, taken, rest⟩) :
    tokensAt p cs =
      (tokensAt (p.walk taken) rest).map (⟨kind, ⟨p, p.walk taken⟩⟩ :: ·) :=
  (Munches.token h (munches_tokensAt _ _)).tokensAt

theorem tokensAt_fault {fault : LexicalFault} {taken : List Char}
    (h : Munch cs ⟨.fault fault, taken, rest⟩) :
    tokensAt p cs = .error ⟨fault, ⟨p, p.walk taken⟩⟩ :=
  (Munches.fault h).tokensAt

/-- The tokens passed on the way come before those that are read from there. -/
theorem Arrives.tokensAt (h : Arrives p cs ts q ds) :
    tokensAt p cs = (tokensAt q ds).map (ts ++ ·) := by
  induction h with
  | here p cs =>
    cases hts : Lexer.tokensAt p cs <;> simp [Except.map]
  | blank hm _ ih =>
    rw [(Munches.blank hm (munches_tokensAt _ _)).tokensAt, ih]
  | @token p q cs taken rest ds kind ts hm _ ih =>
    rw [tokensAt_token hm, ih]
    cases Lexer.tokensAt q ds <;> rfl

theorem Arrives.walk (h : Arrives p cs ts q ds) : p.walk cs = q.walk ds := by
  induction h with
  | here => rfl
  | blank hm _ ih =>
    obtain ⟨c, cs, rfl, hs⟩ := hm.scan_eq
    rw [← ih, ← Position.walk_append, scan_split hs]
  | token hm _ ih =>
    obtain ⟨c, cs, rfl, hs⟩ := hm.scan_eq
    rw [← ih, ← Position.walk_append, scan_split hs]

/-! ## Where a literal ends -/

theorem Paired.extent (h : Paired (· ≠ '\n') body) (cs : List Char) :
    extent (body ++ cs) = (extent cs).prepend body := by
  induction h with
  | nil => rfl
  | char hquote hslash _ ih =>
    rw [List.cons_append, extent_cons hquote hslash, ih]
    rfl
  | pair hc _ ih =>
    rw [List.cons_append, List.cons_append, Lexer.extent, if_neg hc, ih]
    rfl

/-- The first quote that stands in no pair ends a literal. -/
theorem munch_closed (h : Paired (· ≠ '\n') body) (rest : List Char) :
    Munch ('"' :: (body ++ '"' :: rest))
      ⟨.token (.text (String.ofList (unescape body))), '"' :: (body ++ ['"']), rest⟩ := by
  have hextent : extent (body ++ '"' :: rest) = ⟨true, body ++ ['"'], rest⟩ := h.extent _
  have hm := munch_text (body ++ '"' :: rest)
  simpa only [text, hextent, if_true, List.dropLast_concat] using hm

/-- A backslash before a newline is left over, and the literal with it. -/
theorem munch_broken (h : Paired (· ≠ '\n') body) (rest : List Char) :
    Munch ('"' :: (body ++ '\\' :: '\n' :: rest))
      ⟨.fault .unterminatedText, '"' :: (body ++ ['\\']), '\n' :: rest⟩ := by
  have hextent : extent (body ++ '\\' :: '\n' :: rest) = ⟨false, body ++ ['\\'], '\n' :: rest⟩ :=
    h.extent _
  have hm := munch_text (body ++ '\\' :: '\n' :: rest)
  simpa only [text, hextent, Bool.false_eq_true, if_false] using hm

/-- Without a quote to end it, a literal goes on to the end of the text. -/
theorem extent_open (hquote : ∀ body rest, cs = body ++ '"' :: rest → ¬ Paired (fun _ => True) body)
    (hline : ∀ body rest, cs = body ++ '\\' :: '\n' :: rest → ¬ Paired (· ≠ '\n') body) :
    extent cs = ⟨false, cs, []⟩ := by
  fun_induction extent cs with
  | case1 => rfl
  | case2 cs => exact absurd .nil (hquote [] cs rfl)
  | case3 => rfl
  | case4 cs => exact absurd .nil (hline [] cs rfl)
  -- A part of what follows that pairs up does so after one more pair, or one more character.
  | case5 c cs hc ih =>
    rw [ih (fun body rest h hp => hquote ('\\' :: c :: body) rest (by simp [h]) (.pair trivial hp))
      (fun body rest h hp => hline ('\\' :: c :: body) rest (by simp [h]) (.pair hc hp))]
    rfl
  | case6 c cs hne hend hslash ih =>
    have hc : c ≠ '\\' := by
      rintro rfl
      cases cs with
      | nil => exact hend rfl rfl
      | cons d ds => exact hslash d ds rfl rfl
    rw [ih (fun body rest h hp => hquote (c :: body) rest (by simp [h]) (.char hne hc hp))
      (fun body rest h hp => hline (c :: body) rest (by simp [h]) (.char hne hc hp))]
    rfl

theorem munch_open
    (hquote : ∀ body rest, cs = body ++ '"' :: rest → ¬ Paired (fun _ => True) body)
    (hline : ∀ body rest, cs = body ++ '\\' :: '\n' :: rest → ¬ Paired (· ≠ '\n') body) :
    Munch ('"' :: cs) ⟨.fault .unterminatedText, '"' :: cs, []⟩ := by
  have hm := munch_text cs
  simpa only [text, extent_open hquote hline, Bool.false_eq_true, if_false] using hm

/-! ## Spellings -/

theorem Spells.paired (h : Spells cs ds) : Paired (· ≠ '\n') ds := by
  induction h with
  | nil => exact .nil
  | escaped hc _ ih => exact .pair (by rcases hc with rfl | rfl <;> decide) ih
  | newline _ ih => exact .pair (by decide) ih
  | tab _ ih => exact .pair (by decide) ih
  | raw hquote hslash _ ih => exact .char hquote hslash ih

theorem unescape_cons {c : Char} (hslash : c ≠ '\\') (cs : List Char) :
    unescape (c :: cs) = c :: unescape cs := by
  rw [unescape]
  intro d ds h
  exact absurd h hslash

theorem Spells.unescape (h : Spells cs ds) : unescape ds = cs := by
  induction h with
  | nil => rfl
  | escaped hc _ ih =>
    rw [Lexer.unescape, ih]
    rcases hc with rfl | rfl <;> rfl
  | newline _ ih => rw [Lexer.unescape, ih, if_pos rfl]
  | tab _ ih => rw [Lexer.unescape, ih, if_neg (by decide), if_pos rfl]
  | raw _ hslash _ ih => rw [unescape_cons hslash, ih]

end Lexer

open Lexer

/-- A string literal ends at the first quote that is not paired with a backslash before it. If
there is none, it is reported up to the end of the text; and where a backslash stands before a
newline, up to the backslash. -/
theorem tokenize_literal {text : String} {ts : List Token} {q : Position} {cs : List Char}
    (h : Arrives .origin text.toList ts q ('"' :: cs)) :
    (∀ body rest, cs = body ++ '"' :: rest → Paired (· ≠ '\n') body →
      let stop := q.walk ('"' :: (body ++ ['"']))
      tokenize text = (tokensAt stop rest).map
        (ts ++ ⟨.text (String.ofList (unescape body)), ⟨q, stop⟩⟩ :: ·)) ∧
    ((∀ body rest, cs = body ++ '"' :: rest → ¬ Paired (fun _ => True) body) →
      (∀ body rest, cs = body ++ '\\' :: '\n' :: rest → ¬ Paired (· ≠ '\n') body) →
      tokenize text = .error ⟨.unterminatedText, ⟨q, .walk .origin text.toList⟩⟩) ∧
    ∀ body rest, cs = body ++ '\\' :: '\n' :: rest → Paired (· ≠ '\n') body →
      tokenize text = .error ⟨.unterminatedText, ⟨q, q.walk ('"' :: (body ++ ['\\']))⟩⟩ := by
  have htext : tokenize text = (tokensAt q ('"' :: cs)).map (ts ++ ·) := h.tokensAt
  refine ⟨?closed, ?opened, ?broken⟩
  case closed =>
    rintro body rest rfl hp stop
    rw [htext, tokensAt_token (munch_closed hp rest)]
    cases tokensAt stop rest <;> simp [stop, Except.map]
  case opened =>
    intro hquote hline
    rw [htext, tokensAt_fault (munch_open hquote hline), h.walk]
    rfl
  case broken =>
    rintro body rest rfl hp
    rw [htext, tokensAt_fault (munch_broken hp rest)]
    rfl

/-- An escaped quote ends no literal. -/
theorem tokenize_literal_escaped :
    tokenize "1\"\\\"\"" = .ok [⟨.int 1, ⟨.origin, ⟨1, 0, 1⟩⟩⟩,
      ⟨.text "\"", ⟨⟨1, 0, 1⟩, ⟨5, 0, 5⟩⟩⟩, ending ⟨5, 0, 5⟩] ∧
    tokenize "\"\\\"" = .error ⟨.unterminatedText, ⟨.origin, ⟨3, 0, 3⟩⟩⟩ := by
  constructor
  · have harrives : Arrives .origin ("1\"\\\"\"" : String).toList
        [⟨.int 1, ⟨.origin, ⟨1, 0, 1⟩⟩⟩] ⟨1, 0, 1⟩ ['"', '\\', '"', '"'] :=
      .token (munch_scan '1' ['"', '\\', '"', '"']) (.here _ _)
    exact (tokenize_literal harrives).1 ['\\', '"'] [] rfl (.pair (by decide) .nil)
  · have harrives : Arrives .origin ("\"\\\"" : String).toList [] .origin ['"', '\\', '"'] :=
      .here _ _
    refine (tokenize_literal harrives).2.1 (fun body rest hcs hp => ?_) (fun body rest hcs _ => ?_)
    · have hbody : body = ['\\'] := by
        simp [List.cons_eq_append_iff] at hcs
        tauto
      rw [hbody] at hp
      cases hp with
      | char _ hslash _ => exact hslash rfl
    · simp [List.cons_eq_append_iff] at hcs

/-- With a newline after a backslash, a literal that does end is reported, and not up to the end of
the text. -/
theorem literal_continued :
    let text := "\"\\\n\""
    Arrives .origin text.toList [] .origin ('"' :: (['\\', '\n'] ++ '"' :: [])) ∧
      Paired (fun _ => True) ['\\', '\n'] ∧
      tokenize text = .error ⟨.unterminatedText, ⟨.origin, ⟨2, 0, 2⟩⟩⟩ ∧
      Position.walk .origin text.toList = ⟨4, 1, 1⟩ :=
  ⟨.here _ _, .pair trivial .nil, rfl, rfl⟩

/-- A literal that any spelling of a text makes is read as that text, alone and before any other
text. -/
theorem tokenize_spelling (s : String) {spelling : List Char} (h : Spells s.toList spelling) :
    let literal := '"' :: (spelling ++ ['"'])
    let stop := Position.walk .origin literal
    tokenize (String.ofList literal) = .ok [⟨.text s, ⟨.origin, stop⟩⟩, ending stop] ∧
      ∀ further : String, tokenize (String.ofList literal ++ further) =
        (tokensAt stop further.toList).map (⟨.text s, ⟨.origin, stop⟩⟩ :: ·) := by
  intro literal stop
  have hread (rest : List Char) : tokensAt .origin (literal ++ rest) =
      (tokensAt stop rest).map (⟨.text s, ⟨.origin, stop⟩⟩ :: ·) := by
    have hm := munch_closed h.paired rest
    rw [h.unescape, String.ofList_toList] at hm
    have hsplit : literal ++ rest = '"' :: (spelling ++ '"' :: rest) := by simp [literal]
    rw [hsplit, tokensAt_token hm]
  constructor
  · have halone := hread []
    rw [List.append_nil] at halone
    rw [tokenize, String.toList_ofList]
    exact halone
  · intro further
    rw [tokenize, String.toList_append, String.toList_ofList]
    exact hread further.toList

/-- Quotes, backslashes, tabs and newlines, and characters of more than one byte. -/
theorem tokenize_spelling_mixed :
    tokenize "\"é\\\"\\\\\n\\n\\t\"" = .ok [⟨.text "é\"\\\n\n\t", ⟨.origin, ⟨13, 1, 5⟩⟩⟩,
      ending ⟨13, 1, 5⟩] := by
  have hspells : Spells ("é\"\\\n\n\t" : String).toList
      ['é', '\\', '"', '\\', '\\', '\n', '\\', 'n', '\\', 't'] :=
    .raw (by decide) (by decide) <| .escaped (.inl rfl) <| .escaped (.inr rfl) <|
      .raw (by decide) (by decide) <| .newline <| .tab .nil
  exact (tokenize_spelling _ hspells).1

end Scriptlet
