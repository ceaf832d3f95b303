import Mathlib.Data.List.TakeWhile
import Scriptlet.Proofs.Token.Lexing
import Scriptlet.Proofs.Token.Patterns

/-!
# Maximal munch

The pieces of a text are told by the patterns alone: each is the longest that
any pattern matches there, and a reserved word rather than a name. The reader
goes from one to the next, up to the end of the text, to the first piece that
is at fault, or to a character at which nothing matches.
-/

set_option autoImplicit false

namespace Scriptlet

namespace Lexer

open Computability

/-! ## The longest match -/

/-- Of two patterns for the same characters, the one that wins. -/
inductive Pattern.Precedes : Pattern → Pattern → Prop where
  | reserved (word : Keyword) : Precedes (.reserved word) .name

/-- What the characters that a pattern matches are read as. -/
inductive Pattern.Reads : Pattern → List Char → Reading → Prop where
  | blanks (cs : List Char) : Reads .blanks cs .blank
  | comment (cs : List Char) : Reads .comment cs .blank
  | int {cs : List Char} {n : Int64} (h : n.toInt = Decimal.natOfDigits cs) :
      Reads .whole cs (.token (.int n))
  | tooLarge {cs : List Char} (h : 2 ^ 63 - 1 < Decimal.natOfDigits cs) :
      Reads .whole cs (.fault .integerTooLarge)
  | float {whole fraction : List Char} (h : '.' ∉ whole) (h' : '.' ∉ fraction) :
      Reads .decimal (whole ++ '.' :: fraction)
        (.token (.float (Decimal.ofDigits whole fraction 0)))
  | manyPoints {cs : List Char} (h : 2 ≤ cs.count '.') : Reads .decimal cs (.fault .manyPoints)
  | text (body : List Char) :
      Reads .closedText ('"' :: (body ++ ['"'])) (.token (.text (String.ofList (unescape body))))
  | unterminated (cs : List Char) : Reads .openText cs (.fault .unterminatedText)
  | name (cs : List Char) : Reads .name cs (.token (.identifier (String.ofList cs)))
  | reserved (word : Keyword) (cs : List Char) : Reads (.reserved word) cs (.token (.keyword word))
  | mark (m : Mark) (cs : List Char) : Reads (.mark m) cs (.token (.mark m))

/-- No pattern matches more of the text than this one does, nor wins over it. -/
structure Longest (pat : Pattern) (taken rest : List Char) : Prop where
  matched : taken ∈ pat.language
  longest : ∀ (q : Pattern) (us : List Char), us ∈ q.language → us <+: taken ++ rest →
    us.length ≤ taken.length
  first : ∀ q : Pattern, taken ∈ q.language → q = pat ∨ pat.Precedes q

/-- The piece at the start of a text: the longest match, or a single character at which no pattern
matches anything. -/
inductive Munch : List Char → Piece → Prop where
  | longest {pat : Pattern} {taken rest : List Char} {r : Reading} (h : Longest pat taken rest)
      (hr : pat.Reads taken r) : Munch (taken ++ rest) ⟨r, taken, rest⟩
  | illegal {c : Char} {cs : List Char}
      (h : ∀ (q : Pattern) (us : List Char), us ∈ q.language → ¬ us <+: c :: cs) :
      Munch (c :: cs) ⟨.fault (.illegalCharacter c), [c], cs⟩

/-- The tokens of a text that begins at a position, or the first of its faults. -/
inductive Munches : Position → List Char → Except Misread (List Token) → Prop where
  | stop (p : Position) : Munches p [] (.ok [ending p])
  | blank {p : Position} {cs taken rest : List Char} {result : Except Misread (List Token)}
      (h : Munch cs ⟨.blank, taken, rest⟩) (hr : Munches (p.walk taken) rest result) :
      Munches p cs result
  | token {p : Position} {cs taken rest : List Char} {kind : Token.Kind}
      {result : Except Misread (List Token)} (h : Munch cs ⟨.token kind, taken, rest⟩)
      (hr : Munches (p.walk taken) rest result) :
      Munches p cs (result.map (⟨kind, ⟨p, p.walk taken⟩⟩ :: ·))
  | fault {p : Position} {cs taken rest : List Char} {fault : LexicalFault}
      (h : Munch cs ⟨.fault fault, taken, rest⟩) :
      Munches p cs (.error ⟨fault, ⟨p, p.walk taken⟩⟩)

/-! ## At most one piece -/

variable {pat pat' : Pattern} {taken taken' rest rest' us vs cs : List Char} {c : Char}
  {r r' : Reading} {piece piece' : Piece}

theorem count_point {whole fraction : List Char} (h : '.' ∉ whole) (h' : '.' ∉ fraction) :
    (whole ++ '.' :: fraction).count '.' = 1 := by
  rw [List.count_append, List.count_cons_self, List.count_eq_zero_of_not_mem h,
    List.count_eq_zero_of_not_mem h']

theorem Pattern.Reads.unique (h : pat.Reads cs r) (h' : pat.Reads cs r') : r = r' := by
  cases h with
  | @int cs n hn =>
    cases h' with
    | int hm => rw [Int64.toInt_inj.mp (hn.trans hm.symm)]
    | tooLarge hm =>
      have hlt := n.toInt_lt
      omega
  | tooLarge hn =>
    cases h' with
    | @int cs n hm =>
      have hlt := n.toInt_lt
      omega
    | tooLarge => rfl
  | float hw hf =>
    generalize hcs : _ ++ '.' :: _ = ds at h'
    cases h' with
    | float hw' hf' =>
      obtain ⟨rfl, -, rfl⟩ := (List.append_cons_inj_of_notMem hw hf).mp hcs
      rfl
    | manyPoints hmany =>
      have hone := count_point hw hf
      rw [hcs] at hone
      omega
  | manyPoints hmany =>
    cases h' with
    | float hw hf =>
      have hone := count_point hw hf
      omega
    | manyPoints => rfl
  | text body =>
    generalize hcs : '"' :: (body ++ ['"']) = ds at h'
    cases h' with
    | text body' => rw [List.append_cancel_right (List.cons.inj hcs).2]
  | _ =>
    cases h'
    rfl

theorem Longest.unique (h : Longest pat taken rest) (h' : Longest pat' taken' rest')
    (heq : taken ++ rest = taken' ++ rest') : taken = taken' ∧ rest = rest' ∧ pat = pat' := by
  have hle := h'.longest pat taken h.matched (heq ▸ List.prefix_append taken rest)
  have hge := h.longest pat' taken' h'.matched (heq ▸ List.prefix_append taken' rest')
  obtain ⟨rfl, rfl⟩ := List.append_inj heq (Nat.le_antisymm hle hge)
  refine ⟨rfl, rfl, ?_⟩
  rcases h.first pat' h'.matched with rfl | hfirst
  · rfl
  · rcases h'.first pat h.matched with rfl | hfirst'
    · rfl
    · cases hfirst
      cases hfirst'

theorem Munch.unique (h : Munch cs piece) (h' : Munch cs piece') : piece = piece' := by
  generalize hcs : cs = ds at h'
  cases h with
  | longest hl hr =>
    cases h' with
    | longest hl' hr' =>
      obtain ⟨rfl, rfl, rfl⟩ := hl.unique hl' hcs
      rw [hr.unique hr']
    | illegal hnone => exact absurd (hcs ▸ List.prefix_append _ _) (hnone _ _ hl.matched)
  | illegal hnone =>
    cases h' with
    | longest hl' hr' => exact absurd (hcs ▸ List.prefix_append _ _) (hnone _ _ hl'.matched)
    | illegal hnone' =>
      obtain ⟨rfl, rfl⟩ := List.cons.inj hcs
      rfl

/-! ## Patterns of one group -/

/-- Only patterns for which the first character is right need to be looked at. -/
theorem Munch.of_group (pat : Pattern) (hcs : taken ++ rest = cs) (hm : taken ∈ pat.language)
    (hlong : ∀ (q : Pattern) (us vs : List Char), q.group = pat.group → us ∈ q.language →
      us ++ vs = cs → us.length ≤ taken.length)
    (hfirst : ∀ q : Pattern, q.group = pat.group → taken ∈ q.language →
      q = pat ∨ pat.Precedes q)
    (hr : pat.Reads taken r) : Munch cs ⟨r, taken, rest⟩ := by
  subst hcs
  obtain ⟨c, v, rfl, hc⟩ := Pattern.group_of_mem hm
  refine .longest ⟨hm, fun q us hus hpre => ?_, fun q hq => ?_⟩ hr
  · obtain ⟨vs, hvs⟩ := hpre
    obtain ⟨d, w, rfl, hd⟩ := Pattern.group_of_mem hus
    obtain rfl : d = c := (List.cons.inj hvs).1
    exact hlong q _ vs (hd.symm.trans hc) hus hvs
  · obtain ⟨d, w, heq, hd⟩ := Pattern.group_of_mem hq
    obtain rfl : c = d := (List.cons.inj heq).1
    exact hfirst q (hd.symm.trans hc) hq

theorem length_le_takeWhile {p : Char → Bool} (h : ∀ d ∈ us, p d = true) (heq : us ++ vs = cs) :
    us.length ≤ (cs.takeWhile p).length := by
  rw [← heq, List.takeWhile_append_of_pos h, List.length_append]
  exact Nat.le_add_right ..

theorem takeWhile_mem {s t : Set Char} {p : Char → Bool} (hp : ∀ d, d ∈ t ↔ p d = true)
    (hs : c ∈ s) (ht : c ∈ t) (cs : List Char) :
    (c :: cs).takeWhile p ∈ oneOf s * (oneOf t)∗ := by
  rw [List.takeWhile_cons, if_pos ((hp c).mp ht), mem_oneOf_mul_kstar]
  exact ⟨c, hs, _, fun d hd => (hp d).mpr (List.mem_takeWhile_imp hd), rfl⟩

/-! ## Blanks and comments -/

/-- A run of characters, where no other pattern begins with the first of them. -/
theorem munch_run (pat : Pattern) {s t : Set Char} {p : Char → Bool}
    (hpat : pat.language = oneOf s * (oneOf t)∗) (hgroup : ∀ q, q.group = pat.group → q = pat)
    (hp : ∀ d, d ∈ t ↔ p d = true) (hst : s ⊆ t) (hc : c ∈ s) (hr : ∀ w, pat.Reads w r) :
    Munch (c :: cs) (run p (fun _ => r) (c :: cs)) := by
  refine .of_group pat List.takeWhile_append_dropWhile
    (hpat ▸ takeWhile_mem hp hc (hst hc) cs) ?_ (fun q hq _ => .inl (hgroup q hq)) (hr _)
  intro q us vs hq hus heq
  obtain rfl := hgroup q hq
  obtain ⟨d, hd, v, hv, rfl⟩ := mem_oneOf_mul_kstar.mp (hpat ▸ hus)
  exact length_le_takeWhile
    (List.forall_mem_cons.mpr ⟨(hp d).mp (hst hd), fun e he => (hp e).mp (hv e he)⟩) heq

theorem munch_blanks (hc : isBlank c = true) (cs : List Char) :
    Munch (c :: cs) (run isBlank (fun _ => .blank) (c :: cs)) :=
  munch_run .blanks rfl (fun q hq => by cases q <;> first | rfl | cases hq)
    (fun _ => mem_blankChars) subset_rfl (mem_blankChars.mpr hc) .blanks

theorem munch_comment (cs : List Char) :
    Munch ('#' :: cs) (run (· ≠ '\n') (fun _ => .blank) ('#' :: cs)) :=
  munch_run .comment rfl (fun q hq => by cases q <;> first | rfl | cases hq)
    (fun d => by simp) (by simp) rfl .comment

/-! ## Words -/

theorem all_isWordPart {q : Pattern} (hq : q.group = .word) (h : us ∈ q.language) :
    ∀ d ∈ us, isWordPart d = true := by
  cases q with
  | name =>
    obtain ⟨d, hd, v, hv, rfl⟩ := mem_oneOf_mul_kstar.mp h
    exact List.forall_mem_cons.mpr
      ⟨mem_wordParts.mp (.inl hd), fun e he => mem_wordParts.mp (hv e he)⟩
  | reserved word =>
    obtain rfl : us = word.spelling.toList := h
    exact List.all_eq_true.mp (by cases word <;> rfl)
  | _ => cases hq

theorem mem_reserved {word : Keyword} :
    us ∈ (Pattern.reserved word).language ↔
      Keyword.ofSpelling? (String.ofList us) = some word := by
  constructor
  · intro h
    obtain rfl : us = word.spelling.toList := h
    rw [String.ofList_toList, Keyword.ofSpelling?_spelling]
  · intro h
    have hspelling : word.spelling = String.ofList us := by simpa using List.find?_some h
    exact (String.toList_ofList ▸ congrArg String.toList hspelling).symm

theorem munch_word (hc : isWordStart c = true) (cs : List Char) :
    Munch (c :: cs) (run isWordPart wordReading (c :: cs)) := by
  have hname : (c :: cs).takeWhile isWordPart ∈ Pattern.name.language :=
    takeWhile_mem (fun _ => mem_wordParts) (mem_wordStarts.mpr hc)
      (mem_wordParts.mpr (isWordPart_of_isWordStart hc)) cs
  have hlong (q : Pattern) (us vs : List Char) (hq : q.group = .word) (hus : us ∈ q.language)
      (heq : us ++ vs = c :: cs) : us.length ≤ ((c :: cs).takeWhile isWordPart).length :=
    length_le_takeWhile (all_isWordPart hq hus) heq
  simp only [run, wordReading]
  cases hk : Keyword.ofSpelling? (String.ofList ((c :: cs).takeWhile isWordPart)) with
  | some word =>
    refine .of_group (.reserved word) List.takeWhile_append_dropWhile (mem_reserved.mpr hk)
      hlong (fun q hq hus => ?_) (.reserved word _)
    cases q with
    | name => exact .inr (.reserved word)
    | reserved word' =>
      obtain rfl : word = word' := Option.some.inj (hk.symm.trans (mem_reserved.mp hus))
      exact .inl rfl
    | _ => cases hq
  | none =>
    refine .of_group .name List.takeWhile_append_dropWhile hname hlong
      (fun q hq hus => ?_) (.name _)
    cases q with
    | name => exact .inl rfl
    | reserved word => cases hk.symm.trans (mem_reserved.mp hus)
    | _ => cases hq

/-! ## Numbers -/

theorem takeWhile_isDigit {ds : List Char} (h : ∀ d ∈ ds, d ∈ digitChars) (vs : List Char) :
    (ds ++ '.' :: vs).takeWhile Char.isDigit = ds ∧
      (ds ++ '.' :: vs).dropWhile Char.isDigit = '.' :: vs := by
  have hds : ∀ d ∈ ds, d.isDigit = true := fun d hd => mem_digitChars.mp (h d hd)
  have htake : (ds ++ '.' :: vs).takeWhile Char.isDigit = ds := by
    rw [List.takeWhile_append_of_pos hds]
    simp [Char.isDigit]
  exact ⟨htake, dropWhile_of_takeWhile htake⟩

theorem point_notMem {ds : List Char} (h : ∀ d ∈ ds, d ∈ digitChars) : '.' ∉ ds :=
  fun hp => absurd (mem_digitChars.mp (h _ hp)) (by decide)

theorem reads_integer (cs : List Char) : Pattern.Reads .whole cs (integerReading cs) := by
  have hmax : Int64.maxValue.toInt = 2 ^ 63 - 1 := rfl
  simp only [integerReading]
  split
  · next hn => exact .int (Int64.toInt_ofNat_of_lt (by omega))
  · next hn => exact .tooLarge (by omega)

theorem reads_decimal {whole fraction : List Char} (h : '.' ∉ whole) :
    Pattern.Reads .decimal (whole ++ '.' :: fraction) (decimalReading whole fraction) := by
  simp only [decimalReading, List.contains_iff_mem]
  split
  · next hp =>
    refine .manyPoints ?_
    have hpos := List.count_pos_iff.mpr hp
    rw [List.count_append, List.count_cons_self]
    omega
  · next hp => exact .float h hp

/-- Digits with a point after them. -/
theorem munch_decimal {whole : List Char} (hw : whole ∈ Pattern.whole.language)
    (vs : List Char) :
    Munch (whole ++ '.' :: vs) (number (whole ++ '.' :: vs)) := by
  have hdigits := (mem_whole.mp hw).2
  obtain ⟨htake, hdrop⟩ := takeWhile_isDigit hdigits vs
  simp only [number, htake, hdrop]
  have hpart (d : Char) : d ∈ digitChars ∨ d = '.' ↔ (d.isDigit || decide (d = '.')) = true := by
    simp [mem_digitChars]
  refine .of_group .decimal (by simp [List.takeWhile_append_dropWhile])
    (mem_decimal.mpr ⟨whole, _, hw, ?_, rfl⟩) ?_ ?_ (reads_decimal (point_notMem hdigits))
  · intro d hd
    exact (hpart d).mpr (List.mem_takeWhile_imp hd :)
  · intro q us ws hq hus heq
    cases q with
    | whole =>
      have hlen := length_le_takeWhile
        (fun d hd => mem_digitChars.mp ((mem_whole.mp hus).2 d hd)) heq
      rw [htake] at hlen
      simp only [List.length_append, List.length_cons]
      omega
    | decimal =>
      obtain ⟨ds, f, hds, hf, rfl⟩ := mem_decimal.mp hus
      rw [List.append_assoc, List.cons_append] at heq
      obtain ⟨htake', hdrop'⟩ := takeWhile_isDigit (mem_whole.mp hds).2 (f ++ ws)
      rw [heq, htake] at htake'
      rw [heq, hdrop] at hdrop'
      have hlen := length_le_takeWhile (fun d hd => (hpart d).mp (hf d hd))
        (List.cons.inj hdrop').2.symm
      simp only [htake', List.length_append, List.length_cons]
      omega
    | _ => cases hq
  · intro q hq hus
    cases q with
    | whole => exact absurd (by simp) (point_notMem (mem_whole.mp hus).2)
    | decimal => exact .inl rfl
    | _ => cases hq

theorem munch_number (hc : c.isDigit = true) (cs : List Char) :
    Munch (c :: cs) (number (c :: cs)) := by
  have hw : (c :: cs).takeWhile Char.isDigit ∈ Pattern.whole.language :=
    takeWhile_mem (fun _ => mem_digitChars) (mem_digitChars.mpr hc) (mem_digitChars.mpr hc) cs
  have hsplit := List.takeWhile_append_dropWhile (p := Char.isDigit) (l := c :: cs)
  by_cases hpoint : ∃ vs, (c :: cs).dropWhile Char.isDigit = '.' :: vs
  · obtain ⟨vs, hvs⟩ := hpoint
    have hm := munch_decimal hw vs
    rwa [← hvs, hsplit] at hm
  · unfold number
    split
    · next vs hvs => exact absurd ⟨vs, hvs⟩ hpoint
    · refine .of_group .whole hsplit hw ?_ ?_ (reads_integer _)
      · intro q us vs hq hus heq
        cases q with
        | whole =>
          exact length_le_takeWhile
            (fun d hd => mem_digitChars.mp ((mem_whole.mp hus).2 d hd)) heq
        | decimal =>
          obtain ⟨ds, f, hds, -, rfl⟩ := mem_decimal.mp hus
          rw [List.append_assoc, List.cons_append] at heq
          have hdrop := (takeWhile_isDigit (mem_whole.mp hds).2 (f ++ vs)).2
          exact absurd ⟨f ++ vs, heq ▸ hdrop⟩ hpoint
        | _ => cases hq
      · intro q hq hus
        cases q with
        | whole => exact .inl rfl
        | decimal =>
          obtain ⟨ds, f, -, -, hsame⟩ := mem_decimal.mp hus
          exact absurd (hsame ▸ by simp) (point_notMem (mem_whole.mp hw).2)
        | _ => cases hq

/-! ## Texts -/

theorem extent_textPart {part : List Char} (h : part ∈ textPart) (cs : List Char) :
    extent (part ++ cs) = (extent cs).prepend part := by
  rcases h with ⟨c, hc, rfl⟩ | h
  · have hne : c ≠ '"' ∧ c ≠ '\\' := by simpa using hc
    exact extent_cons hne.1 hne.2 cs
  · obtain ⟨slash, rfl, -, ⟨c, hc, rfl⟩, rfl⟩ := mem_oneOf_mul.mp h
    exact if_neg hc

/-- What stands between quotes is taken as it is. -/
theorem extent_body {body : List Char} (h : body ∈ textPart∗) (cs : List Char) :
    extent (body ++ cs) = (extent cs).prepend body := by
  obtain ⟨parts, rfl, hparts⟩ := Language.mem_kstar.mp h
  clear h
  induction parts with
  | nil => rfl
  | cons part parts ih =>
    obtain ⟨hpart, hrest⟩ := List.forall_mem_cons.mp hparts
    rw [List.flatten_cons, List.append_assoc, extent_textPart hpart, ih hrest]
    simp [Extent.prepend]

/-- What is taken of a text: a body, and the closing quote or, without one, perhaps a backslash. -/
theorem extent_taken (cs : List Char) : ∃ body ∈ textPart∗, ∃ tail,
    (extent cs).taken = body ++ tail ∧
      if (extent cs).closed then tail = ['"'] else tail = [] ∨ tail = ['\\'] := by
  fun_induction extent cs with
  | case1 => exact ⟨[], Language.nil_mem_kstar _, [], rfl, .inl rfl⟩
  | case2 cs => exact ⟨[], Language.nil_mem_kstar _, ['"'], rfl, rfl⟩
  | case3 => exact ⟨[], Language.nil_mem_kstar _, ['\\'], rfl, .inr rfl⟩
  | case4 cs => exact ⟨[], Language.nil_mem_kstar _, ['\\'], rfl, .inr rfl⟩
  | case5 c cs hc ih =>
    obtain ⟨body, hbody, tail, htaken, htail⟩ := ih
    have hpart : ['\\', c] ∈ textPart :=
      .inr (mem_oneOf_mul.mpr ⟨'\\', rfl, [c], ⟨c, hc, rfl⟩, rfl⟩)
    exact ⟨_, append_mem_kstar hpart hbody, tail, by simp [Extent.prepend, htaken], htail⟩
  | case6 c cs hquote hend hslash ih =>
    obtain ⟨body, hbody, tail, htaken, htail⟩ := ih
    have hc : c ≠ '\\' := by
      rintro rfl
      cases cs with
      | nil => exact hend rfl rfl
      | cons d ds => exact hslash d ds rfl rfl
    have hpart : [c] ∈ textPart := .inl ⟨c, by simpa using ⟨hquote, hc⟩, rfl⟩
    exact ⟨_, append_mem_kstar hpart hbody, tail, by simp [Extent.prepend, htaken], htail⟩

theorem extent_quote {body : List Char} (h : body ∈ textPart∗) (vs : List Char) :
    extent (body ++ '"' :: vs) = ⟨true, body ++ ['"'], vs⟩ := by
  rw [extent_body h]
  rfl

/-- No text is both closed and open. -/
theorem notMem_openText (h : us ∈ Pattern.closedText.language) :
    us ∉ Pattern.openText.language := by
  intro h'
  obtain ⟨body, hbody, rfl⟩ := mem_closedText.mp h
  obtain ⟨body', hbody', tail, htail, heq⟩ := mem_openText.mp h'
  have hclosed := extent_quote hbody []
  rw [(List.cons.inj heq).2, extent_body hbody'] at hclosed
  rcases htail with rfl | rfl <;> simp [extent, Extent.prepend] at hclosed

/-- A text takes as much as either pattern matches. -/
theorem length_le_extent {q : Pattern} (hq : q.group = .text) (hus : us ∈ q.language)
    (heq : us ++ vs = '"' :: cs) : us.length ≤ ('"' :: (extent cs).taken).length := by
  cases q with
  | closedText =>
    obtain ⟨body, hbody, rfl⟩ := mem_closedText.mp hus
    obtain rfl : body ++ '"' :: vs = cs := by simpa using heq
    rw [extent_quote hbody]
  | openText =>
    obtain ⟨body, hbody, tail, htail, rfl⟩ := mem_openText.mp hus
    obtain rfl : body ++ (tail ++ vs) = cs := by simpa using heq
    have htaken : tail.length ≤ (extent (tail ++ vs)).taken.length := by
      rcases htail with rfl | rfl
      · exact Nat.zero_le _
      · cases vs with
        | nil => exact Nat.le_refl _
        | cons d vs =>
          rw [List.singleton_append, extent]
          split <;> simp [Extent.prepend]
    rw [extent_body hbody]
    simpa [Extent.prepend] using htaken
  | _ => cases hq

theorem munch_text (cs : List Char) : Munch ('"' :: cs) (text cs) := by
  obtain ⟨body, hbody, tail, htaken, htail⟩ := extent_taken cs
  have hsplit : '"' :: (extent cs).taken ++ (extent cs).rest = '"' :: cs :=
    congrArg ('"' :: ·) (extent_append cs)
  have hlong (q : Pattern) (us vs : List Char) (hq : q.group = .text) (hus : us ∈ q.language)
      (heq : us ++ vs = '"' :: cs) : us.length ≤ ('"' :: (extent cs).taken).length :=
    length_le_extent hq hus heq
  simp only [text]
  cases hclosed : (extent cs).closed with
  | true =>
    obtain rfl : tail = ['"'] := by simpa [hclosed] using htail
    have hmem : '"' :: (extent cs).taken ∈ Pattern.closedText.language :=
      mem_closedText.mpr ⟨body, hbody, congrArg ('"' :: ·) htaken⟩
    refine .of_group .closedText hsplit hmem hlong (fun q hq hus => ?_) ?_
    · cases q with
      | closedText => exact .inl rfl
      | openText => exact absurd hus (notMem_openText hmem)
      | _ => cases hq
    · rw [htaken, List.dropLast_concat]
      exact .text body
  | false =>
    have htail : tail = [] ∨ tail = ['\\'] := by simpa [hclosed] using htail
    have hmem : '"' :: (extent cs).taken ∈ Pattern.openText.language :=
      mem_openText.mpr ⟨body, hbody, tail, htail, congrArg ('"' :: ·) htaken⟩
    refine .of_group .openText hsplit hmem hlong (fun q hq hus => ?_) (.unterminated _)
    cases q with
    | closedText => exact absurd hmem (notMem_openText hus)
    | openText => exact .inl rfl
    | _ => cases hq

/-! ## Marks -/

/-- A mark that begins with a character is made of it and the next, or of it alone. -/
theorem mark_prefix {q : Pattern} (hq : q.group = .mark) (hus : us ∈ q.language)
    (heq : us ++ vs = c :: cs) : ∃ m, q = .mark m ∧
      ((∃ d, us = [c, d] ∧ d :: vs = cs ∧ pair? c d = some m) ∨ us = [c] ∧ single? c = some m) := by
  cases q with
  | mark m =>
    refine ⟨m, rfl, ?_⟩
    rcases mem_mark.mp hus with ⟨c', d, rfl, hm⟩ | ⟨c', rfl, hm⟩
    · obtain ⟨rfl, rfl⟩ := List.cons.inj heq
      exact .inl ⟨d, rfl, rfl, hm⟩
    · obtain ⟨rfl, rfl⟩ := List.cons.inj heq
      exact .inr ⟨rfl, hm⟩
  | _ => cases hq

/-- A character that makes no mark with the next makes one alone, or none. -/
theorem munch_singleMark (hc : Group.of c = .mark)
    (hpair : ∀ d ds, cs = d :: ds → pair? c d = none) : Munch (c :: cs) (singleMark c cs) := by
  unfold singleMark
  split
  · next m hm =>
    refine .of_group (.mark m) rfl (mem_mark.mpr (.inr ⟨c, rfl, hm⟩)) ?_ ?_ (.mark m _)
    · intro q us vs hq hus heq
      obtain ⟨m', rfl, ⟨d, rfl, hcs, hm'⟩ | ⟨rfl, -⟩⟩ := mark_prefix hq hus heq
      · exact absurd (hm'.symm.trans (hpair d vs hcs.symm)) (by simp)
      · exact Nat.le_refl _
    · intro q hq hus
      obtain ⟨m', rfl, ⟨d, hd, -⟩ | ⟨-, hm'⟩⟩ := mark_prefix hq hus (List.append_nil _)
      · cases hd
      · obtain rfl := Option.some.inj (hm.symm.trans hm')
        exact .inl rfl
  · next hm =>
    refine .illegal fun q us hus hpre => ?_
    obtain ⟨vs, heq⟩ := hpre
    obtain ⟨d, w, rfl, hd⟩ := Pattern.group_of_mem hus
    obtain rfl : d = c := (List.cons.inj heq).1
    obtain ⟨m', -, ⟨e, -, hcs, hm'⟩ | ⟨-, hm'⟩⟩ := mark_prefix (hd.symm.trans hc) hus heq
    · cases hm'.symm.trans (hpair e vs hcs.symm)
    · cases hm'.symm.trans hm

theorem munch_mark (hc : Group.of c = .mark) (cs : List Char) : Munch (c :: cs) (mark c cs) := by
  cases cs with
  | nil => exact munch_singleMark hc (by simp)
  | cons d ds =>
    simp only [mark]
    split
    · next m hm =>
      refine .of_group (.mark m) rfl (mem_mark.mpr (.inl ⟨c, d, rfl, hm⟩)) ?_ ?_ (.mark m _)
      · intro q us vs hq hus heq
        obtain ⟨m', rfl, ⟨e, rfl, -⟩ | ⟨rfl, -⟩⟩ := mark_prefix hq hus heq
        · exact Nat.le_refl _
        · simp
      · intro q hq hus
        obtain ⟨m', rfl, ⟨e, he, -, hm'⟩ | ⟨he, -⟩⟩ := mark_prefix hq hus (List.append_nil _)
        · obtain rfl : d = e := (List.cons.inj (List.cons.inj he).2).1
          obtain rfl := Option.some.inj (hm.symm.trans hm')
          exact .inl rfl
        · cases he
    · next hm =>
      refine munch_singleMark hc ?_
      rintro e es heq
      obtain ⟨rfl, rfl⟩ := List.cons.inj heq
      exact hm

/-! ## The reader -/

/-- What `scan` takes is the longest match. -/
theorem munch_scan (c : Char) (cs : List Char) : Munch (c :: cs) (scan c cs) := by
  unfold scan
  split_ifs with hblank hcomment hdigit hword hquote
  · exact munch_blanks hblank cs
  · exact hcomment ▸ munch_comment cs
  · exact munch_number hdigit cs
  · exact munch_word hword cs
  · exact hquote ▸ munch_text cs
  · exact munch_mark (by simp [Group.of, *]) cs

theorem Munch.scan_eq (h : Munch cs piece) : ∃ d ds, cs = d :: ds ∧ scan d ds = piece := by
  cases cs with
  | nil =>
    generalize hcs : [] = cs at h
    cases h with
    | longest hl hr =>
      obtain ⟨c, v, rfl, -⟩ := Pattern.group_of_mem hl.matched
      cases hcs
    | illegal hnone => cases hcs
  | cons d ds => exact ⟨d, ds, rfl, (munch_scan d ds).unique h⟩

variable {p : Position} {result : Except Misread (List Token)}

/-- The reader does what the patterns tell, whatever it has read already. -/
theorem Munches.tokensFrom {fuel : Nat} (h : Munches p cs result) (hf : cs.length ≤ fuel)
    (read : List Token) :
    Lexer.tokensFrom fuel p cs read = result.map (read.reverse ++ ·) := by
  induction h generalizing fuel read with
  | stop p => cases fuel <;> simp [Lexer.tokensFrom, ending, Except.map]
  | @blank p cs taken rest result hm hr ih =>
    obtain ⟨c, cs, rfl, hs⟩ := hm.scan_eq
    obtain ⟨fuel, rfl⟩ : ∃ n, fuel = n + 1 := ⟨fuel - 1, by simp at hf; omega⟩
    have hrest : rest.length ≤ fuel := (scan_rest_length hs).trans (Nat.le_of_succ_le_succ hf)
    simp only [Lexer.tokensFrom, hs, ih hrest]
  | @token p cs taken rest kind result hm hr ih =>
    obtain ⟨c, cs, rfl, hs⟩ := hm.scan_eq
    obtain ⟨fuel, rfl⟩ : ∃ n, fuel = n + 1 := ⟨fuel - 1, by simp at hf; omega⟩
    have hrest : rest.length ≤ fuel := (scan_rest_length hs).trans (Nat.le_of_succ_le_succ hf)
    simp only [Lexer.tokensFrom, hs, ih hrest]
    cases result <;> simp [Except.map]
  | @fault p cs taken rest f hm =>
    obtain ⟨c, cs, rfl, hs⟩ := hm.scan_eq
    obtain ⟨fuel, rfl⟩ : ∃ n, fuel = n + 1 := ⟨fuel - 1, by simp at hf; omega⟩
    simp only [Lexer.tokensFrom, hs, Except.map]

/-- Every text has tokens, or a fault. -/
theorem exists_munches (p : Position) (cs : List Char) : ∃ result, Munches p cs result := by
  induction hn : cs.length using Nat.strong_induction_on generalizing p cs with
  | h n ih =>
    subst hn
    cases cs with
    | nil => exact ⟨_, .stop p⟩
    | cons c cs =>
      have hm := munch_scan c cs
      cases hs : scan c cs with
      | mk r taken rest =>
        rw [hs] at hm
        obtain ⟨result, hr⟩ := ih rest.length (Nat.lt_succ_of_le (scan_rest_length hs))
          (p.walk taken) rest rfl
        cases r with
        | blank => exact ⟨_, .blank hm hr⟩
        | token kind => exact ⟨_, .token hm hr⟩
        | fault f => exact ⟨_, .fault hm⟩

end Lexer

/-- The tokens of a text, or its first fault, are told by the patterns: from each place where a
piece starts, the longest match is taken, a reserved word winning over a name. -/
theorem tokenize_iff_munches (text : String) (result : Except Lexer.Misread (List Token)) :
    tokenize text = result ↔ Lexer.Munches .origin text.toList result := by
  have htokens {result : Except Lexer.Misread (List Token)}
      (h : Lexer.Munches .origin text.toList result) : tokenize text = result := by
    rw [tokenize, h.tokensFrom (Nat.le_refl _)]
    cases result <;> rfl
  constructor
  · rintro rfl
    obtain ⟨result, h⟩ := Lexer.exists_munches .origin text.toList
    rwa [htokens h]
  · exact htokens

end Scriptlet
