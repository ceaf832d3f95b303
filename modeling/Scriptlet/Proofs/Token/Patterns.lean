import Mathlib.Computability.Language
import Mathlib.Data.Char
import Mathlib.Order.Interval.Set.Defs
import Scriptlet.Proofs.Token.Scan

/-!
# The patterns of blanks, comments and tokens

Each kind of piece as a formal language over characters. The first character
of a piece tells the few patterns that it may match: two for numbers, two for
texts, those for words, and those for marks.
-/

set_option autoImplicit false

namespace Scriptlet

open Computability

/-- The ways to write a mark. The end of a text is not written. -/
def Mark.spellings : Mark → List String
  | .separator => ["\n", ";"]
  | .stop => []
  | m => [m.display]

namespace Lexer

/-- The words of one character of a class. -/
def oneOf (s : Set Char) : Language Char := {w | ∃ c ∈ s, w = [c]}

def blankChars : Set Char := {' ', '\t', '\r'}

def digitChars : Set Char := Set.Icc '0' '9'

def wordStarts : Set Char := Set.Icc 'a' 'z' ∪ Set.Icc 'A' 'Z' ∪ {'_'}

def wordParts : Set Char := wordStarts ∪ digitChars

/-- What a text is made of: any character but a quote or a backslash, or a backslash and the
character after it, but for a newline. -/
def textPart : Language Char := oneOf {'"', '\\'}ᶜ + oneOf {'\\'} * oneOf {'\n'}ᶜ

/-- The kinds of pieces. A text may end without a closing quote. -/
inductive Pattern where
  | blanks
  | comment
  | whole
  | decimal
  | closedText
  | openText
  | name
  | reserved (word : Keyword)
  | mark (m : Mark)

namespace Pattern

def language : Pattern → Language Char
  | .blanks => oneOf blankChars * (oneOf blankChars)∗
  | .comment => oneOf {'#'} * (oneOf {'\n'}ᶜ)∗
  | .whole => oneOf digitChars * (oneOf digitChars)∗
  | .decimal =>
    oneOf digitChars * (oneOf digitChars)∗ * oneOf {'.'} * (oneOf digitChars)∗ *
      (oneOf {'.'} * (oneOf digitChars)∗)∗
  | .closedText => oneOf {'"'} * textPart∗ * oneOf {'"'}
  | .openText => oneOf {'"'} * textPart∗ * (1 + oneOf {'\\'})
  | .name => oneOf wordStarts * (oneOf wordParts)∗
  | .reserved word => {word.spelling.toList}
  | .mark m => {w | ∃ spelling ∈ m.spellings, w = spelling.toList}

end Pattern

/-! ## Words of a pattern -/

variable {s t : Set Char} {w cs : List Char} {c : Char}

theorem mem_oneOf_mul {l : Language Char} : w ∈ oneOf s * l ↔ ∃ c ∈ s, ∃ v ∈ l, w = c :: v := by
  rw [Language.mem_mul]
  constructor
  · rintro ⟨-, ⟨c, hc, rfl⟩, v, hv, rfl⟩
    exact ⟨c, hc, v, hv, rfl⟩
  · rintro ⟨c, hc, v, hv, rfl⟩
    exact ⟨[c], ⟨c, hc, rfl⟩, v, hv, rfl⟩

theorem append_mem_kstar {l : Language Char} {u v : List Char} (hu : u ∈ l) (hv : v ∈ l∗) :
    u ++ v ∈ l∗ :=
  mul_kstar_le_kstar (a := l) (Language.append_mem_mul hu hv)

theorem mem_kstar_oneOf : w ∈ (oneOf s)∗ ↔ ∀ c ∈ w, c ∈ s := by
  constructor
  · rintro hw c hc
    obtain ⟨parts, rfl, hparts⟩ := Language.mem_kstar.mp hw
    obtain ⟨part, hpart, hc⟩ := List.mem_flatten.mp hc
    obtain ⟨d, hd, rfl⟩ := hparts part hpart
    exact List.mem_singleton.mp hc ▸ hd
  · intro h
    induction w with
    | nil => exact Language.nil_mem_kstar _
    | cons c w ih =>
      obtain ⟨hc, hw⟩ := List.forall_mem_cons.mp h
      exact append_mem_kstar (u := [c]) ⟨c, hc, rfl⟩ (ih hw)

/-- One character of a class, and further characters of another. -/
theorem mem_oneOf_mul_kstar :
    w ∈ oneOf s * (oneOf t)∗ ↔ ∃ c ∈ s, ∃ v, (∀ d ∈ v, d ∈ t) ∧ w = c :: v := by
  simp only [mem_oneOf_mul, mem_kstar_oneOf]

theorem mem_blankChars : c ∈ blankChars ↔ isBlank c = true := by
  simp [blankChars, isBlank, or_assoc]

theorem mem_digitChars : c ∈ digitChars ↔ c.isDigit = true := by
  simp only [digitChars, Set.mem_Icc, Char.isDigit, Bool.and_eq_true, decide_eq_true_eq]
  rfl

theorem mem_wordStarts : c ∈ wordStarts ↔ isWordStart c = true := by
  simp only [wordStarts, Set.mem_union, Set.mem_Icc, Set.mem_singleton_iff, isWordStart,
    isAlpha_iff, Bool.or_eq_true, decide_eq_true_eq, or_comm (a := 'a' ≤ c ∧ c ≤ 'z')]
  rfl

theorem mem_wordParts : c ∈ wordParts ↔ isWordPart c = true := by
  simp only [wordParts, Set.mem_union, mem_wordStarts, mem_digitChars, isWordStart, isWordPart,
    Char.isAlphanum, Bool.or_eq_true, or_right_comm]

/-! ## Decimals -/

theorem mem_fraction : w ∈ (oneOf digitChars)∗ * (oneOf {'.'} * (oneOf digitChars)∗)∗ ↔
    ∀ c ∈ w, c ∈ digitChars ∨ c = '.' := by
  constructor
  · intro hw c hc
    obtain ⟨u, hu, v, hv, rfl⟩ := Language.mem_mul.mp hw
    rcases List.mem_append.mp hc with hc | hc
    · exact .inl (mem_kstar_oneOf.mp hu c hc)
    · obtain ⟨parts, rfl, hparts⟩ := Language.mem_kstar.mp hv
      obtain ⟨part, hpart, hc⟩ := List.mem_flatten.mp hc
      obtain ⟨point, rfl, ds, hds, rfl⟩ := mem_oneOf_mul_kstar.mp (hparts part hpart)
      exact (List.mem_cons.mp hc).elim .inr fun hc => .inl (hds c hc)
  · intro h
    induction w with
    | nil =>
      exact Language.append_mem_mul (Language.nil_mem_kstar _) (Language.nil_mem_kstar _)
    | cons c w ih =>
      obtain ⟨hc, hw⟩ := List.forall_mem_cons.mp h
      obtain ⟨u, hu, v, hv, rfl⟩ := Language.mem_mul.mp (ih hw)
      rcases hc with hc | rfl
      · exact Language.append_mem_mul (a := c :: u) (append_mem_kstar (u := [c]) ⟨c, hc, rfl⟩ hu) hv
      · have hpart : '.' :: u ∈ oneOf {'.'} * (oneOf digitChars)∗ :=
          mem_oneOf_mul.mpr ⟨'.', rfl, u, hu, rfl⟩
        exact Language.append_mem_mul (Language.nil_mem_kstar _) (append_mem_kstar hpart hv)

theorem mem_whole : w ∈ Pattern.whole.language ↔ w ≠ [] ∧ ∀ c ∈ w, c ∈ digitChars := by
  rw [Pattern.language, mem_oneOf_mul_kstar]
  constructor
  · rintro ⟨c, hc, v, hv, rfl⟩
    exact ⟨List.cons_ne_nil _ _, List.forall_mem_cons.mpr ⟨hc, hv⟩⟩
  · rintro ⟨hne, hw⟩
    obtain ⟨c, v, rfl⟩ := List.exists_cons_of_ne_nil hne
    obtain ⟨hc, hv⟩ := List.forall_mem_cons.mp hw
    exact ⟨c, hc, v, hv, rfl⟩

/-- Digits and a point, and then digits and points in any order. -/
theorem mem_decimal : w ∈ Pattern.decimal.language ↔ ∃ ds f, ds ∈ Pattern.whole.language ∧
    (∀ c ∈ f, c ∈ digitChars ∨ c = '.') ∧ w = ds ++ '.' :: f := by
  have hsplit : Pattern.decimal.language = Pattern.whole.language *
      (oneOf {'.'} * ((oneOf digitChars)∗ * (oneOf {'.'} * (oneOf digitChars)∗)∗)) := by
    simp only [Pattern.language, mul_assoc]
  rw [hsplit, Language.mem_mul]
  constructor
  · rintro ⟨ds, hds, v, hv, rfl⟩
    obtain ⟨point, rfl, f, hf, rfl⟩ := mem_oneOf_mul.mp hv
    exact ⟨ds, f, hds, mem_fraction.mp hf, rfl⟩
  · rintro ⟨ds, f, hds, hf, rfl⟩
    exact ⟨ds, hds, '.' :: f, mem_oneOf_mul.mpr ⟨'.', rfl, f, mem_fraction.mpr hf, rfl⟩, rfl⟩

/-! ## Texts -/

theorem mem_closedText : w ∈ Pattern.closedText.language ↔
    ∃ body ∈ textPart∗, w = '"' :: (body ++ ['"']) := by
  rw [Pattern.language, mul_assoc, mem_oneOf_mul]
  constructor
  · rintro ⟨quote, rfl, v, hv, rfl⟩
    obtain ⟨body, hbody, -, ⟨quote, rfl, rfl⟩, rfl⟩ := Language.mem_mul.mp hv
    exact ⟨body, hbody, rfl⟩
  · rintro ⟨body, hbody, rfl⟩
    exact ⟨'"', rfl, _, Language.append_mem_mul hbody ⟨'"', rfl, rfl⟩, rfl⟩

theorem mem_openText : w ∈ Pattern.openText.language ↔
    ∃ body ∈ textPart∗, ∃ tail, (tail = [] ∨ tail = ['\\']) ∧ w = '"' :: (body ++ tail) := by
  rw [Pattern.language, mul_assoc, mem_oneOf_mul]
  constructor
  · rintro ⟨quote, rfl, v, hv, rfl⟩
    obtain ⟨body, hbody, tail, htail, rfl⟩ := Language.mem_mul.mp hv
    refine ⟨body, hbody, tail, ?_, rfl⟩
    rcases htail with htail | ⟨slash, rfl, rfl⟩
    · exact .inl htail
    · exact .inr rfl
  · rintro ⟨body, hbody, tail, rfl | rfl, rfl⟩
    · exact ⟨'"', rfl, _, Language.append_mem_mul hbody (.inl rfl), rfl⟩
    · exact ⟨'"', rfl, _, Language.append_mem_mul hbody (.inr ⟨'\\', rfl, rfl⟩), rfl⟩

/-! ## Marks -/

/-- A mark is written with two characters or with one. -/
theorem mem_mark {m : Mark} : w ∈ (Pattern.mark m).language ↔
    (∃ c d, w = [c, d] ∧ pair? c d = some m) ∨ ∃ c, w = [c] ∧ single? c = some m := by
  constructor
  · rintro ⟨spelling, hs, rfl⟩
    cases m <;> simp only [Mark.spellings, Mark.display, List.mem_cons, List.not_mem_nil, or_false]
      at hs <;> rcases hs with rfl | rfl <;>
      first | exact .inr ⟨_, rfl, rfl⟩ | exact .inl ⟨_, _, rfl, rfl⟩
  · rintro (⟨c, d, rfl, h⟩ | ⟨c, rfl, h⟩)
    · unfold pair? at h
      split at h <;> cases h
      all_goals exact ⟨_, .head _, rfl⟩
    · unfold single? at h
      split at h <;> cases h
      all_goals first | exact ⟨_, .head _, rfl⟩ | exact ⟨_, .tail _ (.head _), rfl⟩

/-! ## First characters -/

/-- What the first character of a piece tells of it. -/
inductive Group where
  | blank | comment | number | word | text | mark

def Group.of (c : Char) : Group :=
  if isBlank c then .blank
  else if c = '#' then .comment
  else if c.isDigit then .number
  else if isWordStart c then .word
  else if c = '"' then .text
  else .mark

def Pattern.group : Pattern → Group
  | .blanks => .blank
  | .comment => .comment
  | .whole => .number
  | .decimal => .number
  | .closedText => .text
  | .openText => .text
  | .name => .word
  | .reserved _ => .word
  | .mark _ => .mark

theorem visible {p : Char → Bool} (hp : [' ', '\t', '\r', '#'].any p = false) (h : p c = true) :
    ¬ isBlank c = true ∧ c ≠ '#' := by
  have hne : c ∉ [' ', '\t', '\r', '#'] := fun hc => List.any_eq_false.mp hp c hc h
  simpa [isBlank, and_assoc] using hne

theorem Group.of_digit (h : c.isDigit = true) : Group.of c = .number := by
  obtain ⟨hblank, hcomment⟩ := visible rfl h
  rw [Group.of, if_neg hblank, if_neg hcomment, if_pos h]

theorem Group.of_wordStart (h : isWordStart c = true) : Group.of c = .word := by
  obtain ⟨hblank, hcomment⟩ := visible rfl h
  have hdigit : ¬ c.isDigit = true := by simp [not_isDigit_of_isWordStart h]
  rw [Group.of, if_neg hblank, if_neg hcomment, if_neg hdigit, if_pos h]

theorem Group.of_pair {d : Char} {m : Mark} (h : pair? c d = some m) : Group.of c = .mark := by
  unfold pair? at h
  split at h <;> first | rfl | cases h

theorem Group.of_single {m : Mark} (h : single? c = some m) : Group.of c = .mark := by
  unfold single? at h
  split at h <;> first | rfl | cases h

/-- A piece is not empty, and its first character tells its group. -/
theorem Pattern.group_of_mem {q : Pattern} (h : w ∈ q.language) :
    ∃ c v, w = c :: v ∧ Group.of c = q.group := by
  cases q with
  | blanks =>
    obtain ⟨c, hc, v, -, rfl⟩ := mem_oneOf_mul_kstar.mp h
    exact ⟨c, v, rfl, if_pos (mem_blankChars.mp hc)⟩
  | comment =>
    obtain ⟨c, rfl, v, -, rfl⟩ := mem_oneOf_mul_kstar.mp h
    exact ⟨'#', v, rfl, rfl⟩
  | whole =>
    obtain ⟨c, hc, v, -, rfl⟩ := mem_oneOf_mul_kstar.mp h
    exact ⟨c, v, rfl, Group.of_digit (mem_digitChars.mp hc)⟩
  | decimal =>
    obtain ⟨ds, f, hds, -, rfl⟩ := mem_decimal.mp h
    obtain ⟨c, hc, v, -, rfl⟩ := mem_oneOf_mul_kstar.mp hds
    exact ⟨c, _, rfl, Group.of_digit (mem_digitChars.mp hc)⟩
  | closedText =>
    obtain ⟨body, -, rfl⟩ := mem_closedText.mp h
    exact ⟨'"', _, rfl, rfl⟩
  | openText =>
    obtain ⟨body, -, tail, -, rfl⟩ := mem_openText.mp h
    exact ⟨'"', _, rfl, rfl⟩
  | name =>
    obtain ⟨c, hc, v, -, rfl⟩ := mem_oneOf_mul_kstar.mp h
    exact ⟨c, v, rfl, Group.of_wordStart (mem_wordStarts.mp hc)⟩
  | reserved word =>
    obtain rfl : w = word.spelling.toList := h
    cases word <;> exact ⟨_, _, rfl, rfl⟩
  | mark m =>
    rcases mem_mark.mp h with ⟨c, d, rfl, hm⟩ | ⟨c, rfl, hm⟩
    · exact ⟨c, [d], rfl, Group.of_pair hm⟩
    · exact ⟨c, [], rfl, Group.of_single hm⟩

end Lexer

end Scriptlet
