import Scriptlet.Proofs.Decimal.Faithful
import Scriptlet.Proofs.Text.Escapes
import Std.Data.String.ToInt

/-!
# Words in brackets

A notation of words and of brackets around items with spaces between them. A
text in this notation says where it ends, and no two terms have the same
text: a word shows by its first characters what kind of word it is.
-/

set_option autoImplicit false

namespace Scriptlet

inductive Atom where
  | int (n : Int64)
  | float (x : Float)
  | text (s : String)
  | name (s : String)

inductive Bracket where
  | round | square

inductive Sexp where
  | atom (a : Atom)
  | list (b : Bracket) (items : List Sexp)

namespace Bracket

def opening : Bracket → Char
  | round => '('
  | square => '['

def closing : Bracket → Char
  | round => ')'
  | square => ']'

end Bracket

def Atom.spelling : Atom → List Char
  | .int n => (toString n.toInt).toList
  | .float x => (Decimal.render x).toList
  | .text s => Text.Quoted.encode s.toList
  | .name s => s.toList

mutual

def Sexp.spelling : Sexp → List Char
  | .atom a => a.spelling
  | .list b items => b.opening :: [' '].intercalate (spellings items) ++ [b.closing]

def spellings : List Sexp → List (List Char)
  | [] => []
  | s :: rest => s.spelling :: spellings rest

end

theorem spellings_eq_map (items : List Sexp) : spellings items = items.map Sexp.spelling := by
  induction items with
  | nil => rfl
  | cons s rest ih => rw [spellings, ih, List.map_cons]

/-! ## Words -/

/-- What may stand inside a word. -/
def isPlain (c : Char) : Bool := c ∉ [' ', '(', ')', '[', ']', '"']

/-- What comes after a word or after a bracket that is closed. -/
def Ends (us : List Char) : Prop := ∀ c ∈ us.head?, c ∈ [' ', ')', ']']

/-- A word that cannot be taken for a number: it has no digits, or it has a letter first. -/
structure NameLike (cs : List Char) : Prop where
  ne_nil : cs ≠ []
  plain : ∀ c ∈ cs, isPlain c = true
  named : (∀ c ∈ cs, c.isDigit = false) ∨ ∃ c ∈ cs.head?, c.isDigit = false ∧ c ≠ '-'

/-- Only finite numbers are written as numbers. -/
def Atom.Proper : Atom → Prop
  | .float x => ∃ negative mantissa exponent,
      Decimal.Binary.ofFloat x = .finite negative mantissa exponent
  | .name s => NameLike s.toList
  | _ => True

/-- The words of a number have a digit, and nothing before the first one but a sign. -/
structure NumberLike (cs : List Char) : Prop where
  digit : ∃ c ∈ cs, c.isDigit = true
  plain : ∀ c ∈ cs, isPlain c = true
  first : ∃ c ∈ cs.head?, c.isDigit = true ∨ c = '-'

theorem NameLike.not_number {cs : List Char} (h : NameLike cs) : ¬NumberLike cs := by
  intro hn
  rcases h.named with hnone | ⟨c, hc, hdigit, hsign⟩
  · obtain ⟨c, hc, hdigit⟩ := hn.digit
    simp [hnone c hc] at hdigit
  · obtain ⟨d, hd, hor⟩ := hn.first
    obtain rfl : c = d := Option.some.inj (hc.symm.trans hd)
    simp [hdigit, hsign] at hor

theorem isPlain_of_isDigit {c : Char} (h : c.isDigit = true) : isPlain c = true := by
  simp only [isPlain, decide_eq_true_eq, List.mem_cons, List.not_mem_nil, or_false]
  rintro (rfl | rfl | rfl | rfl | rfl | rfl) <;> simp at h

theorem NumberLike.negate {ds : List Char} (h : NumberLike ds) : NumberLike ('-' :: ds) := by
  obtain ⟨c, hc, hdigit⟩ := h.digit
  exact ⟨⟨c, List.mem_cons_of_mem _ hc, hdigit⟩,
    List.forall_mem_cons.mpr ⟨by decide, h.plain⟩, ⟨'-', rfl, .inr rfl⟩⟩

theorem numberLike_digitsOf (n : Nat) : NumberLike (Decimal.digitsOf n) := by
  have hdigits := Decimal.digitsOf_isDigit n
  obtain ⟨d, ds, hds⟩ := List.exists_cons_of_ne_nil (Decimal.digitsOf_ne_nil n)
  have hd : d ∈ Decimal.digitsOf n := by simp [hds]
  exact ⟨⟨d, hd, hdigits d hd⟩, fun c hc => isPlain_of_isDigit (hdigits c hc),
    ⟨d, by simp [hds], .inl (hdigits d hd)⟩⟩

theorem int_spelling (n : Int64) :
    (Atom.int n).spelling = Decimal.signed (n.toInt < 0) (Decimal.digitsOf n.toInt.natAbs) := by
  rw [Atom.spelling, Int.toString_eq_repr, Int.repr_eq_if, Decimal.signed, Decimal.digitsOf]
  split
  · rename_i h
    rw [decide_eq_false (Int.not_lt.mpr h), if_neg Bool.false_ne_true, Nat.toList_repr]
    congr 1
    omega
  · rename_i h
    rw [decide_eq_true (Int.not_le.mp h), if_pos rfl, String.toList_append, Nat.toList_repr]
    change '-' :: Nat.toDigits 10 _ = '-' :: Nat.toDigits 10 _
    congr 2
    omega

theorem int_numberLike (n : Int64) : NumberLike (Atom.int n).spelling ∧
    '.' ∉ (Atom.int n).spelling ∧ 'e' ∉ (Atom.int n).spelling := by
  have hdigits := Decimal.digitsOf_isDigit n.toInt.natAbs
  have hpoint : '.' ∉ Decimal.digitsOf n.toInt.natAbs := fun h => by simpa using hdigits _ h
  have hmark : 'e' ∉ Decimal.digitsOf n.toInt.natAbs := fun h => by simpa using hdigits _ h
  rw [int_spelling, Decimal.signed]
  split
  · exact ⟨(numberLike_digitsOf _).negate, by simp [hpoint], by simp [hmark]⟩
  · exact ⟨numberLike_digitsOf _, hpoint, hmark⟩

theorem Decimal.Numeral.numberLike {cs : List Char} (h : Decimal.Numeral cs) : NumberLike cs := by
  obtain ⟨d, ds, rfl, hd⟩ := h.first
  refine ⟨⟨d, List.mem_cons_self .., hd⟩, fun c hc => ?_, ⟨d, rfl, .inl hd⟩⟩
  rcases h.spelled c hc with hdigit | hmark
  · exact isPlain_of_isDigit hdigit
  · simp only [List.mem_cons, List.not_mem_nil, or_false] at hmark
    rcases hmark with rfl | rfl | rfl <;> decide

theorem float_numberLike {x : Float} (h : (Atom.float x).Proper) :
    NumberLike (Atom.float x).spelling ∧
      ('.' ∈ (Atom.float x).spelling ∨ 'e' ∈ (Atom.float x).spelling) := by
  obtain ⟨negative, m, e, hx⟩ := h
  have hnumeral := Decimal.Style.plain.unsigned_numeral negative m e
  have hspelling : (Atom.float x).spelling =
      Decimal.signed negative (Decimal.Style.plain.unsigned (.finite negative m e)) := by
    rw [Atom.spelling, Decimal.render, Decimal.Style.render, String.toList_ofList, hx,
      Decimal.Style.chars_eq]
    rfl
  rw [hspelling, Decimal.signed]
  split
  · exact ⟨hnumeral.numberLike.negate, hnumeral.marked.imp (by simp) (by simp)⟩
  · exact ⟨hnumeral.numberLike, hnumeral.marked⟩

theorem Atom.word_spelling {a : Atom} (ha : a.Proper) (h : ∀ s, a ≠ .text s) :
    a.spelling ≠ [] ∧ ∀ c ∈ a.spelling, isPlain c = true := by
  have hnumber {cs : List Char} (h : NumberLike cs) : cs ≠ [] ∧ ∀ c ∈ cs, isPlain c = true := by
    refine ⟨?_, h.plain⟩
    rintro rfl
    obtain ⟨c, hc, -⟩ := h.digit
    cases hc
  cases a with
  | int n => exact hnumber (int_numberLike n).1
  | float x => exact hnumber (float_numberLike ha).1
  | text s => exact absurd rfl (h s)
  | name s => exact ⟨NameLike.ne_nil ha, NameLike.plain ha⟩

theorem Atom.int_ne_float (n : Int64) {x : Float} (hx : (Atom.float x).Proper) :
    (Atom.int n).spelling ≠ (Atom.float x).spelling := by
  obtain ⟨-, hpoint, hmark⟩ := int_numberLike n
  intro h
  rw [h] at hpoint hmark
  exact (float_numberLike hx).2.elim hpoint hmark

/-- What begins with a quoted text does not begin with another word. -/
theorem Atom.text_ne_word (s : String) (us vs : List Char) {a : Atom} (ha : a.Proper)
    (h : ∀ s, a ≠ .text s) : (Atom.text s).spelling ++ us ≠ a.spelling ++ vs := by
  intro heq
  obtain ⟨hne, hplain⟩ := a.word_spelling ha h
  obtain ⟨d, ds, hds⟩ := List.exists_cons_of_ne_nil hne
  rw [hds] at heq
  have hfirst : '"' = d := (List.cons.inj heq).1
  cases hfirst ▸ hplain d (by simp [hds])

/-- Different words are spelled differently. -/
theorem Atom.spelling_injective {a b : Atom} (ha : a.Proper) (hb : b.Proper)
    (h : a.spelling = b.spelling) : a = b := by
  have hname {s : String} {c : Atom} (hs : (Atom.name s).Proper) (hc : NumberLike c.spelling) :
      (Atom.name s).spelling ≠ c.spelling := fun heq => by
    rw [← heq] at hc
    exact NameLike.not_number hs hc
  have htext {s : String} {c : Atom} (hc : c.Proper) (hn : ∀ t, c ≠ .text t) :
      (Atom.text s).spelling ≠ c.spelling := fun heq =>
    Atom.text_ne_word s [] [] hc hn (congrArg (· ++ []) heq)
  cases a with
  | int n =>
    cases b with
    | int m => exact congrArg _ (Int64.toInt_inj.mp (Int.repr_injective (String.toList_inj.mp h)))
    | float x => exact absurd h (Atom.int_ne_float n hb)
    | text s => exact absurd h.symm (htext ha nofun)
    | name s => exact absurd h.symm (hname hb (int_numberLike n).1)
  | float x =>
    cases b with
    | int m => exact absurd h.symm (Atom.int_ne_float m ha)
    | float y => exact congrArg _ (Decimal.Style.plain.render_injective (String.toList_inj.mp h))
    | text s => exact absurd h.symm (htext ha nofun)
    | name s => exact absurd h.symm (hname hb (float_numberLike ha).1)
  | text s =>
    cases b with
    | text t =>
      have hall : Text.Quoted.encode s.toList ++ [] = Text.Quoted.encode t.toList ++ [] :=
        congrArg (· ++ []) h
      exact congrArg _ (String.toList_inj.mp (Text.Quoted.encode_append_inj hall).1)
    | _ => exact absurd h (htext hb nofun)
  | name s =>
    cases b with
    | int m => exact absurd h (hname ha (int_numberLike m).1)
    | float y => exact absurd h (hname ha (float_numberLike hb).1)
    | text t => exact absurd h.symm (htext ha nofun)
    | name t => exact congrArg _ (String.toList_inj.mp h)

theorem takeWhile_isPlain {cs us : List Char} (hcs : ∀ c ∈ cs, isPlain c = true) (hu : Ends us) :
    (cs ++ us).takeWhile isPlain = cs := by
  rw [List.takeWhile_append_of_pos hcs]
  cases us with
  | nil => simp
  | cons c us =>
    have hc := hu c rfl
    have hplain : isPlain c = false := by
      simp only [List.mem_cons, List.not_mem_nil, or_false] at hc
      rcases hc with rfl | rfl | rfl <;> rfl
    simp [hplain]

/-- A word ends where a space or a closing bracket follows, or nothing. -/
theorem Atom.spelling_append_inj {a b : Atom} {us vs : List Char} (ha : a.Proper) (hb : b.Proper)
    (hu : Ends us) (hv : Ends vs) (h : a.spelling ++ us = b.spelling ++ vs) : a = b ∧ us = vs := by
  by_cases hta : ∃ s, a = .text s
  · obtain ⟨s, rfl⟩ := hta
    by_cases htb : ∃ t, b = .text t
    · obtain ⟨t, rfl⟩ := htb
      obtain ⟨hs, hrest⟩ := Text.Quoted.encode_append_inj h
      exact ⟨congrArg _ (String.toList_inj.mp hs), hrest⟩
    · exact absurd h (Atom.text_ne_word s us vs hb (not_exists.mp htb))
  · have hta := not_exists.mp hta
    by_cases htb : ∃ t, b = .text t
    · obtain ⟨t, rfl⟩ := htb
      exact absurd h.symm (Atom.text_ne_word t vs us ha hta)
    · have htb := not_exists.mp htb
      have htake := congrArg (List.takeWhile isPlain) h
      rw [takeWhile_isPlain (a.word_spelling ha hta).2 hu,
        takeWhile_isPlain (b.word_spelling hb htb).2 hv] at htake
      rw [htake] at h
      exact ⟨Atom.spelling_injective ha hb htake, List.append_cancel_left h⟩

/-! ## Terms -/

/-- Every word in a term is one that cannot be taken for another. -/
inductive Sexp.Proper : Sexp → Prop where
  | atom {a : Atom} (h : a.Proper) : Proper (.atom a)
  | list {items : List Sexp} (h : ∀ s ∈ items, Proper s) (b : Bracket) : Proper (.list b items)

/-- A term ends where a space or a closing bracket follows, or nothing. -/
def Sexp.Separates (s : Sexp) : Prop := ∀ t us vs, t.Proper → Ends us → Ends vs →
  s.spelling ++ us = t.spelling ++ vs → s = t ∧ us = vs

theorem intercalate_space (cs : List Char) (rest : List (List Char)) :
    [' '].intercalate (cs :: rest) = cs ++ rest.flatMap (' ' :: ·) := by
  induction rest generalizing cs with
  | nil => simp
  | cons ds rest ih => simp [List.intercalate_cons_cons, ih]

theorem Atom.first {a : Atom} (ha : a.Proper) :
    ∃ c cs, a.spelling = c :: cs ∧ c ∉ ['(', '[', ')', ']'] := by
  by_cases htext : ∃ s, a = .text s
  · obtain ⟨s, rfl⟩ := htext
    exact ⟨'"', _, rfl, by decide⟩
  · obtain ⟨hne, hplain⟩ := a.word_spelling ha (not_exists.mp htext)
    obtain ⟨c, cs, hcs⟩ := List.exists_cons_of_ne_nil hne
    have hc := hplain c (by simp [hcs])
    refine ⟨c, cs, hcs, ?_⟩
    simp only [isPlain, decide_eq_true_eq, List.mem_cons, not_or] at hc
    simp [hc]

theorem Sexp.Proper.first {s : Sexp} (h : s.Proper) :
    ∃ c cs, s.spelling = c :: cs ∧ c ∉ [')', ']'] := by
  cases h with
  | atom ha =>
    obtain ⟨c, cs, hcs, hc⟩ := Atom.first ha
    simp only [List.mem_cons, not_or] at hc
    exact ⟨c, cs, hcs, by simp [hc]⟩
  | list _ b => cases b <;> exact ⟨_, _, rfl, by decide⟩

section

variable {xs ys : List Sexp} {c d : Char} {us vs : List Char}

theorem ends_further (hc : c ∈ [')', ']']) :
    Ends ((spellings xs).flatMap (' ' :: ·) ++ c :: us) := by
  cases xs with
  | nil =>
    rintro _ ⟨⟩
    exact List.mem_cons_of_mem _ hc
  | cons =>
    rintro _ ⟨⟩
    exact List.mem_cons_self ..

/-- Terms with a space before each, up to a closing bracket. -/
theorem further_inj (hx : ∀ x ∈ xs, x.Separates) (hy : ∀ y ∈ ys, y.Proper) (hc : c ∈ [')', ']'])
    (hd : d ∈ [')', ']'])
    (h : (spellings xs).flatMap (' ' :: ·) ++ c :: us =
      (spellings ys).flatMap (' ' :: ·) ++ d :: vs) :
    xs = ys ∧ c :: us = d :: vs := by
  induction xs generalizing ys with
  | nil =>
    cases ys with
    | nil => exact ⟨rfl, h⟩
    | cons y ys =>
      obtain rfl : c = ' ' := (List.cons.inj h).1
      simp at hc
  | cons x xs ih =>
    cases ys with
    | nil =>
      obtain rfl : ' ' = d := (List.cons.inj h).1
      simp at hd
    | cons y ys =>
      obtain ⟨hx, hxs⟩ := List.forall_mem_cons.mp hx
      obtain ⟨hy, hys⟩ := List.forall_mem_cons.mp hy
      simp only [spellings, List.flatMap_cons, List.append_assoc, List.cons_append,
        List.cons.injEq, true_and] at h
      obtain ⟨rfl, hrest⟩ := hx y _ _ hy (ends_further hc) (ends_further hd) h
      obtain ⟨rfl, hend⟩ := ih hxs hys hrest
      exact ⟨rfl, hend⟩

/-- Terms with spaces between them, up to a closing bracket. -/
theorem items_inj (hx : ∀ x ∈ xs, x.Separates) (hx' : ∀ x ∈ xs, x.Proper)
    (hy : ∀ y ∈ ys, y.Proper) (hc : c ∈ [')', ']']) (hd : d ∈ [')', ']'])
    (h : [' '].intercalate (spellings xs) ++ c :: us =
      [' '].intercalate (spellings ys) ++ d :: vs) :
    xs = ys ∧ c :: us = d :: vs := by
  cases xs with
  | nil =>
    cases ys with
    | nil => exact ⟨rfl, h⟩
    | cons y ys =>
      obtain ⟨e, es, hes, he⟩ := (hy y (List.mem_cons_self ..)).first
      rw [spellings, spellings, intercalate_space, hes] at h
      exact absurd ((List.cons.inj h).1 ▸ hc) he
  | cons x xs =>
    cases ys with
    | nil =>
      obtain ⟨e, es, hes, he⟩ := (hx' x (List.mem_cons_self ..)).first
      rw [spellings, spellings, intercalate_space, hes] at h
      exact absurd ((List.cons.inj h).1 ▸ hd) he
    | cons y ys =>
      obtain ⟨hx, hxs⟩ := List.forall_mem_cons.mp hx
      obtain ⟨hy, hys⟩ := List.forall_mem_cons.mp hy
      rw [spellings, spellings, intercalate_space, intercalate_space, List.append_assoc,
        List.append_assoc] at h
      obtain ⟨rfl, hrest⟩ := hx y _ _ hy (ends_further hc) (ends_further hd) h
      obtain ⟨rfl, hend⟩ := further_inj hxs hys hc hd hrest
      exact ⟨rfl, hend⟩

end

theorem Bracket.opening_ne_first {a : Atom} (ha : a.Proper) (b : Bracket) (us vs : List Char) :
    b.opening :: us ≠ a.spelling ++ vs := by
  obtain ⟨c, cs, hcs, hc⟩ := Atom.first ha
  intro h
  rw [hcs] at h
  rw [← (List.cons.inj h).1] at hc
  cases b <;> simp [Bracket.opening] at hc

theorem Bracket.closing_mem (b : Bracket) : b.closing ∈ [')', ']'] := by
  cases b <;> decide

theorem Sexp.Proper.separates {s : Sexp} (h : s.Proper) : s.Separates := by
  induction h with
  | atom ha =>
    rintro t us vs ht hu hv heq
    cases ht with
    | atom hb =>
      obtain ⟨rfl, hrest⟩ := Atom.spelling_append_inj ha hb hu hv heq
      exact ⟨rfl, hrest⟩
    | list _ b => exact absurd heq.symm (b.opening_ne_first ha _ us)
  | @list xs h b ih =>
    rintro t us vs ht hu hv heq
    cases ht with
    | atom hb => exact absurd heq (b.opening_ne_first hb _ vs)
    | @list ys hys b' =>
      simp only [Sexp.spelling, List.cons_append, List.append_assoc, List.nil_append] at heq
      obtain ⟨hopen, hitems⟩ := List.cons.inj heq
      obtain ⟨rfl, hrest⟩ := items_inj ih h hys b.closing_mem b'.closing_mem hitems
      have hb : b = b' := by cases b <;> cases b' <;> first | rfl | simp [Bracket.opening] at hopen
      exact ⟨by rw [hb], (List.cons.inj hrest).2⟩

/-- Different terms have different texts. -/
theorem Sexp.spelling_injective {s t : Sexp} (hs : s.Proper) (ht : t.Proper)
    (h : s.spelling = t.spelling) : s = t :=
  (hs.separates t [] [] ht nofun nofun (congrArg (· ++ []) h)).1

end Scriptlet
