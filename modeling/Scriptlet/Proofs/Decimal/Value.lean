import Scriptlet.Decimal.Style
import Scriptlet.Decimal.Reading
import Mathlib.Algebra.Order.Field.Power
import Mathlib.Data.List.TakeWhile
import Mathlib.Data.Rat.Cast.Order
import Mathlib.Tactic.FieldSimp
import Mathlib.Tactic.Linarith
import Mathlib.Tactic.Positivity
import Mathlib.Tactic.Ring

/-!
# The number that a decimal text stands for

A decimal text has digits, a point among them, and an exponent after an `e`;
point and exponent may be left out. Whatever the style, the text of a scaled
number stands for that number.
-/

set_option autoImplicit false

namespace Scriptlet.Decimal

def Scaled.value (s : Scaled) : ℚ := s.digits * 10 ^ s.exponent

/-- The number after an `e`. -/
def exponentOf : List Char → ℤ
  | 'e' :: '-' :: ds => -(natOfDigits ds : ℤ)
  | 'e' :: ds => natOfDigits ds
  | _ => 0

/-- The number that an unsigned decimal stands for. -/
def valueOf (cs : List Char) : ℚ :=
  let significand := cs.takeWhile (· ≠ 'e')
  let places : ℤ := (significand.dropWhile (· ≠ '.')).tail.length
  natOfDigits (significand.filter Char.isDigit) *
    10 ^ (exponentOf (cs.dropWhile (· ≠ 'e')) - places)

/-! ## Digits -/

theorem natOfDigits_eq (cs : List Char) : natOfDigits cs = Nat.ofDigitChars 10 cs 0 := rfl

theorem natOfDigits_digitsOf (n : ℕ) : natOfDigits (digitsOf n) = n := by
  rw [natOfDigits_eq, digitsOf, Nat.ofDigitChars_ten_toDigits]

theorem natOfDigits_zeros_append (n : ℕ) (cs : List Char) :
    natOfDigits (List.replicate n '0' ++ cs) = natOfDigits cs := by
  simp [natOfDigits_eq, Nat.ofDigitChars_append]

theorem natOfDigits_append_zeros (cs : List Char) (n : ℕ) :
    natOfDigits (cs ++ List.replicate n '0') = natOfDigits cs * 10 ^ n := by
  simp [natOfDigits_eq, Nat.ofDigitChars_append, mul_comm]

theorem digitsOf_isDigit (n : ℕ) : ∀ c ∈ digitsOf n, c.isDigit = true :=
  fun _ hc => Nat.isDigit_of_mem_toDigits (by decide) (by decide) hc

theorem digitsOf_ne_nil (n : ℕ) : digitsOf n ≠ [] := Nat.toDigits_ne_nil

theorem ne_of_isDigit {c d : Char} (hc : c.isDigit = true) (hd : d.isDigit = false) : c ≠ d := by
  rintro rfl
  simp [hc] at hd

/-! ## Texts -/

section

variable {ds es tail : List Char}

theorem ne_exponentMark (hds : ∀ c ∈ ds, c.isDigit = true) : ∀ c ∈ ds, c ≠ 'e' :=
  fun c hc => ne_of_isDigit (hds c hc) rfl

theorem takeWhile_before_mark (hds : ∀ c ∈ ds, c ≠ 'e') (ht : tail = [] ∨ ∃ us, tail = 'e' :: us) :
    (ds ++ tail).takeWhile (· ≠ 'e') = ds ∧ (ds ++ tail).dropWhile (· ≠ 'e') = tail := by
  have hpass : ∀ c ∈ ds, decide (c ≠ 'e') = true := by simpa using hds
  rw [List.takeWhile_append_of_pos hpass, List.dropWhile_append_of_pos hpass]
  rcases ht with rfl | ⟨us, rfl⟩ <;> simp

/-- Digits with a point after some of them. -/
theorem valueOf_point (hds : ∀ c ∈ ds, c.isDigit = true) (hes : ∀ c ∈ es, c.isDigit = true)
    (ht : tail = [] ∨ ∃ us, tail = 'e' :: us) :
    valueOf (ds ++ '.' :: es ++ tail) =
      natOfDigits (ds ++ es) * 10 ^ (exponentOf tail - es.length) := by
  have hmark : ∀ c ∈ ds ++ '.' :: es, c ≠ 'e' := by
    simp only [List.forall_mem_append, List.forall_mem_cons]
    exact ⟨ne_exponentMark hds, by decide, ne_exponentMark hes⟩
  obtain ⟨htake, hdrop⟩ := takeWhile_before_mark hmark ht
  have hpoint : (ds ++ '.' :: es).dropWhile (· ≠ '.') = '.' :: es := by
    rw [List.dropWhile_append_of_pos fun c hc => by simpa using ne_of_isDigit (hds c hc) rfl]
    simp
  have hdigits : (ds ++ '.' :: es).filter Char.isDigit = ds ++ es := by
    rw [List.filter_append, List.filter_eq_self.mpr hds, List.filter_cons_of_neg (by decide),
      List.filter_eq_self.mpr hes]
  simp only [valueOf, htake, hdrop, hpoint, hdigits, List.tail_cons]

/-- Digits without a point. -/
theorem valueOf_whole (hds : ∀ c ∈ ds, c.isDigit = true) (ht : ∃ us, tail = 'e' :: us) :
    valueOf (ds ++ tail) = natOfDigits ds * 10 ^ exponentOf tail := by
  obtain ⟨htake, hdrop⟩ := takeWhile_before_mark (ne_exponentMark hds) (.inr ht)
  have hpoint : ds.dropWhile (· ≠ '.') = [] :=
    List.dropWhile_eq_nil_iff.mpr fun c hc => by simpa using ne_of_isDigit (hds c hc) rfl
  simp only [valueOf, htake, hdrop, hpoint, List.filter_eq_self.mpr hds, List.tail_nil,
    List.length_nil, Nat.cast_zero, sub_zero]

theorem valueOf_positional (hds : ∀ c ∈ ds, c.isDigit = true) (places : ℤ) :
    valueOf (positional ds places) = natOfDigits ds * 10 ^ (places - ds.length) := by
  have hzeros (n : ℕ) : ∀ c ∈ List.replicate n '0', c.isDigit = true := fun c hc => by
    rw [List.eq_of_mem_replicate hc]
    rfl
  unfold positional
  split
  · -- All digits stand behind the point.
    have hes : ∀ c ∈ List.replicate (-places).toNat '0' ++ ds, c.isDigit = true :=
      List.forall_mem_append.mpr ⟨hzeros _, hds⟩
    have hzero : ∀ c ∈ ['0'], c.isDigit = true := by simp
    have hvalue := valueOf_point hzero hes (.inl rfl)
    have hdigits : natOfDigits (['0'] ++ (List.replicate (-places).toNat '0' ++ ds)) =
        natOfDigits ds := by
      rw [← List.replicate_one, natOfDigits_zeros_append, natOfDigits_zeros_append]
    rw [hdigits] at hvalue
    simp only [List.append_nil, List.cons_append, List.nil_append] at hvalue
    rw [hvalue]
    congr 2
    simp only [exponentOf, List.length_append, List.length_replicate]
    omega
  · simp only
    split
    · rename_i hpos hlt
      have htake : ∀ c ∈ ds.take places.toNat, c.isDigit = true :=
        fun c hc => hds c (List.mem_of_mem_take hc)
      have hdrop : ∀ c ∈ ds.drop places.toNat, c.isDigit = true :=
        fun c hc => hds c (List.mem_of_mem_drop hc)
      have hvalue := valueOf_point htake hdrop (.inl rfl)
      rw [List.append_nil, List.take_append_drop] at hvalue
      rw [hvalue]
      congr 2
      simp only [exponentOf, List.length_drop]
      omega
    · rename_i hpos hlt
      have hfull : ∀ c ∈ ds ++ List.replicate (places.toNat - ds.length) '0',
          c.isDigit = true := List.forall_mem_append.mpr ⟨hds, hzeros _⟩
      have hzero : ∀ c ∈ ['0'], c.isDigit = true := by simp
      have hvalue := valueOf_point hfull hzero (.inl rfl)
      rw [List.append_nil] at hvalue
      rw [hvalue, List.append_assoc, ← List.replicate_one, List.replicate_append_replicate,
        natOfDigits_append_zeros]
      push_cast
      rw [mul_assoc, ← zpow_natCast, ← zpow_add₀ (by norm_num)]
      congr 2
      simp only [exponentOf, List.length_singleton]
      omega

theorem exponentOf_tail (n : ℤ) :
    exponentOf ('e' :: if n < 0 then '-' :: digitsOf n.natAbs else digitsOf n.natAbs) = n := by
  split
  · rw [exponentOf, natOfDigits_digitsOf]
    omega
  · obtain ⟨d, ds, hds⟩ := List.exists_cons_of_ne_nil (digitsOf_ne_nil n.natAbs)
    have hd : d ≠ '-' := ne_of_isDigit (digitsOf_isDigit n.natAbs d (by simp [hds])) rfl
    have hvalue : exponentOf ('e' :: digitsOf n.natAbs) = natOfDigits (digitsOf n.natAbs) := by
      rw [hds, exponentOf]
      simpa using hd
    rw [hvalue, natOfDigits_digitsOf]
    omega

theorem valueOf_scientific (hds : ∀ c ∈ ds, c.isDigit = true) (hne : ds ≠ []) (exponent : ℤ) :
    valueOf (scientific ds exponent) = natOfDigits ds * 10 ^ (exponent - (ds.length - 1 : ℤ)) := by
  unfold scientific
  extract_lets tail
  have htail : exponentOf ('e' :: tail) = exponent := exponentOf_tail exponent
  have hmark : ∃ us, 'e' :: tail = 'e' :: us := ⟨tail, rfl⟩
  match ds, hne with
  | [d], _ =>
    have hvalue := valueOf_whole hds hmark
    rw [htail] at hvalue
    simpa using hvalue
  | d :: e :: es, _ =>
    obtain ⟨hd, hes⟩ := List.forall_mem_cons.mp hds
    have hvalue := valueOf_point (List.forall_mem_singleton.mpr hd) hes (.inr hmark)
    rw [htail] at hvalue
    simpa using hvalue

theorem valueOf_scaled (style : Style) (s : Scaled) : valueOf (style.scaled s) = s.value := by
  unfold Style.scaled Scaled.value
  extract_lets ds exponent
  have hds : ∀ c ∈ ds, c.isDigit = true := digitsOf_isDigit s.digits
  have hvalue : natOfDigits ds = s.digits := natOfDigits_digitsOf s.digits
  have hne : ds ≠ [] := digitsOf_ne_nil s.digits
  split
  · rw [valueOf_positional hds, hvalue]
    congr 2
    omega
  · rw [valueOf_scientific hds hne, hvalue]
    congr 2
    omega

end

/-! ## Spelling -/

/-- How an unsigned decimal is spelled: with a digit first, and a point or an exponent. -/
structure Numeral (cs : List Char) : Prop where
  first : ∃ d ds, cs = d :: ds ∧ d.isDigit = true
  marked : '.' ∈ cs ∨ 'e' ∈ cs
  spelled : ∀ c ∈ cs, c.isDigit = true ∨ c ∈ ['.', 'e', '-']

theorem Numeral.point {ds es tail : List Char} (hds : ∀ c ∈ ds, c.isDigit = true) (hne : ds ≠ [])
    (hes : ∀ c ∈ es, c.isDigit = true)
    (ht : ∀ c ∈ tail, c.isDigit = true ∨ c ∈ ['.', 'e', '-']) :
    Numeral (ds ++ '.' :: es ++ tail) := by
  obtain ⟨d, ds, rfl⟩ := List.exists_cons_of_ne_nil hne
  refine ⟨⟨d, _, rfl, hds d (List.mem_cons_self ..)⟩, .inl (by simp), ?_⟩
  simp only [List.forall_mem_append, List.forall_mem_cons (a := '.')]
  exact ⟨⟨fun c hc => .inl (hds c hc), .inr (by simp), fun c hc => .inl (hes c hc)⟩, ht⟩

theorem positional_numeral {ds : List Char} (hds : ∀ c ∈ ds, c.isDigit = true) (hne : ds ≠ [])
    (places : ℤ) : Numeral (positional ds places) := by
  have hnil : ∀ c ∈ ([] : List Char), c.isDigit = true ∨ c ∈ ['.', 'e', '-'] := nofun
  have hzero : ∀ c ∈ ['0'], c.isDigit = true := by simp
  have hzeros (n : ℕ) : ∀ c ∈ List.replicate n '0', c.isDigit = true := fun c hc => by
    rw [List.eq_of_mem_replicate hc]
    rfl
  unfold positional
  split
  · have hes := List.forall_mem_append.mpr ⟨hzeros (-places).toNat, hds⟩
    simpa using Numeral.point hzero (by simp) hes hnil
  · simp only
    split
    · have htake : ∀ c ∈ ds.take places.toNat, c.isDigit = true :=
        fun c hc => hds c (List.mem_of_mem_take hc)
      have hdrop : ∀ c ∈ ds.drop places.toNat, c.isDigit = true :=
        fun c hc => hds c (List.mem_of_mem_drop hc)
      have hfirst : ds.take places.toNat ≠ [] := by
        rw [Ne, List.take_eq_nil_iff, not_or]
        exact ⟨by omega, hne⟩
      simpa using Numeral.point htake hfirst hdrop hnil
    · have hfull := List.forall_mem_append.mpr ⟨hds, hzeros (places.toNat - ds.length)⟩
      simpa using Numeral.point hfull (by simp [hne]) hzero hnil

theorem scientific_numeral {ds : List Char} (hds : ∀ c ∈ ds, c.isDigit = true) (hne : ds ≠ [])
    (exponent : ℤ) : Numeral (scientific ds exponent) := by
  unfold scientific
  extract_lets tail
  have htail : ∀ c ∈ 'e' :: tail, c.isDigit = true ∨ c ∈ ['.', 'e', '-'] := by
    have hdigits : ∀ c ∈ digitsOf exponent.natAbs, c.isDigit = true ∨ c ∈ ['.', 'e', '-'] :=
      fun c hc => .inl (digitsOf_isDigit _ c hc)
    refine List.forall_mem_cons.mpr ⟨by simp, ?_⟩
    unfold tail
    split
    · exact List.forall_mem_cons.mpr ⟨by simp, hdigits⟩
    · exact hdigits
  match ds, hne with
  | [d], _ =>
    obtain ⟨hd, -⟩ := List.forall_mem_cons.mp hds
    exact ⟨⟨d, _, rfl, hd⟩, .inr (by simp), List.forall_mem_cons.mpr ⟨.inl hd, htail⟩⟩
  | d :: e :: es, _ =>
    obtain ⟨hd, hes⟩ := List.forall_mem_cons.mp hds
    exact Numeral.point (List.forall_mem_singleton.mpr hd) (List.cons_ne_nil d []) hes htail

theorem Style.scaled_numeral (style : Style) (s : Scaled) : Numeral (style.scaled s) := by
  have hds := digitsOf_isDigit s.digits
  have hne := digitsOf_ne_nil s.digits
  unfold Style.scaled
  extract_lets ds exponent
  split
  · exact positional_numeral hds hne _
  · exact scientific_numeral hds hne _

end Scriptlet.Decimal
