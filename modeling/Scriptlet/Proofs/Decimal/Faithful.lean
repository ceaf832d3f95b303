import Scriptlet.Proofs.Decimal.Nearest

/-!
# Different numbers have different texts

The intervals around different doubles have no number in common, and so no two
doubles are written alike, in any style.
-/

set_option autoImplicit false

namespace Scriptlet.Decimal

namespace Shortest

variable {i j : Interval} {x : ℚ}

theorem Interval.Contains.le (h : i.Contains x) :
    i.low * 2 ^ i.exponent ≤ x ∧ x ≤ i.high * 2 ^ i.exponent := by
  unfold Interval.Contains at h
  split at h
  · exact h
  · exact ⟨h.1.le, h.2.le⟩

theorem Interval.Contains.lt (h : i.Contains x) (hi : i.closed = false) :
    i.low * 2 ^ i.exponent < x ∧ x < i.high * 2 ^ i.exponent := by
  simpa [Interval.Contains, hi] using h

/-- One interval ends before the other begins, or where it begins, but then one of them leaves its
ends out. -/
theorem Interval.apart (hle : (i.high : ℚ) * 2 ^ i.exponent ≤ j.low * 2 ^ j.exponent)
    (hlt : i.closed = true → j.closed = true →
      (i.high : ℚ) * 2 ^ i.exponent < j.low * 2 ^ j.exponent)
    (hi : i.Contains x) : ¬j.Contains x := by
  intro hj
  cases hci : i.closed with
  | false => linarith [(hi.lt hci).2, hj.le.1]
  | true =>
    cases hcj : j.closed with
    | false => linarith [hi.le.2, (hj.lt hcj).1]
    | true => linarith [hi.le.2, hj.le.1, hlt hci hcj]

end Shortest

open Shortest

variable {m n : ℕ} {d e : ℤ}

/-- The end of one interval and the start of a later one, in the smaller of their units. -/
theorem Canonical.gap (hm : Canonical m d) (hn : Canonical n e) (h : d < e ∨ d = e ∧ m < n) :
    (interval m d).high ≤ (interval n e).low * 2 ^ (e - d).toNat ∧
      ((interval m d).closed = true → (interval n e).closed = true →
        (interval m d).high < (interval n e).low * 2 ^ (e - d).toNat) := by
  simp only [interval, decide_eq_true_eq]
  rcases h with hlt | ⟨rfl, hlt⟩
  · have hfull := hn.full (hm.least.trans_lt hlt)
    have hbits := hm.lt
    have hunit : 2 ≤ 2 ^ (e - d).toNat := by
      calc 2 = 2 ^ 1 := rfl
        _ ≤ 2 ^ (e - d).toNat := Nat.pow_le_pow_right (by decide) (by omega)
    have hleast := hm.least
    split
    · have hwide := Nat.mul_le_mul_left (4 * n - 1) hunit
      omega
    · have hwide := Nat.mul_le_mul_left (4 * n - 2) hunit
      omega
  · rw [sub_self, Int.toNat_zero, pow_zero, mul_one]
    split <;> omega

theorem Canonical.apart (hm : Canonical m d) (hn : Canonical n e) (h : d < e ∨ d = e ∧ m < n)
    {x : ℚ} (hx : (interval m d).Contains x) : ¬(interval n e).Contains x := by
  obtain ⟨hle, hlt⟩ := hm.gap hn h
  have hunit : (0 : ℚ) < 2 ^ (d - 2) := by positivity
  have hscale : ((interval n e).low : ℚ) * 2 ^ (e - 2) =
      ((interval n e).low * 2 ^ (e - d).toNat : ℕ) * 2 ^ (d - 2) := by
    push_cast
    rw [mul_assoc, ← zpow_natCast, ← zpow_add₀ (by norm_num)]
    congr 2
    omega
  refine Interval.apart ?_ (fun hi hj => ?_) hx
  · change ((interval m d).high : ℚ) * 2 ^ (d - 2) ≤ (interval n e).low * 2 ^ (e - 2)
    rw [hscale]
    exact mul_le_mul_of_nonneg_right (Nat.cast_le.mpr hle) hunit.le
  · change ((interval m d).high : ℚ) * 2 ^ (d - 2) < (interval n e).low * 2 ^ (e - 2)
    rw [hscale]
    exact mul_lt_mul_of_pos_right (Nat.cast_lt.mpr (hlt hi hj)) hunit

theorem shortest_value_pos (h : Canonical m e) : 0 < (shortest m e).value := by
  have hdigits := (shortest_spec h).1
  unfold Scaled.value
  positivity

/-- A decimal is the shortest one of no more than one double. -/
theorem shortest_injective (hm : Canonical m d) (hn : Canonical n e)
    (h : (shortest m d).value = (shortest n e).value) : m = n ∧ d = e := by
  have hx := (shortest_spec hm).2
  have hy := (shortest_spec hn).2
  rw [← h] at hy
  have hlt : ¬(d < e ∨ d = e ∧ m < n) := fun hlt => hm.apart hn hlt hx hy
  have hgt : ¬(e < d ∨ e = d ∧ n < m) := fun hgt => hn.apart hm hgt hy hx
  omega

/-! ## Bits -/

theorem Binary.ofBits_canonical {bits : UInt64} {negative : Bool}
    (h : Binary.ofBits bits = .finite negative m e) (hm : 0 < m) : Canonical m e := by
  unfold Binary.ofBits at h
  extract_lets sign field fraction at h
  have hfraction : fraction < 2 ^ 52 := Nat.mod_lt _ (by decide)
  have hfield : field < 2 ^ 11 := Nat.mod_lt _ (by decide)
  split_ifs at h <;> obtain ⟨-, rfl, rfl⟩ := Binary.finite.inj h <;> constructor <;> omega

theorem Binary.ofBits_zero {bits : UInt64} {negative : Bool}
    (h : Binary.ofBits bits = .finite negative 0 e) : e = -1074 := by
  unfold Binary.ofBits at h
  extract_lets sign field fraction at h
  split_ifs at h <;> obtain ⟨-, hm, rfl⟩ := Binary.finite.inj h
  · rfl
  · omega

/-- The number with these three fields. -/
def Binary.ofFields (negative : Bool) (field fraction : ℕ) : Binary :=
  if field = 2047 then
    if fraction = 0 then .infinite negative else .undefined
  else if field = 0 then .finite negative fraction (-1074)
  else .finite negative (2 ^ 52 + fraction) ((field : ℤ) - 1075)

theorem Binary.ofFields_injective {s t : Bool} {f g u v : ℕ} (hu : u < 2 ^ 52) (hv : v < 2 ^ 52)
    (h : ofFields s f u = ofFields t g v) (hne : ofFields s f u ≠ .undefined) :
    s = t ∧ f = g ∧ u = v := by
  unfold Binary.ofFields at h hne
  split_ifs at h hne <;> simp_all
  omega

/-- Only what is no number has several forms in bits. -/
theorem Binary.ofBits_injective {b c : UInt64} (h : Binary.ofBits b = Binary.ofBits c)
    (hb : Binary.ofBits b ≠ .undefined) : b = c := by
  have hbound := b.toNat_lt
  have hbound' := c.toNat_lt
  obtain ⟨hsign, hfield, hfraction⟩ :=
    Binary.ofFields_injective (Nat.mod_lt _ (by decide)) (Nat.mod_lt _ (by decide)) h hb
  rw [decide_eq_decide] at hsign
  apply UInt64.toNat_inj.mp
  omega

/-- What is no number has one form among the floats. -/
theorem Binary.toBits_of_undefined {x : Float} (h : Binary.ofFloat x = .undefined) :
    x.toBits.toNat = 2047 * 2 ^ 52 + 2 ^ 51 := by
  obtain ⟨⟨b, hvalid⟩⟩ := x
  change b.toNat = _
  change Binary.ofBits b = .undefined at h
  unfold Binary.ofBits at h
  extract_lets sign field fraction at h
  obtain ⟨hfield, hfraction⟩ : field = 2047 ∧ fraction ≠ 0 := by
    split_ifs at h with hfield hfraction
    exact ⟨hfield, hfraction⟩
  have hpacked := hvalid.eq_packedNaN ?exponent ?mantissa
  · have hbits := congrArg BitVec.toNat hpacked
    change b.toNat = _ at hbits
    rw [hbits]
    decide
  · apply BitVec.eq_of_toNat_eq
    simp only [Float.Model.UnpackedFloat.unpackExponent, BitVec.toNat_cast,
      BitVec.extractLsb_toNat, UInt64.toNat_toBitVec]
    exact hfield
  · intro hzero
    have hbits := congrArg BitVec.toNat hzero
    simp only [Float.Model.UnpackedFloat.unpackMantissa, BitVec.toNat_cast,
      BitVec.extractLsb_toNat, UInt64.toNat_toBitVec, Nat.shiftRight_zero] at hbits
    exact hfraction hbits

theorem Binary.ofFloat_injective : Function.Injective Binary.ofFloat := by
  intro x y h
  have hbits : x.toBits = y.toBits := by
    by_cases hx : Binary.ofFloat x = .undefined
    · apply UInt64.toNat_inj.mp
      rw [Binary.toBits_of_undefined hx, Binary.toBits_of_undefined (h ▸ hx)]
    · exact Binary.ofBits_injective h hx
  obtain ⟨⟨b, _⟩⟩ := x
  obtain ⟨⟨c, _⟩⟩ := y
  obtain rfl : b = c := hbits
  rfl

/-! ## Texts -/

/-- Everything but the sign. -/
def Style.unsigned (style : Style) : Binary → List Char
  | .undefined => ['N', 'a', 'N']
  | .infinite _ => ['i', 'n', 'f']
  | .finite _ 0 _ => ['0', '.', '0']
  | .finite _ mantissa exponent => style.scaled (shortest mantissa exponent)

def Binary.negative : Binary → Bool
  | .undefined => false
  | .infinite negative | .finite negative _ _ => negative

variable (style : Style)

theorem Style.chars_eq (b : Binary) : style.chars b = signed b.negative (style.unsigned b) := by
  cases b with
  | undefined | infinite => rfl
  | finite _ m _ => cases m <;> rfl

theorem Style.unsigned_numeral (negative : Bool) (m : ℕ) (e : ℤ) :
    Numeral (style.unsigned (.finite negative m e)) := by
  cases m with
  | zero =>
    have hzero : ∀ c ∈ ['0'], c.isDigit = true := by simp
    exact Numeral.point hzero (by simp) hzero nofun
  | succ m => exact style.scaled_numeral _

/-- A number is never written like one of the values that are none. -/
theorem Style.unsigned_first (b : Binary) : ∃ c cs, style.unsigned b = c :: cs ∧
    (c.isDigit = true ∧ (∃ s m e, b = .finite s m e) ∨ c = 'N' ∧ b = .undefined ∨
      c = 'i' ∧ ∃ s, b = .infinite s) := by
  cases b with
  | undefined => exact ⟨'N', _, rfl, .inr (.inl ⟨rfl, rfl⟩)⟩
  | infinite s => exact ⟨'i', _, rfl, .inr (.inr ⟨rfl, s, rfl⟩)⟩
  | finite s m e =>
    obtain ⟨c, cs, hcs, hc⟩ := (style.unsigned_numeral s m e).first
    exact ⟨c, cs, hcs, .inl ⟨hc, s, m, e, rfl⟩⟩

theorem signed_injective {s t : Bool} {c d : Char} {cs ds : List Char} (hc : c ≠ '-') (hd : d ≠ '-')
    (h : signed s (c :: cs) = signed t (d :: ds)) : s = t ∧ c = d ∧ cs = ds := by
  cases s <;> cases t <;> simp_all [signed, Ne.symm hd]

theorem Style.value_unsigned {s : Bool} {m : ℕ} {e : ℤ} :
    valueOf (style.unsigned (.finite s m e)) = if m = 0 then 0 else (shortest m e).value := by
  cases m with
  | zero =>
    have hzero : ∀ c ∈ ['0'], c.isDigit = true := by simp
    have hvalue := valueOf_point hzero hzero (.inl rfl)
    have hdigits : natOfDigits (['0'] ++ ['0']) = 0 := rfl
    rw [hdigits, Nat.cast_zero, zero_mul] at hvalue
    exact hvalue
  | succ m => exact valueOf_scaled style _

theorem Style.unsigned_injective {s t : Bool} {m n : ℕ} {d e : ℤ} {b c : UInt64}
    (hb : Binary.ofBits b = .finite s m d) (hc : Binary.ofBits c = .finite t n e)
    (h : style.unsigned (.finite s m d) = style.unsigned (.finite t n e)) : m = n ∧ d = e := by
  have hvalue := congrArg valueOf h
  rw [style.value_unsigned, style.value_unsigned] at hvalue
  rcases Nat.eq_zero_or_pos m with rfl | hm <;> rcases Nat.eq_zero_or_pos n with rfl | hn
  · exact ⟨rfl, (Binary.ofBits_zero hb).trans (Binary.ofBits_zero hc).symm⟩
  · rw [if_pos rfl, if_neg hn.ne'] at hvalue
    exact absurd hvalue (shortest_value_pos (Binary.ofBits_canonical hc hn)).ne
  · rw [if_neg hm.ne', if_pos rfl] at hvalue
    exact absurd hvalue (shortest_value_pos (Binary.ofBits_canonical hb hm)).ne'
  · rw [if_neg hm.ne', if_neg hn.ne'] at hvalue
    exact shortest_injective (Binary.ofBits_canonical hb hm) (Binary.ofBits_canonical hc hn) hvalue

/-- Different floats are written differently. -/
theorem Style.render_injective : Function.Injective style.render := by
  intro x y h
  have hchars : style.chars (.ofFloat x) = style.chars (.ofFloat y) := String.ofList_inj.mp h
  apply Binary.ofFloat_injective
  obtain ⟨c, cs, hcs, hc⟩ := style.unsigned_first (.ofFloat x)
  obtain ⟨d, ds, hds, hd⟩ := style.unsigned_first (.ofFloat y)
  have hplain {c : Char} {p q r : Prop} (h : c.isDigit = true ∧ p ∨ c = 'N' ∧ q ∨ c = 'i' ∧ r) :
      c ≠ '-' := by
    rintro rfl
    simp at h
  rw [style.chars_eq, style.chars_eq, hcs, hds] at hchars
  obtain ⟨hsign, rfl, rfl⟩ := signed_injective (hplain hc) (hplain hd) hchars
  rcases hc with ⟨hc, s, m, e, hx⟩ | ⟨rfl, hx⟩ | ⟨rfl, s, hx⟩
  · rcases hd with ⟨-, t, n, k, hy⟩ | ⟨rfl, -⟩ | ⟨rfl, -⟩
    · rw [hx] at hsign hcs
      rw [hy] at hsign hds
      obtain ⟨rfl, rfl⟩ := style.unsigned_injective hx hy (hcs.trans hds.symm)
      obtain rfl : s = t := hsign
      rw [hx, hy]
    · simp at hc
    · simp at hc
  · rcases hd with ⟨hd, -⟩ | ⟨-, hy⟩ | ⟨hd, -⟩
    · simp at hd
    · rw [hx, hy]
    · simp at hd
  · rcases hd with ⟨hd, -⟩ | ⟨hd, -⟩ | ⟨-, t, hy⟩
    · simp at hd
    · simp at hd
    · rw [hx, hy] at hsign
      obtain rfl : s = t := hsign
      rw [hx, hy]

end Scriptlet.Decimal
