import Scriptlet.Proofs.Number.Rounding
import Scriptlet.Value
import Mathlib

/-!
# Doubles that are whole numbers

Whole numbers become doubles by rounding, and the sum of doubles that are
whole is the exact sum rounded. Doubles are ordered as the numbers they are.
-/

set_option autoImplicit false

namespace Scriptlet

namespace Double

open Float.Model
open Float.Model.UnpackedFloat

/-- An unpacked double with all 53 bits that is an integer. The last of the bits counts
`2 ^ (k - 52)`. -/
inductive Represents : UnpackedFloat → ℤ → Prop where
  | zero (s : Sign) : Represents (.zero s) 0
  | finite {s : Sign} {m k : ℕ} {n : ℤ} {hm : 0 < m} (hlow : 2 ^ 52 ≤ m) (hhigh : m < 2 ^ 53)
      (hk : k ≤ 1023) (hvalue : s.apply m * 2 ^ k = n * 2 ^ 52) :
      Represents (.finite s m (k - 52) hm) n

/-- The double is an integer. -/
def Denotes (x : Float) (n : ℤ) : Prop := Represents x.toModel.unpack n

variable {u v : UnpackedFloat} {x y : Float} {a b n : ℤ} {m j N : ℕ}

/-! ## Bits that are dropped -/

/-- After a shift, one bit tells whether half of the last place was dropped, and one whether there
was something else. -/
theorem shift_spec (m n : ℕ) :
    let em := ExtendedMantissa.mk m false false >>> n
    em.mantissa = m / 2 ^ n ∧ (em.roundBit = true ↔ 2 ^ n ≤ 2 * (m % 2 ^ n)) ∧
      (em.stickyBit = true ↔ m % 2 ^ n ≠ 0 ∧ 2 * (m % 2 ^ n) ≠ 2 ^ n) := by
  induction n with
  | zero => simp [HShiftRight.hShiftRight, Nat.repeat, Nat.mod_one]
  | succ n ih =>
    obtain ⟨hm, hround, hsticky⟩ := ih
    have hstep : ExtendedMantissa.mk m false false >>> (n + 1) =
      (ExtendedMantissa.mk m false false >>> n).shiftRightOne := rfl
    have hpow : 2 ^ (n + 1) = 2 ^ n * 2 := Nat.pow_succ ..
    have hlt := Nat.mod_lt m (Nat.two_pow_pos n)
    have hmod : m % 2 ^ (n + 1) = m % 2 ^ n + 2 ^ n * (m / 2 ^ n % 2) := by
      rw [hpow, Nat.mod_mul]
    rw [hstep]
    refine ⟨?_, ?_, ?_⟩
    · rw [ExtendedMantissa.shiftRightOne, hm, Nat.div_div_eq_div_mul, hpow]
    · rw [ExtendedMantissa.shiftRightOne, hm, hmod, hpow]
      rcases Nat.mod_two_eq_zero_or_one (m / 2 ^ n) with hbit | hbit <;> simp [hbit] <;> omega
    · rw [ExtendedMantissa.shiftRightOne, hmod, hpow, Bool.or_eq_true, hround, hsticky]
      rcases Nat.mod_two_eq_zero_or_one (m / 2 ^ n) with hbit | hbit <;> simp [hbit] <;> omega

theorem roundedMantissa_shift (m n : ℕ) :
    (ExtendedMantissa.mk m false false >>> n).roundedMantissa = nearestQuotient m (2 ^ n) := by
  obtain ⟨hm, hround, hsticky⟩ := shift_spec m n
  generalize ExtendedMantissa.mk m false false >>> n = em at *
  obtain ⟨q, r, t⟩ := em
  obtain rfl : q = m / 2 ^ n := hm
  have hpos := Nat.two_pow_pos n
  unfold nearestQuotient
  cases r <;> cases t <;> simp at hround hsticky
  · show m / 2 ^ n = _
    split <;> omega
  · show m / 2 ^ n = _
    split <;> omega
  · show m / 2 ^ n + m / 2 ^ n % 2 = _
    split <;> omega
  · show m / 2 ^ n + 1 = _
    split <;> omega

/-! ## Rounding -/

theorem log2_mul_pow (hm : m ≠ 0) (j : ℕ) : (m * 2 ^ j).log2 = m.log2 + j := by
  rw [Nat.log2_eq_iff (Nat.mul_ne_zero hm (Nat.two_pow_pos j).ne')]
  constructor
  · rw [Nat.pow_add]
    exact Nat.mul_le_mul_right _ (Nat.log2_self_le hm)
  · rw [Nat.add_right_comm, Nat.pow_add]
    exact Nat.mul_lt_mul_of_pos_right Nat.lt_log2_self (Nat.two_pow_pos j)

/-- Sums of numbers of 64 bits are far below the largest double. -/
theorem log2_small (h : N < 2 ^ 100) : N.log2 < 1023 := by
  by_cases hN : N = 0
  · simp [hN]
  · have hlog := (Nat.log2_lt hN).mpr h
    omega

/-- The exponent that leaves 53 bits. -/
theorem targetExponent_eq {L : ℕ} (h : m.log2 + j = L + 52) :
    Format.binary64.targetExponent (totalExponent m (j - 52)) = L - 52 := by
  simp only [Format.targetExponent, totalExponent, Format.mantissaBits, Format.minExponent]
  norm_num
  omega

theorem shiftToTarget_eq {L : ℕ} (h : m.log2 + j = L + 52) (hj : j ≤ L) :
    shiftToTargetExponent .binary64 m (j - 52) .exact =
      (ExtendedMantissa.mk m false false >>> (L - j), (L : ℤ) - 52) := by
  have hshift : ((L : ℤ) - 52 - (j - 52)).toNat = L - j := by omega
  rw [shiftToTargetExponent, targetExponent_eq h, shiftToExponent, hshift]
  refine Prod.ext rfl ?_
  show (j : ℤ) - 52 + (L - j : ℕ) = L - 52
  omega

/-- The bits that are left are those of the rounded number. -/
theorem nearestQuotient_value (hN : 0 < N) (hj : j ≤ N.log2) (h : m * 2 ^ j = N * 2 ^ 52) :
    nearestQuotient m (2 ^ (N.log2 - j)) * 2 ^ N.log2 = nearest N * 2 ^ 52 := by
  have hscale : nearestQuotient m (2 ^ (N.log2 - j)) =
      nearestQuotient (N * 2 ^ 52) (2 ^ N.log2) := by
    rw [← nearestQuotient_scale (Nat.two_pow_pos j), h, ← Nat.pow_add, Nat.sub_add_cancel hj]
  rw [hscale]
  by_cases hlog : 52 ≤ N.log2
  · have hgap : 2 ^ N.log2 = gap N * 2 ^ 52 := by
      rw [gap, ← Nat.pow_add, Nat.sub_add_cancel hlog]
    rw [hgap, nearestQuotient_scale (Nat.two_pow_pos 52), nearest, Nat.mul_assoc]
  · have hsmall : N < 2 ^ 53 := (Nat.log2_lt hN.ne').mp (by omega)
    have hsplit : N * 2 ^ 52 = N * 2 ^ (52 - N.log2) * 2 ^ N.log2 := by
      rw [Nat.mul_assoc, ← Nat.pow_add, Nat.sub_add_cancel (by omega)]
    rw [nearest_eq (i := 0) hsmall (one_dvd _), hsplit,
      nearestQuotient_mul (Nat.two_pow_pos _)]

theorem apply_mul (s : Sign) (a b : ℤ) : s.apply (a * b) = s.apply a * b := by
  cases s
  · exact (neg_mul a b).symm
  · rfl

theorem roundWithAccuracy_represents (s : Sign) (hN : 0 < N) (hlog : N.log2 < 1023)
    (hj : j ≤ N.log2) (h : m * 2 ^ j = N * 2 ^ 52) :
    Represents (roundWithAccuracy .binary64 s m (j - 52) .exact) (s.apply (nearest N)) := by
  have hm : m ≠ 0 := by
    rintro rfl
    omega
  have hsum : m.log2 + j = N.log2 + 52 := by
    rw [← log2_mul_pow hm, ← log2_mul_pow hN.ne', h]
  have hvalue := nearestQuotient_value hN hj h
  have hround := roundedMantissa_shift m (N.log2 - j)
  generalize nearestQuotient m (2 ^ (N.log2 - j)) = q at hvalue hround
  have hpos := Nat.two_pow_pos N.log2
  have hlow : 2 ^ 52 ≤ q := by
    have hle := Nat.mul_le_mul_right (2 ^ 52) (nearest_lower (Nat.log2_self_le hN.ne'))
    rw [← hvalue, Nat.mul_comm] at hle
    exact Nat.le_of_mul_le_mul_right hle hpos
  have hhigh : q ≤ 2 ^ 53 := by
    have hle := Nat.mul_le_mul_right (2 ^ 52) (nearest_upper (Nat.lt_log2_self (n := N)).le)
    rw [← hvalue, Nat.pow_succ, Nat.mul_assoc, Nat.mul_comm (2 ^ N.log2)] at hle
    exact Nat.le_of_mul_le_mul_right hle hpos
  have hsigned : s.apply q * 2 ^ N.log2 = s.apply (nearest N) * 2 ^ 52 := by
    rw [← apply_mul, ← apply_mul]
    exact_mod_cast congrArg (fun n : ℕ => s.apply n) hvalue
  simp only [roundWithAccuracy, shiftToTarget_eq hsum hj, hround]
  rcases hhigh.lt_or_eq with hlt | rfl
  · have hlog' : q.log2 + N.log2 = N.log2 + 52 := by
      rw [(Nat.log2_eq_iff (by omega)).mpr ⟨hlow, hlt⟩, Nat.add_comm]
    have hone : q / 2 ^ (N.log2 - N.log2) = q := by simp
    simp only [shiftToTarget_eq hlog' (Nat.le_refl _), (shift_spec _ _).1, hone]
    rw [dif_neg (by omega)]
    exact .finite hlow hlt hlog.le hsigned
  · -- One bit too many; what is dropped of it is zero.
    have hlog' : (2 ^ 53).log2 + N.log2 = N.log2 + 1 + 52 := by
      rw [Nat.log2_two_pow]
      omega
    have hhalf : 2 ^ 53 / 2 ^ (N.log2 + 1 - N.log2) = 2 ^ 52 := by simp
    simp only [shiftToTarget_eq hlog' (Nat.le_succ _), (shift_spec _ _).1, hhalf]
    rw [dif_neg (by decide)]
    refine .finite (Nat.le_refl _) (by decide) hlog ?_
    have hdouble : s.apply (2 ^ 53 : ℕ) = s.apply (2 ^ 52 : ℕ) * 2 := by cases s <;> rfl
    rw [← hsigned, hdouble, pow_succ' (2 : ℤ) N.log2, mul_assoc]

theorem round_represents (s : Sign) (hN : 0 < N) (hlog : N.log2 < 1023)
    (h : m * 2 ^ j = N * 2 ^ 52) :
    Represents (UnpackedFloat.round .binary64 s m (j - 52)) (s.apply (nearest N)) := by
  have hm : m ≠ 0 := by
    rintro rfl
    omega
  have hsum : m.log2 + j = N.log2 + 52 := by
    rw [← log2_mul_pow hm, ← log2_mul_pow hN.ne', h]
  have hshift : ((j : ℤ) - 52 - (N.log2 - 52)).toNat = j - N.log2 := by omega
  have hexponent : (j : ℤ) - 52 - (j - N.log2 : ℕ) = (min j N.log2 : ℕ) - 52 := by omega
  have hvalue : m * 2 ^ (j - N.log2) * 2 ^ min j N.log2 = N * 2 ^ 52 := by
    rw [Nat.mul_assoc, ← Nat.pow_add, ← h]
    congr 2
    omega
  have hround := roundWithAccuracy_represents s hN hlog (Nat.min_le_right _ _) hvalue
  simp only [UnpackedFloat.round, decreaseExponent, targetExponent_eq hsum, hshift, hexponent,
    Nat.shiftLeft_eq]
  exact hround

theorem normalize_represents {M : ℤ} (s : Sign) (hn : n.natAbs.log2 < 1023)
    (h : M * 2 ^ j = n * 2 ^ 52) :
    Represents (UnpackedFloat.normalize .binary64 M (j - 52) s) (rounded n) := by
  obtain ⟨m, rfl | rfl⟩ := M.eq_nat_or_neg
  · have hnonneg : 0 ≤ (m : ℤ) * 2 ^ j := by positivity
    lift n to ℕ using by omega
    have hnat : m * 2 ^ j = n * 2 ^ 52 := by exact_mod_cast h
    rcases Nat.eq_zero_or_pos n with rfl | hpos
    · obtain rfl : m = 0 := by simpa using hnat
      exact .zero s
    · have hm : compare (m : ℤ) 0 = .gt := by
        rw [compare_gt_iff_gt]
        have hm : 0 < m := Nat.pos_of_mul_pos_right (hnat ▸ Nat.mul_pos hpos (Nat.two_pow_pos 52))
        omega
      rw [UnpackedFloat.normalize, hm, rounded_natCast]
      exact round_represents .positive hpos hn hnat
  · have hnonneg : 0 ≤ (m : ℤ) * 2 ^ j := by positivity
    obtain ⟨N, rfl⟩ : ∃ N : ℕ, n = -N := ⟨n.natAbs, by rw [neg_mul] at h; omega⟩
    have hnat : m * 2 ^ j = N * 2 ^ 52 := by
      rw [neg_mul, neg_mul, neg_inj] at h
      exact_mod_cast h
    rw [Int.natAbs_neg] at hn
    rcases Nat.eq_zero_or_pos N with rfl | hpos
    · obtain rfl : m = 0 := by simpa using hnat
      exact .zero s
    · have hm : compare (-(m : ℤ)) 0 = .lt := by
        rw [compare_lt_iff_lt]
        have hm : 0 < m := Nat.pos_of_mul_pos_right (hnat ▸ Nat.mul_pos hpos (Nat.two_pow_pos 52))
        omega
      rw [UnpackedFloat.normalize, hm, neg_neg, rounded_neg, rounded_natCast]
      exact round_represents .negative hpos hn hnat

/-! ## Packing -/

/-- The first bit is left out when a double is packed. -/
theorem implicit_append (hlow : 2 ^ 52 ≤ m) (hhigh : m < 2 ^ 53) :
    (1#1 ++ BitVec.ofNat 52 m).toNat = m := by
  have hrest : (BitVec.ofNat 52 m).toNat = m % 2 ^ 52 := BitVec.toNat_ofNat ..
  have hone : (1#1).toNat = 1 := rfl
  rw [BitVec.toNat_append, ← Nat.shiftLeft_add_eq_or_of_lt (BitVec.isLt _), Nat.shiftLeft_eq]
  omega

theorem Represents.unpack_pack (h : Represents u n) : (Float.Model.pack u).unpack = u := by
  cases h with
  | zero s => cases s <;> rfl
  | @finite s m k n hm hlow hhigh hk hvalue =>
    have hlog : m.log2 + 1 = 53 := by
      rw [(Nat.log2_eq_iff hm.ne').mpr ⟨hlow, hhigh⟩]
    have hfield : ((k : ℤ) - 52 + 1023 + 52).toNat = k + 1023 := by omega
    have hpack : UnpackedFloat.pack .binary64 (.finite s m (k - 52) hm) =
        packComponents .binary64 s (BitVec.ofNat 11 (k + 1023)) (BitVec.ofNat 52 m) := by
      show (if 2 ^ 11 ≤ ((k : ℤ) - 52 + 1023 + 52).toNat + 1 then _ else if m.log2 + 1 = 53 then
        packComponents .binary64 s (BitVec.ofNat 11 ((k : ℤ) - 52 + 1023 + 52).toNat)
          (BitVec.ofNat 52 m) else _) = _
      rw [hfield, if_neg (by omega), if_pos hlog]
    have hnat : (BitVec.ofNat 11 (k + 1023)).toNat = k + 1023 := by
      rw [BitVec.toNat_ofNat, Nat.mod_eq_of_lt (by omega)]
    have hones : BitVec.ofNat 11 (k + 1023) ≠ -1#11 := by
      intro heq
      have hmax : (-1#11).toNat = 2047 := rfl
      rw [heq, hmax] at hnat
      omega
    have hzero : BitVec.ofNat 11 (k + 1023) ≠ 0#11 := by
      intro heq
      rw [heq] at hnat
      simp at hnat
    show UnpackedFloat.unpack .binary64 (UnpackedFloat.pack .binary64 _) = _
    rw [hpack]
    simp only [UnpackedFloat.unpack, unpackMantissa_packComponents,
      unpackExponent_packComponents, unpackSign_packComponents, Sign.ofBitVec_toBitVec, hones,
      hzero, hnat, implicit_append hlow hhigh, if_false, UnpackedFloat.finite.injEq, true_and]
    show ((k + 1023 : ℕ) : ℤ) - (1023 + 52 : ℕ) = k - 52
    omega

/-! ## Order -/

/-- Of two doubles with all their bits, the one with the larger exponent is larger. -/
theorem exponent_first {k l : ℕ} (hhigh : m < 2 ^ 53) (hlow : 2 ^ 52 ≤ N) (hN : N < 2 ^ 53)
    (hm : 2 ^ 52 ≤ m) : m * 2 ^ k < N * 2 ^ l ↔ k < l ∨ k = l ∧ m < N := by
  have hlt {m n k l : ℕ} (hm : m < 2 ^ 53) (hn : 2 ^ 52 ≤ n) (h : k < l) :
      m * 2 ^ k < n * 2 ^ l :=
    calc m * 2 ^ k < 2 ^ 53 * 2 ^ k := Nat.mul_lt_mul_of_pos_right hm (Nat.two_pow_pos k)
      _ = 2 ^ 52 * 2 ^ (k + 1) := by
        rw [← Nat.pow_add, ← Nat.pow_add]
        congr 1
        omega
      _ ≤ n * 2 ^ l := Nat.mul_le_mul hn (Nat.pow_le_pow_right (by decide) h)
  rcases lt_trichotomy k l with h | rfl | h
  · simp [h, hlt hhigh hlow h]
  · simp [Nat.mul_lt_mul_right (Nat.two_pow_pos k)]
  · have hgt := hlt hN hm h
    constructor
    · omega
    · omega

theorem compare_lt (m n k l : ℕ) :
    (compare ((k : ℤ) - 52) (l - 52)).then (compare m n) = .lt ↔ k < l ∨ k = l ∧ m < n := by
  rw [Ordering.then_eq_lt, compare_lt_iff_lt, compare_eq_iff_eq, compare_lt_iff_lt]
  omega

theorem compare_swap (m n : ℕ) (d e : ℤ) :
    ((compare d e).then (compare m n)).swap = (compare e d).then (compare n m) := by
  rw [Ordering.swap_then, ← Std.OrientedCmp.eq_swap, ← Std.OrientedCmp.eq_swap]

theorem Represents.lt_iff (hu : Represents u a) (hv : Represents v b) :
    u.lt v = true ↔ a < b := by
  rw [UnpackedFloat.lt, beq_iff_eq]
  cases hu with
  | zero s =>
    cases hv with
    | zero t => simp [UnpackedFloat.compare]
    | @finite t n l b hn hlow hhigh hl hvalue =>
      have hpos : (0 : ℤ) < n * 2 ^ l := by positivity
      cases t <;> simp only [Sign.apply, neg_mul] at hvalue <;> simp [UnpackedFloat.compare] <;>
        omega
  | @finite s m k a hm hlow hhigh hk hvalue =>
    have hpos : (0 : ℤ) < m * 2 ^ k := by positivity
    cases hv with
    | zero t =>
      cases s <;> simp only [Sign.apply, neg_mul] at hvalue <;> simp [UnpackedFloat.compare] <;>
        omega
    | @finite t n l b hn hlow' hhigh' hl hvalue' =>
      have hpos' : (0 : ℤ) < n * 2 ^ l := by positivity
      cases s <;> cases t <;> simp only [Sign.apply, neg_mul] at hvalue hvalue' <;>
        simp only [UnpackedFloat.compare]
      · rw [Option.some.injEq, compare_swap, compare_lt, ← exponent_first hhigh' hlow hhigh hlow']
        zify
        omega
      · simp
        omega
      · simp
        omega
      · rw [Option.some.injEq, compare_lt, ← exponent_first hhigh hlow' hhigh' hlow]
        zify
        omega

/-! ## Sums -/

theorem nearest_of_bits {k : ℕ} (hhigh : m < 2 ^ 53) (h : m * 2 ^ k = N * 2 ^ 52) :
    nearest N = N := by
  by_cases hk : 52 ≤ k
  · have hN : N = m * 2 ^ (k - 52) := by
      apply Nat.eq_of_mul_eq_mul_right (Nat.two_pow_pos 52)
      rw [← h, Nat.mul_assoc, ← Nat.pow_add, Nat.sub_add_cancel hk]
    refine nearest_eq (i := k - 52) ?_ ⟨m, by rw [hN, Nat.mul_comm]⟩
    rw [hN, Nat.pow_add]
    exact Nat.mul_lt_mul_of_pos_right hhigh (Nat.two_pow_pos _)
  · refine nearest_eq (i := 0) ?_ (one_dvd _)
    have hlt : N * 2 ^ 52 < 2 ^ 53 * 2 ^ 52 :=
      calc N * 2 ^ 52 = m * 2 ^ k := h.symm
        _ ≤ m * 2 ^ 52 := Nat.mul_le_mul_left _ (Nat.pow_le_pow_right (by decide) (by omega))
        _ < 2 ^ 53 * 2 ^ 52 := Nat.mul_lt_mul_of_pos_right hhigh (by decide)
    omega

/-- What is a double is rounded to itself. -/
theorem Represents.rounded_eq (h : Represents u n) : rounded n = n := by
  cases h with
  | zero => rfl
  | @finite s m k n hm hlow hhigh hk hvalue =>
    have habs := congrArg Int.natAbs hvalue
    rw [Int.natAbs_mul, Int.natAbs_mul, Int.natAbs_pow, Int.natAbs_pow] at habs
    have hm : (s.apply m).natAbs = m := by cases s <;> simp [Sign.apply]
    rw [hm] at habs
    rw [rounded, nearest_of_bits hhigh habs, Int.sign_mul_natAbs]

theorem apply_shiftLeft (s : Sign) {k : ℕ} (h : j ≤ k) :
    s.apply (m <<< (k - j) : ℕ) * 2 ^ j = s.apply m * 2 ^ k := by
  rw [Nat.shiftLeft_eq, Nat.cast_mul, apply_mul, mul_assoc, Nat.cast_pow, Nat.cast_ofNat,
    ← pow_add, Nat.sub_add_cancel h]

theorem Represents.add (hu : Represents u a) (hv : Represents v b)
    (h : (a + b).natAbs.log2 < 1023) : Represents (u.add .binary64 v) (rounded (a + b)) := by
  cases hu with
  | zero s =>
    rw [zero_add] at h ⊢
    rw [hv.rounded_eq]
    cases hv with
    | zero t => cases s <;> cases t <;> exact .zero _
    | finite hlow hhigh hk hvalue => exact .finite hlow hhigh hk hvalue
  | @finite s m k a hm hlow hhigh hk hvalue =>
    cases hv with
    | zero t =>
      have hfinite : Represents (.finite s m (k - 52) hm) a := .finite hlow hhigh hk hvalue
      rw [add_zero, hfinite.rounded_eq]
      exact hfinite
    | @finite t n l b hn hlow' hhigh' hl hvalue' =>
      have hmin : min ((k : ℤ) - 52) (l - 52) = (min k l : ℕ) - 52 := by omega
      have hshift : ((k : ℤ) - 52 - ((min k l : ℕ) - 52)).toNat = k - min k l := by omega
      have hshift' : ((l : ℤ) - 52 - ((min k l : ℕ) - 52)).toNat = l - min k l := by omega
      simp only [UnpackedFloat.add, decreaseExponent, hmin, hshift, hshift']
      refine normalize_represents .positive h ?_
      rw [add_mul, apply_shiftLeft s (min_le_left k l), apply_shiftLeft t (min_le_right k l),
        hvalue, hvalue', add_mul]

theorem Represents.neg (h : Represents u n) : Represents u.neg (-n) := by
  cases h with
  | zero s => exact .zero _
  | @finite s m k n hm hlow hhigh hk hvalue =>
    have hneg : (-s).apply m = -s.apply m := by
      cases s
      · exact (neg_neg _).symm
      · rfl
    refine .finite hlow hhigh hk ?_
    rw [neg_mul, ← hvalue, hneg, neg_mul]

/-! ## Doubles -/

theorem Represents.denotes {x : Float} (h : Represents u n) (hx : x.toModel = .pack u) :
    Denotes x n := by
  rwa [Denotes, hx, h.unpack_pack]

theorem denotes_lt (hx : Denotes x a) (hy : Denotes y b) : x < y ↔ a < b :=
  decide_eq_true_iff.trans (Represents.lt_iff hx hy)

theorem denotes_add (hx : Denotes x a) (hy : Denotes y b) (h : (a + b).natAbs.log2 < 1023) :
    Denotes (x + y) (rounded (a + b)) :=
  (Represents.add hx hy h).denotes rfl

theorem denotes_neg (hx : Denotes x a) : Denotes (-x) (-a) :=
  (Represents.neg hx).denotes rfl

theorem denotes_zero : Denotes 0.0 0 := by
  have hunpack : (0.0 : Float).toModel.unpack = .zero .positive := rfl
  rw [Denotes, hunpack]
  exact .zero _

theorem denotes_natural (n : UInt64) : Denotes n.toFloat (rounded n.toNat) := by
  have hlog : (n.toNat : ℤ).natAbs.log2 < 1023 := by
    have hlt := n.toNat_lt
    rw [Int.natAbs_natCast]
    exact log2_small (by omega)
  exact (normalize_represents (j := 52) .positive hlog rfl).denotes rfl

theorem denotes_whole (n : Int64) : Denotes (Number.wholeToFloat n) (rounded n.toInt) := by
  have hlow := n.le_toInt
  have hhigh := n.toInt_lt
  have hsize : n.toInt.natAbs.toUInt64.toNat = n.toInt.natAbs := by
    rw [Nat.toUInt64, UInt64.toNat_ofNat']
    omega
  have hnatural := denotes_natural n.toInt.natAbs.toUInt64
  rw [hsize] at hnatural
  simp only [Number.wholeToFloat]
  split
  · have hneg : rounded n.toInt = -rounded n.toInt.natAbs := by
      rw [← rounded_neg]
      congr 1
      omega
    rw [hneg]
    exact denotes_neg hnatural
  · have hpos : (n.toInt.natAbs : ℤ) = n.toInt := by omega
    rwa [hpos] at hnatural

end Double

end Scriptlet
