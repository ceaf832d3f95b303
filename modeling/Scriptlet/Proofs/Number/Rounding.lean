import Mathlib.Algebra.Order.Ring.Int
import Mathlib.Data.Int.Order.Lemmas
import Mathlib.Data.Nat.Log
import Mathlib.Tactic.Linarith

/-!
# Rounding whole numbers to doubles

A double has 53 bits, so from `2 ^ 53` on not every whole number is one: those
that are lie a power of two apart. A whole number is rounded to the nearest of
them, and from the middle to the even one. Rounding keeps the order of
numbers, but not strictly.
-/

set_option autoImplicit false

namespace Scriptlet

namespace Double

/-- The whole number nearest to a quotient; of two, the even one. -/
def nearestQuotient (a b : ℕ) : ℕ :=
  if b < 2 * (a % b) ∨ 2 * (a % b) = b ∧ a / b % 2 = 1 then a / b + 1 else a / b

/-- How far apart doubles are at a whole number, if that is no less than one. -/
def gap (n : ℕ) : ℕ := 2 ^ (n.log2 - 52)

/-- The double nearest to a natural number. -/
def nearest (n : ℕ) : ℕ := nearestQuotient n (gap n) * gap n

/-- The double nearest to an integer. -/
def rounded (n : ℤ) : ℤ := n.sign * nearest n.natAbs

variable {a b c g n t i : ℕ}

/-! ## Quotients -/

theorem nearestQuotient_mul (hb : 0 < b) (q : ℕ) : nearestQuotient (q * b) b = q := by
  simp [nearestQuotient, Nat.mul_div_cancel q hb, hb.ne]

theorem nearestQuotient_scale (hc : 0 < c) (a b : ℕ) :
    nearestQuotient (a * c) (b * c) = nearestQuotient a b := by
  have hmod : a * c % (b * c) = a % b * c := Nat.mul_mod_mul_right c a b
  have hlt : b * c < 2 * (a % b * c) ↔ b < 2 * (a % b) := by
    rw [← Nat.mul_assoc, Nat.mul_lt_mul_right hc]
  have heq : 2 * (a % b * c) = b * c ↔ 2 * (a % b) = b := by
    rw [← Nat.mul_assoc, Nat.mul_left_inj hc.ne']
  simp only [nearestQuotient, Nat.mul_div_mul_right a b hc, hmod, hlt, heq]

/-- No whole number is nearer, and a quotient in the middle of two goes to the even one. -/
theorem nearestQuotient_spec (hb : 0 < b) (a : ℕ) :
    2 * a ≤ 2 * (nearestQuotient a b * b) + b ∧ 2 * (nearestQuotient a b * b) ≤ 2 * a + b ∧
      (2 * a = 2 * (nearestQuotient a b * b) + b ∨ 2 * (nearestQuotient a b * b) = 2 * a + b →
        nearestQuotient a b % 2 = 0) := by
  have hsplit : a / b * b + a % b = a := Nat.div_add_mod' a b
  have hlt := Nat.mod_lt a hb
  unfold nearestQuotient
  split
  · rw [Nat.add_mul, Nat.one_mul]
    omega
  · omega

theorem nearestQuotient_mono (hb : 0 < b) (h : a ≤ c) :
    nearestQuotient a b ≤ nearestQuotient c b := by
  obtain ⟨-, hhigh, hodd⟩ := nearestQuotient_spec hb a
  obtain ⟨hlow, -, hodd'⟩ := nearestQuotient_spec hb c
  by_contra hlt
  have hnext : (nearestQuotient c b + 1) * b ≤ nearestQuotient a b * b :=
    Nat.mul_le_mul_right b (by omega)
  rw [Nat.add_mul, Nat.one_mul] at hnext
  -- Two neighbours are rounded to from the same middle, and only one of them is even.
  have heven := hodd (by omega)
  have heven' := hodd' (by omega)
  have hsame : nearestQuotient a b * b = (nearestQuotient c b + 1) * b := by
    rw [Nat.add_mul, Nat.one_mul]
    omega
  have hone := Nat.eq_of_mul_eq_mul_right hb hsame
  omega

/-! ## Gaps -/

theorem gap_pos (n : ℕ) : 0 < gap n := Nat.two_pow_pos _

theorem gap_dvd_nearest (n : ℕ) : gap n ∣ nearest n := Nat.dvd_mul_left ..

theorem gap_dvd_pow (h : n < 2 ^ (53 + i)) : gap n ∣ 2 ^ i := by
  refine Nat.pow_dvd_pow 2 ?_
  by_cases hn : n = 0
  · simp [hn]
  · have hlog := (Nat.log2_lt hn).mpr h
    omega

theorem pow_dvd_gap (h : 2 ^ (52 + i) ≤ n) : 2 ^ i ∣ gap n := by
  have hlog := (Nat.le_log2 (by have := Nat.two_pow_pos (52 + i); omega)).mpr h
  exact Nat.pow_dvd_pow 2 (by omega)

/-- The error is at most half a gap. -/
theorem le_nearest_add (n : ℕ) : 2 * n ≤ 2 * nearest n + gap n :=
  (nearestQuotient_spec (gap_pos n) n).1

/-- A multiple of the gap is rounded to itself. -/
theorem nearestQuotient_gap (h : gap n ∣ t) : nearestQuotient t (gap n) * gap n = t := by
  obtain ⟨q, rfl⟩ := h
  rw [Nat.mul_comm (gap n), nearestQuotient_mul (gap_pos n)]

/-- A number of 53 bits with zeros behind them is a double. -/
theorem nearest_eq (h : n < 2 ^ (53 + i)) (hd : 2 ^ i ∣ n) : nearest n = n :=
  nearestQuotient_gap ((gap_dvd_pow h).trans hd)

theorem nearest_pow (i : ℕ) : nearest (2 ^ i) = 2 ^ i := by
  refine nearestQuotient_gap (Nat.pow_dvd_pow 2 ?_)
  rw [Nat.log2_two_pow]
  exact Nat.sub_le ..

theorem nearest_le (hg : gap n ∣ t) (h : n ≤ t) : nearest n ≤ t :=
  calc nearest n ≤ nearestQuotient t (gap n) * gap n :=
        Nat.mul_le_mul_right _ (nearestQuotient_mono (gap_pos n) h)
    _ = t := nearestQuotient_gap hg

theorem le_nearest (hg : gap n ∣ t) (h : t ≤ n) : t ≤ nearest n :=
  calc t = nearestQuotient t (gap n) * gap n := (nearestQuotient_gap hg).symm
    _ ≤ nearest n := Nat.mul_le_mul_right _ (nearestQuotient_mono (gap_pos n) h)

/-! ## Order -/

theorem nearest_mono (h : a ≤ b) : nearest a ≤ nearest b := by
  by_cases ha : a = 0
  · simp [ha, nearest, nearestQuotient]
  have hb : b ≠ 0 := by omega
  have hlog : a.log2 ≤ b.log2 := (Nat.le_log2 hb).mpr ((Nat.log2_self_le ha).trans h)
  rcases hlog.eq_or_lt with heq | hlt
  · have hgap : gap a = gap b := by rw [gap, gap, heq]
    rw [nearest, nearest, hgap]
    exact Nat.mul_le_mul_right _ (nearestQuotient_mono (gap_pos b) h)
  · -- Powers of two are doubles, and one of them is in between.
    calc nearest a ≤ 2 ^ (a.log2 + 1) :=
          nearest_le (Nat.pow_dvd_pow 2 (by omega)) Nat.lt_log2_self.le
      _ ≤ 2 ^ b.log2 := Nat.pow_le_pow_right (by decide) hlt
      _ ≤ nearest b := le_nearest (Nat.pow_dvd_pow 2 (by omega)) (Nat.log2_self_le hb)

theorem nearest_lower (h : 2 ^ i ≤ n) : 2 ^ i ≤ nearest n :=
  (nearest_pow i).symm.le.trans (nearest_mono h)

theorem nearest_upper (h : n ≤ 2 ^ i) : nearest n ≤ 2 ^ i :=
  (nearest_mono h).trans (nearest_pow i).le

/-- Where the exact sum is too large for 64 bits, the sum on doubles is too. -/
theorem le_nearest_sum (ha : a ≤ 2 ^ 63) (hb : b ≤ 2 ^ 63) (h : 2 ^ 63 ≤ a + b) :
    2 ^ 63 ≤ nearest (nearest a + nearest b) := by
  wlog hab : b ≤ a generalizing a b
  · rw [Nat.add_comm]
    exact this hb ha (by omega) (by omega)
  -- The last middle below `2 ^ 63` is rounded up.
  have hmiddle : nearest (2 ^ 63 - 512) = 2 ^ 63 := by decide
  suffices hsum : 2 ^ 63 - 512 ≤ nearest a + nearest b from hmiddle.symm.le.trans (nearest_mono hsum)
  rcases ha.eq_or_lt with rfl | ha
  · rw [nearest_pow]
    omega
  have hlower : 2 ^ 62 ≤ nearest a := nearest_lower (by omega)
  have herror : a ≤ nearest a + 512 := by
    have hgap : gap a ≤ 2 ^ 10 := Nat.le_of_dvd (by decide) (gap_dvd_pow ha)
    have hle := le_nearest_add a
    omega
  have hdvd : 2 ^ 9 ∣ nearest a :=
    (Nat.pow_dvd_pow 2 (by decide)).trans ((pow_dvd_gap (i := 10) (by omega)).trans
      (gap_dvd_nearest a))
  -- What is missing to the middle is a double, as it is no more than `2 ^ 62`.
  have hrest : nearest (2 ^ 63 - 512 - nearest a) = 2 ^ 63 - 512 - nearest a :=
    nearest_eq (i := 9) (by omega) (Nat.dvd_sub (by decide) hdvd)
  have hmono : nearest (2 ^ 63 - 512 - nearest a) ≤ nearest b := nearest_mono (by omega)
  omega

/-! ## Integers -/

theorem rounded_natCast (n : ℕ) : rounded n = nearest n := by
  by_cases hn : n = 0
  · simp [hn, rounded, nearest, nearestQuotient]
  · rw [rounded, Int.sign_natCast_of_ne_zero hn, Int.natAbs_natCast, one_mul]

theorem rounded_neg (n : ℤ) : rounded (-n) = -rounded n := by
  rw [rounded, rounded, Int.sign_neg, Int.natAbs_neg, neg_mul]

theorem rounded_eq {n : ℤ} (h : |n| ≤ 2 ^ 53) : rounded n = n := by
  rw [Int.abs_eq_natAbs] at h
  have hn : nearest n.natAbs = n.natAbs := by
    rcases (show n.natAbs ≤ 2 ^ 53 by omega).eq_or_lt with heq | hlt
    · rw [heq, nearest_pow]
    · exact nearest_eq (i := 0) hlt (one_dvd _)
  rw [rounded, hn, Int.sign_mul_natAbs]

theorem rounded_mono {m n : ℤ} (h : m ≤ n) : rounded m ≤ rounded n := by
  obtain ⟨a, rfl | rfl⟩ := m.eq_nat_or_neg <;> obtain ⟨b, rfl | rfl⟩ := n.eq_nat_or_neg <;>
    simp only [rounded_neg, rounded_natCast]
  · exact_mod_cast nearest_mono (by omega)
  · have ha : a = 0 := by omega
    have hb : b = 0 := by omega
    simp [ha, hb, nearest, nearestQuotient]
  · omega
  · have hle : nearest b ≤ nearest a := nearest_mono (by omega)
    omega

theorem rounded_upper {n : ℤ} (h : n ≤ 2 ^ 63) : rounded n ≤ 2 ^ 63 := by
  have hpow : rounded (2 ^ 63) = 2 ^ 63 := by decide
  exact hpow ▸ rounded_mono h

theorem rounded_lower {n : ℤ} (h : -2 ^ 63 ≤ n) : -2 ^ 63 ≤ rounded n := by
  have hle := rounded_upper (n := -n) (by omega)
  rw [rounded_neg] at hle
  omega

/-- A sum beyond the largest number of 64 bits stays there when it is done on doubles. -/
theorem le_rounded_sum {m n : ℤ} (hm : m < 2 ^ 63) (hn : n < 2 ^ 63) (h : 2 ^ 63 ≤ m + n) :
    2 ^ 63 ≤ rounded (rounded m + rounded n) := by
  lift m to ℕ using by omega
  lift n to ℕ using by omega
  have hle := le_nearest_sum (a := m) (b := n) (by omega) (by omega) (by omega)
  rw [rounded_natCast, rounded_natCast, ← Nat.cast_add, rounded_natCast]
  exact_mod_cast hle

/-- The same below the smallest. -/
theorem rounded_sum_le {m n : ℤ} (hm : -2 ^ 63 ≤ m) (hn : -2 ^ 63 ≤ n) (h : m + n < -2 ^ 63) :
    rounded (rounded m + rounded n) ≤ -2 ^ 63 := by
  obtain ⟨a, rfl⟩ : ∃ a : ℕ, m = -a := ⟨m.natAbs, by omega⟩
  obtain ⟨b, rfl⟩ : ∃ b : ℕ, n = -b := ⟨n.natAbs, by omega⟩
  have hle := le_nearest_sum (a := a) (b := b) (by omega) (by omega) (by omega)
  rw [rounded_neg, rounded_neg, ← neg_add, rounded_neg, rounded_natCast, rounded_natCast,
    ← Nat.cast_add, rounded_natCast, neg_le_neg_iff]
  exact_mod_cast hle

end Double

end Scriptlet
