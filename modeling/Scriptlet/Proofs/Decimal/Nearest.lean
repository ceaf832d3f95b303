import Scriptlet.Proofs.Decimal.Value
import Mathlib.Tactic.NormNum

/-!
# The shortest decimal is near enough

The search for the shortest decimal of a double ends on one of its grids, at
the latest on that of seventeen digits, with a decimal between the midpoints
to the double's neighbours.
-/

set_option autoImplicit false

namespace Scriptlet.Decimal

namespace Shortest

variable {i : Interval}

/-- The numbers that read back as the value. -/
def Interval.Contains (i : Interval) (x : ℚ) : Prop :=
  if i.closed then i.low * 2 ^ i.exponent ≤ x ∧ x ≤ i.high * 2 ^ i.exponent
  else i.low * 2 ^ i.exponent < x ∧ x < i.high * 2 ^ i.exponent

/-! ## Exact comparisons -/

theorem ratio_eq (binary decimal : ℤ) : ratio binary decimal =
    (10 ^ (-decimal).toNat * 2 ^ binary.toNat, 10 ^ decimal.toNat * 2 ^ (-binary).toNat) := by
  simp only [ratio, Nat.shiftLeft_eq, Nat.pow_eq]

theorem ratio_den_pos (binary decimal : ℤ) : 0 < (ratio binary decimal).2 := by
  rw [ratio_eq]
  positivity

theorem pow_toNat_mul_zpow {b : ℚ} (hb : b ≠ 0) (n : ℤ) :
    b ^ (-n).toNat * b ^ n = b ^ n.toNat := by
  rw [← zpow_natCast, ← zpow_natCast, ← zpow_add₀ hb]
  congr 1
  omega

/-- Comparing with a power of ten is comparing whole numbers. -/
theorem ratio_spec (binary decimal : ℤ) :
    ((ratio binary decimal).1 : ℚ) * 10 ^ decimal = (ratio binary decimal).2 * 2 ^ binary := by
  have hten := pow_toNat_mul_zpow (b := 10) (by norm_num) decimal
  have htwo := pow_toNat_mul_zpow (b := 2) (by norm_num) binary
  rw [ratio_eq]
  push_cast
  rw [mul_right_comm, hten, ← htwo, mul_assoc]

/-- Both whole numbers are the rational ones times the same factor. -/
theorem ratio_scale (binary decimal : ℤ) : ∃ c : ℚ, 0 < c ∧
    (∀ a : ℕ, ((a * (ratio binary decimal).1 : ℕ) : ℚ) = c * (a * 2 ^ binary)) ∧
    ∀ n : ℕ, ((n * (ratio binary decimal).2 : ℕ) : ℚ) = c * (n * 10 ^ decimal) := by
  have hden : (0 : ℚ) < (ratio binary decimal).2 := Nat.cast_pos.mpr (ratio_den_pos ..)
  have hten : (0 : ℚ) < 10 ^ decimal := zpow_pos (by norm_num) _
  refine ⟨(ratio binary decimal).2 / 10 ^ decimal, div_pos hden hten, fun a => ?_, fun n => ?_⟩
  · have hspec := ratio_spec binary decimal
    push_cast
    field_simp
    rw [mul_assoc, hspec]
    ring
  · push_cast
    field_simp

theorem ratio_le_iff (binary decimal : ℤ) (a n : ℕ) :
    a * (ratio binary decimal).1 ≤ n * (ratio binary decimal).2 ↔
      (a : ℚ) * 2 ^ binary ≤ n * 10 ^ decimal := by
  obtain ⟨c, hc, ha, hn⟩ := ratio_scale binary decimal
  rw [← Nat.cast_le (α := ℚ), ha, hn, mul_le_mul_iff_right₀ hc]

theorem ratio_ge_iff (binary decimal : ℤ) (a n : ℕ) :
    n * (ratio binary decimal).2 ≤ a * (ratio binary decimal).1 ↔
      (n : ℚ) * 10 ^ decimal ≤ a * 2 ^ binary := by
  obtain ⟨c, hc, ha, hn⟩ := ratio_scale binary decimal
  rw [← Nat.cast_le (α := ℚ), ha, hn, mul_le_mul_iff_right₀ hc]

theorem ratio_lt_iff (binary decimal : ℤ) (a n : ℕ) :
    a * (ratio binary decimal).1 < n * (ratio binary decimal).2 ↔
      (a : ℚ) * 2 ^ binary < n * 10 ^ decimal := by
  rw [← not_le, ratio_ge_iff, not_le]

theorem ratio_gt_iff (binary decimal : ℤ) (a n : ℕ) :
    n * (ratio binary decimal).2 < a * (ratio binary decimal).1 ↔
      (n : ℚ) * 10 ^ decimal < a * 2 ^ binary := by
  rw [← not_le, ratio_le_iff, not_le]

theorem ratio_add_lt_iff (binary decimal : ℤ) (a b : ℕ) :
    a * (ratio binary decimal).1 + (ratio binary decimal).2 < b * (ratio binary decimal).1 ↔
      (a : ℚ) * 2 ^ binary + 10 ^ decimal < b * 2 ^ binary := by
  obtain ⟨c, hc, ha, hn⟩ := ratio_scale binary decimal
  have hone := hn 1
  rw [one_mul, Nat.cast_one, one_mul] at hone
  rw [← Nat.cast_lt (α := ℚ), Nat.cast_add, ha, ha, hone, ← mul_add, mul_lt_mul_iff_right₀ hc]

/-! ## One grid -/

theorem onGrid?_contains {g : ℤ} {n : ℕ} (h : onGrid? i g = some n) :
    0 < n ∧ i.Contains (n * 10 ^ g) := by
  have hlow (m : ℕ) := ratio_le_iff i.exponent g i.low m
  have hhigh (m : ℕ) := ratio_ge_iff i.exponent g i.high m
  have hlow' (m : ℕ) := ratio_lt_iff i.exponent g i.low m
  have hhigh' (m : ℕ) := ratio_gt_iff i.exponent g i.high m
  unfold onGrid? at h
  generalize ratio i.exponent g = r at h hlow hhigh hlow' hhigh'
  obtain ⟨num, den⟩ := r
  dsimp -zeta only at h hlow hhigh hlow' hhigh'
  extract_lets value d inside at h
  have hinside (m : ℕ) (hm : inside m = true) : i.Contains (m * 10 ^ g) := by
    unfold Interval.Contains
    simp only [inside] at hm
    split at hm <;> rename_i hc
    · rw [if_pos hc, ← hlow, ← hhigh]
      simpa using hm
    · rw [if_neg hc, ← hlow', ← hhigh']
      simpa using hm
  split at h <;> rename_i hd hd'
  · rw [Bool.and_eq_true, decide_eq_true_eq] at hd
    split_ifs at h <;> obtain rfl := Option.some.inj h
    · exact ⟨hd.2, hinside _ hd.1⟩
    · exact ⟨Nat.succ_pos d, hinside _ hd'⟩
  · rw [Bool.and_eq_true, decide_eq_true_eq] at hd
    obtain rfl := Option.some.inj h
    exact ⟨hd.2, hinside _ hd.1⟩
  · obtain rfl := Option.some.inj h
    exact ⟨Nat.succ_pos d, hinside _ hd'⟩
  · cases h

/-- A grid finer than the interval is wide has a point in it next to the value. -/
theorem onGrid?_isSome {g : ℤ} (hlow : i.low < i.value) (hhigh : i.value < i.high)
    (hvalue : (10 : ℚ) ^ g ≤ i.value * 2 ^ i.exponent)
    (hfine : i.low * 2 ^ i.exponent + 10 ^ g < (i.high : ℚ) * 2 ^ i.exponent) :
    (onGrid? i g).isSome := by
  have hfirst : 1 * (ratio i.exponent g).2 ≤ i.value * (ratio i.exponent g).1 :=
    (ratio_ge_iff ..).mpr (by simpa using hvalue)
  have hwide := (ratio_add_lt_iff i.exponent g i.low i.high).mpr hfine
  have hden := ratio_den_pos i.exponent g
  unfold onGrid?
  generalize ratio i.exponent g = r at hfirst hwide hden
  obtain ⟨num, den⟩ := r
  dsimp -zeta only at hfirst hwide hden ⊢
  extract_lets value d inside
  rw [one_mul] at hfirst
  have hd : 0 < d := Nat.div_pos hfirst hden
  have hnear : d * den ≤ value := Nat.div_mul_le_self value den
  have hfar : value < (d + 1) * den := Nat.lt_mul_of_div_lt (Nat.lt_succ_self _) hden
  have hnum : 0 < num := Nat.pos_of_ne_zero fun h => by simp [h] at hfirst; omega
  have hbelow : i.low * num < value := Nat.mul_lt_mul_of_pos_right hlow hnum
  have habove : value < i.high * num := Nat.mul_lt_mul_of_pos_right hhigh hnum
  have hinside (m : ℕ) (hl : i.low * num < m * den) (hh : m * den < i.high * num) :
      inside m = true := by
    simp only [inside]
    split <;> simp [hl, hh, hl.le, hh.le]
  -- If the lower neighbour is outside, the grid is too fine for the upper one to be so, too.
  have hone : inside d = true ∨ inside (d + 1) = true := by
    rcases lt_or_ge (i.low * num) (d * den) with hl | hl
    · exact .inl (hinside d hl (hnear.trans_lt habove))
    · refine .inr (hinside (d + 1) (hbelow.trans hfar) ?_)
      rw [add_mul, one_mul]
      omega
  split
  · split <;> rfl
  · rfl
  · rfl
  · simp_all

/-! ## The first grid -/

theorem below_iff (i : Interval) (k : ℤ) :
    below i k = true ↔ (i.value : ℚ) * 2 ^ i.exponent < 10 ^ k := by
  have h := ratio_lt_iff i.exponent k i.value 1
  rw [one_mul, Nat.cast_one, one_mul] at h
  simpa [below] using h

theorem magnitudeFrom_le {tries : ℕ} {k : ℤ} (h : (10 : ℚ) ^ (k - 1) ≤ i.value * 2 ^ i.exponent) :
    (10 : ℚ) ^ (magnitudeFrom i tries k - 1) ≤ i.value * 2 ^ i.exponent := by
  induction tries generalizing k with
  | zero => exact h
  | succ tries ih =>
    rw [magnitudeFrom]
    split
    · exact h
    · rename_i hk
      rw [below_iff, not_lt] at hk
      exact ih (by rwa [add_sub_cancel_right])

theorem ten_zpow_le_two_zpow {a n : ℤ} {p q : ℕ} (hq : q ≠ 0) (h : q * a ≤ p * n)
    (hpow : ((10 : ℚ) ^ p) ^ n ≤ (2 ^ q) ^ n) : (10 : ℚ) ^ a ≤ 2 ^ n := by
  have hroot : ((10 : ℚ) ^ a) ^ q ≤ (2 ^ n) ^ q := by
    calc ((10 : ℚ) ^ a) ^ q = 10 ^ (q * a) := by rw [mul_comm, zpow_mul, zpow_natCast]
      _ ≤ 10 ^ (p * n) := zpow_le_zpow_right₀ (by norm_num) h
      _ = (10 ^ p) ^ n := by rw [zpow_mul, zpow_natCast]
      _ ≤ (2 ^ q) ^ n := hpow
      _ = (2 ^ n) ^ q := by rw [← zpow_natCast, ← zpow_natCast, ← zpow_mul, ← zpow_mul, mul_comm]
  exact (pow_le_pow_iff_left₀ (by positivity) (by positivity) hq).mp hroot

/-- The search for the number of digits starts low enough for every double: the logarithm of two
is between `28 / 93` and `59 / 196`. -/
theorem ten_zpow_start_le {n : ℤ} (hn : -2000 ≤ n ∧ n ≤ 2000) :
    (10 : ℚ) ^ (n * 30103 / 100000 - 1) ≤ 2 ^ n := by
  rcases le_or_gt 0 n with hpos | hneg
  · refine ten_zpow_le_two_zpow (q := 196) (p := 59) (by norm_num) (by omega) ?_
    exact zpow_le_zpow_left₀ hpos (by norm_num) (by norm_num)
  · refine ten_zpow_le_two_zpow (q := 93) (p := 28) (by norm_num) (by omega) ?_
    obtain ⟨m, rfl⟩ : ∃ m : ℕ, n = -m := ⟨n.natAbs, by omega⟩
    rw [zpow_neg, zpow_neg, zpow_natCast, zpow_natCast]
    exact inv_anti₀ (by positivity) (pow_le_pow_left₀ (by norm_num) (by norm_num) m)

theorem magnitude_le (hvalue : 0 < i.value)
    (hn : -2000 ≤ (i.value.log2 : ℤ) + i.exponent ∧ (i.value.log2 : ℤ) + i.exponent ≤ 2000) :
    (10 : ℚ) ^ (magnitude i - 1) ≤ i.value * 2 ^ i.exponent := by
  refine magnitudeFrom_le ((ten_zpow_start_le hn).trans ?_)
  have hlog : ((2 ^ i.value.log2 : ℕ) : ℚ) ≤ i.value :=
    Nat.cast_le.mpr (Nat.log2_self_le hvalue.ne')
  rw [zpow_add₀ (by norm_num), zpow_natCast]
  exact mul_le_mul_of_nonneg_right (by exact_mod_cast hlog) (by positivity)

/-! ## The search -/

theorem trimmed_spec (fuel : ℕ) (s : Scaled) (hs : 0 < s.digits) :
    0 < (trimmed fuel s).digits ∧ (trimmed fuel s).value = s.value := by
  induction fuel generalizing s with
  | zero => exact ⟨hs, rfl⟩
  | succ fuel ih =>
    rw [trimmed]
    split
    · rename_i h
      obtain ⟨hpos, hvalue⟩ := ih ⟨s.digits / 10, s.exponent + 1⟩ (by dsimp only; omega)
      refine ⟨hpos, hvalue.trans ?_⟩
      have hten : s.digits = s.digits / 10 * 10 := by omega
      unfold Scaled.value
      dsimp only
      conv_rhs => rw [hten]
      rw [zpow_add_one₀ (by norm_num)]
      push_cast
      ring
    · exact ⟨hs, rfl⟩

theorem search_spec {m : ℤ} {count places : ℕ} (last : ℕ)
    (hlast : places ≤ last ∧ last < places + count)
    (h : (onGrid? i (m - last)).isSome) :
    0 < (search i m count places).digits ∧ i.Contains (search i m count places).value := by
  induction count generalizing places with
  | zero => omega
  | succ count ih =>
    rw [search]
    split
    · rename_i d hd
      obtain ⟨hpos, hin⟩ := onGrid?_contains hd
      obtain ⟨hpos', hvalue⟩ := trimmed_spec 18 ⟨d, m - places⟩ hpos
      exact ⟨hpos', by rw [hvalue]; exact hin⟩
    · rename_i hd
      refine ih ⟨?_, by omega⟩
      rcases eq_or_lt_of_le hlast.1 with rfl | hlt
      · rw [hd] at h
        cases h
      · exact hlt

end Shortest

/-- A double other than zero, by its mantissa and exponent. -/
structure Canonical (mantissa : ℕ) (exponent : ℤ) : Prop where
  pos : 0 < mantissa
  lt : mantissa < 2 ^ 53
  least : -1074 ≤ exponent
  most : exponent ≤ 971
  /-- Only numbers with the least exponent have fewer bits. -/
  full : -1074 < exponent → 2 ^ 52 ≤ mantissa

open Shortest

variable {mantissa : ℕ} {exponent : ℤ}

/-- The interval is wider than the value is, counted in the seventeenth digit. -/
theorem Canonical.wide (h : Canonical mantissa exponent) :
    (interval mantissa exponent).low * 10 ^ 16 + (interval mantissa exponent).value <
      (interval mantissa exponent).high * 10 ^ 16 := by
  have hpos := h.pos
  have hlt := h.lt
  simp only [interval]
  split <;> omega

theorem Canonical.between (h : Canonical mantissa exponent) :
    (interval mantissa exponent).low < (interval mantissa exponent).value ∧
      (interval mantissa exponent).value < (interval mantissa exponent).high := by
  have hpos := h.pos
  simp only [interval]
  split <;> omega

theorem Canonical.magnitude_le (h : Canonical mantissa exponent) :
    (10 : ℚ) ^ (magnitude (interval mantissa exponent) - 1) ≤
      (interval mantissa exponent).value * 2 ^ (interval mantissa exponent).exponent := by
  have hpos : 0 < 4 * mantissa := Nat.mul_pos (by decide) h.pos
  have hlog : (4 * mantissa).log2 < 55 :=
    (Nat.log2_lt hpos.ne').mpr (by have := h.lt; omega)
  have hleast := h.least
  have hmost := h.most
  refine Shortest.magnitude_le hpos ?_
  simp only [interval]
  omega

theorem shortest_spec (h : Canonical mantissa exponent) :
    0 < (shortest mantissa exponent).digits ∧
      (interval mantissa exponent).Contains (shortest mantissa exponent).value := by
  have hmagnitude := h.magnitude_le
  have hwide : ((interval mantissa exponent).low : ℚ) * 10 ^ 16 +
      (interval mantissa exponent).value < (interval mantissa exponent).high * 10 ^ 16 := by
    exact_mod_cast h.wide
  unfold shortest
  extract_lets i
  change (10 : ℚ) ^ (magnitude i - 1) ≤ i.value * 2 ^ i.exponent at hmagnitude
  change (i.low : ℚ) * 10 ^ 16 + i.value < i.high * 10 ^ 16 at hwide
  have hstep : (10 : ℚ) ^ (magnitude i - (17 : ℕ)) * 10 ^ 16 = 10 ^ (magnitude i - 1) := by
    rw [← zpow_natCast, ← zpow_add₀ (by norm_num)]
    congr 1
    push_cast
    ring
  have htwo : (0 : ℚ) < 2 ^ i.exponent := by positivity
  have hten : (0 : ℚ) < 10 ^ (magnitude i - (17 : ℕ)) := by positivity
  refine search_spec 17 (by norm_num) (onGrid?_isSome h.between.1 h.between.2 ?_ ?_)
  · linarith
  · nlinarith

end Scriptlet.Decimal
