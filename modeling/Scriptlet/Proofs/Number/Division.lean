import Scriptlet.Proofs.Number.Exact
import Mathlib

/-!
# Whole division

A whole quotient is rounded toward zero, and a remainder has the sign of the
divisor. The one quotient that does not have 64 bits is that of the smallest
number by minus one. The numbers equal to zero are three: one is whole, and
two are doubles.
-/

set_option autoImplicit false

namespace Scriptlet

/-- What a remainder is: the dividend less a multiple of the divisor, with the divisor's sign and
less than it in size. -/
structure IsRemainder (m n r : ℤ) : Prop where
  congruent : r ≡ m [ZMOD n]
  of_pos : 0 < n → 0 ≤ r ∧ r < n
  of_neg : n < 0 → n < r ∧ r ≤ 0

/-- The numbers that are equal to zero. -/
def Number.zeros : List Number := [.int 0, .float 0.0, .float (-0.0)]

/-- The fault of an operator with a divisor that is zero. -/
def BinaryOp.zeroFault (op : BinaryOp) : Fault :=
  if op = .mod then .moduloByZero else .divisionByZero

variable {a b : Int64} {m n : ℤ}

/-! ## Integers -/

theorem remainder_isRemainder (m : ℤ) (hn : n ≠ 0) : IsRemainder m n (Whole.remainder m n) := by
  have hsize : (m.tmod n).natAbs < n.natAbs := by
    rw [Int.natAbs_tmod]
    exact Nat.mod_lt _ (by omega)
  have hcongruent : m.tmod n ≡ m [ZMOD n] := Int.modEq_iff_dvd.mpr Int.dvd_self_sub_tmod
  simp only [Whole.remainder]
  split
  · next h =>
    have hsign : m.tmod n < 0 ↔ ¬ n < 0 := by
      obtain ⟨-, h⟩ := h
      by_cases hn : n < 0 <;> by_cases hr : m.tmod n < 0 <;> simp_all
    exact ⟨Int.add_modEq_right.trans hcongruent, by omega, by omega⟩
  · next h =>
    have hsign : m.tmod n ≠ 0 → (m.tmod n < 0 ↔ n < 0) := by
      intro hr
      have hsame : ¬ (m.tmod n < 0) ≠ (n < 0) := fun hne => h ⟨hr, hne⟩
      simpa using hsame
    exact ⟨hcongruent, by omega, by omega⟩

theorem IsRemainder.bounds {r : ℤ} (h : IsRemainder m b.toInt r) (hb : b.toInt ≠ 0) :
    -2 ^ 63 ≤ r ∧ r < 2 ^ 63 := by
  have hlow := b.le_toInt
  have hhigh := b.toInt_lt
  rcases lt_or_gt_of_ne hb with hneg | hpos
  · have := h.of_neg hneg
    omega
  · have := h.of_pos hpos
    omega

theorem toInt_ne_zero (hb : b ≠ 0) : b.toInt ≠ 0 := fun h => hb (Int64.toInt_inj.mp h)

/-- The quotient of two whole numbers has 64 bits, but for that of the smallest by minus one. -/
theorem int64?_tdiv (hb : b ≠ 0) (h : ¬ (a = Int64.minValue ∧ b = -1)) :
    int64? (a.toInt.tdiv b.toInt) ≠ none := by
  have hb' := toInt_ne_zero hb
  have hle := Int.natAbs_tdiv_le_natAbs a.toInt b.toInt
  have hlow := a.le_toInt
  have hhigh := a.toInt_lt
  intro hnone
  have hlarge : 2 ^ 63 ≤ a.toInt.tdiv b.toInt := by
    rcases int64?_eq_none.mp hnone with h | h <;> omega
  have hleast : a.toInt = -2 ^ 63 := by omega
  -- A divisor of another size than one makes the quotient smaller than that.
  have hone : b.toInt = -1 := by
    by_contra hne
    have hne' : b.toInt ≠ 1 := by
      intro hone
      rw [hone, hleast] at hlarge
      norm_num at hlarge
    have hhalf : (a.toInt.tdiv b.toInt).natAbs * 2 ≤ a.toInt.natAbs :=
      calc (a.toInt.tdiv b.toInt).natAbs * 2
          = a.toInt.natAbs / b.toInt.natAbs * 2 := by rw [Int.natAbs_tdiv]; rfl
        _ ≤ a.toInt.natAbs / b.toInt.natAbs * b.toInt.natAbs :=
          Nat.mul_le_mul_left _ (by omega)
        _ ≤ a.toInt.natAbs := Nat.div_mul_le_self ..
    omega
  exact h ⟨Int64.toInt_inj.mp hleast, Int64.toInt_inj.mp hone⟩

/-! ## Operators -/

theorem numbers_intDiv (hb : b ≠ 0) :
    ∃ v, Operator.numbers .intDiv (.int a) (.int b) = .ok (.value v) ∧
      v.Exact (a.toInt.tdiv b.toInt) :=
  numbers_of_exact (if_neg (toInt_ne_zero hb)) fun _ _ => ⟨_, rfl⟩

theorem numbers_mod (hb : b ≠ 0) (h : ¬ (a = Int64.minValue ∧ b = -1)) :
    ∃ r, Operator.numbers .mod (.int a) (.int b) = .ok (.value (.int r)) ∧
      IsRemainder a.toInt b.toInt r.toInt := by
  have hb' := toInt_ne_zero hb
  have hr := remainder_isRemainder a.toInt hb'
  have hwhole : Whole.compute? .mod a b = Outcome.int? (Whole.remainder a.toInt b.toInt) :=
    if_neg (not_or.mpr ⟨hb', by simpa using int64?_tdiv hb h⟩)
  obtain ⟨v, hv, hexact⟩ := numbers_of_exact hwhole fun _ _ => ⟨_, rfl⟩
  obtain ⟨hlow, hhigh⟩ := hr.bounds hb'
  have htoInt : (Int64.ofInt (Whole.remainder a.toInt b.toInt)).toInt =
      Whole.remainder a.toInt b.toInt := Int64.toInt_ofInt_of_le hlow hhigh
  exact ⟨_, hexact.int _ htoInt ▸ hv, htoInt.symm ▸ hr⟩

/-- Minus one has no remainder of the smallest number: that comes out as a double. -/
theorem numbers_mod_least : ∃ x,
    Operator.numbers .mod (.int Int64.minValue) (.int (-1)) = .ok (.value (.float x)) :=
  ⟨_, rfl⟩

/-! ## Zero -/

theorem Double.eq_zero_iff (x : Float) : (x == 0.0) = true ↔ x = 0.0 ∨ x = -0.0 := by
  have hpositive : (0.0 : Float).toModel.toBits.toBitVec =
      Float.Model.UnpackedFloat.packedZero .binary64 .positive := rfl
  have hnegative : (-0.0 : Float).toModel.toBits.toBitVec =
      Float.Model.UnpackedFloat.packedZero .binary64 .negative := rfl
  have hsame {y : Float} (h : x.toModel.toBits.toBitVec = y.toModel.toBits.toBitVec) : x = y := by
    obtain ⟨⟨⟨bits⟩, valid⟩⟩ := x
    obtain ⟨⟨⟨bits'⟩, valid'⟩⟩ := y
    obtain rfl : bits = bits' := h
    rfl
  constructor
  · intro h
    obtain ⟨-, -, hbits⟩ := (Float.Model.UnpackedFloat.unpack_beq_unpack_iff x.toModel.valid
      (0.0 : Float).toModel.valid).mp h
    rw [hpositive] at hbits
    rcases hbits with h | ⟨-, h⟩ | ⟨h, -⟩
    · exact .inl (hsame (h.trans hpositive.symm))
    · exact absurd h (by decide)
    · exact .inr (hsame (h.trans hnegative.symm))
  · rintro (rfl | rfl) <;> decide

theorem Number.isZero_iff (z : Number) : z.isZero = true ↔ z ∈ Number.zeros := by
  cases z with
  | int n => simp [isZero, zeros]
  | float x => simp [isZero, zeros, Double.eq_zero_iff]

theorem divisorFault?_iff {op : BinaryOp} {v w : Value} {fault : Fault} :
    Operator.divisorFault? op v w = some fault ↔ op.divides = true ∧
      (∃ n z, v = .number n ∧ w = .number z ∧ z ∈ Number.zeros) ∧ fault = op.zeroFault := by
  have hzero : v.isNumber = true ∧ w.isZero = true ↔
      ∃ n z, v = .number n ∧ w = .number z ∧ z ∈ Number.zeros := by
    cases v <;> cases w <;> simp [Value.isNumber, Value.isZero, Number.isZero_iff]
  rw [Operator.divisorFault?, ← hzero, Option.ite_none_right_eq_some, Bool.and_eq_true,
    Bool.and_eq_true, and_assoc, and_assoc, Option.some.injEq, BinaryOp.zeroFault,
    eq_comm (a := fault)]
  tauto

end Scriptlet
