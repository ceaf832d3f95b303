import Scriptlet.Proofs.Machine.Evaluation
import Mathlib.Algebra.Order.Group.Unbundled.Int
import Mathlib.Algebra.Order.Ring.Abs
import Mathlib.Algebra.Ring.Parity

/-!
# Exact arithmetic on whole numbers

Sums, differences, products, powers and negations of whole numbers are exact
as long as the result has 64 bits, and doubles otherwise. A power whose
exponent has more than 32 bits is a double in any case, also where the base
is one, zero or minus one.
-/

set_option autoImplicit false

namespace Scriptlet

/-- The exact result of an operator on integers; a power has one for exponents from zero on. -/
def BinaryOp.ideal? (op : BinaryOp) (a b : ℤ) : Option ℤ :=
  match op with
  | .add => some (a + b)
  | .sub => some (a - b)
  | .mul => some (a * b)
  | .pow => if 0 ≤ b then some (a ^ b.toNat) else none
  | _ => none

/-- The value is an integer, if that has 64 bits, and else some double. -/
structure Value.Exact (n : ℤ) (v : Value) : Prop where
  int : ∀ i : Int64, i.toInt = n → v = .int i
  float : (∀ i : Int64, i.toInt ≠ n) → ∃ x, v = .float x

variable {op : BinaryOp} {a b i : Int64} {n : ℤ}

/-! ## Integers of 64 bits -/

theorem int64?_eq (n : ℤ) :
    int64? n = if -2 ^ 63 ≤ n ∧ n < 2 ^ 63 then some (Int64.ofInt n) else none := by
  have hmin : Int64.minValue.toInt = -2 ^ 63 := rfl
  have hmax : Int64.maxValue.toInt = 2 ^ 63 - 1 := rfl
  rw [int64?, hmin, hmax]
  simp only [Int.le_sub_one_iff]

theorem int64?_toInt (i : Int64) : int64? i.toInt = some i := by
  rw [int64?_eq, if_pos ⟨i.le_toInt, i.toInt_lt⟩, Int64.ofInt_toInt]

theorem int64?_eq_none : int64? n = none ↔ n < -2 ^ 63 ∨ 2 ^ 63 ≤ n := by
  rw [int64?_eq]
  split <;> simp <;> omega

theorem eq_of_int64? (h : int64? n = some i) : i.toInt = n := by
  rw [int64?_eq] at h
  split at h
  · next hn =>
    obtain rfl := Option.some.inj h
    exact Int64.toInt_ofInt_of_le hn.1 hn.2
  · cases h

theorem sign_pow (ha : n.natAbs ≤ 1) (k : ℕ) : n ^ (if k = 0 then 0 else 2 - k % 2) = n ^ k := by
  split
  · next hk => rw [hk]
  · next hk =>
    obtain rfl | rfl | rfl : n = 0 ∨ n = 1 ∨ n = -1 := by omega
    · rw [zero_pow (by omega), zero_pow hk]
    · rw [one_pow, one_pow]
    · rw [neg_one_pow_eq_pow_mod_two, neg_one_pow_eq_pow_mod_two k]
      congr 1
      omega

/-- With a base of two or more in size, an exponent of 64 leaves no power of 64 bits. -/
theorem large_pow (ha : 2 ≤ n.natAbs) {k : ℕ} (hk : 64 ≤ k) : int64? (n ^ k) = none := by
  have hlarge : 2 ^ 64 ≤ (n ^ k).natAbs := by
    rw [Int.natAbs_pow]
    calc 2 ^ 64 ≤ n.natAbs ^ 64 := Nat.pow_le_pow_left ha 64
      _ ≤ n.natAbs ^ k := Nat.pow_le_pow_right (by omega) hk
  exact int64?_eq_none.mpr (by omega)

theorem power?_eq (a : ℤ) (k : ℕ) : Whole.power? a k = Outcome.int? (a ^ k) := by
  simp only [Whole.power?, Int.pow_eq]
  split
  · next ha => rw [sign_pow ha]
  · split
    · rfl
    · rw [Outcome.int?, large_pow (by omega) (by omega)]
      rfl

/-! ## Operators -/

theorem compute?_exact (h : op.ideal? a.toInt b.toInt = some n)
    (hp : op = .pow → 2 ≤ |a.toInt| ∨ b.toInt < 2 ^ 32) :
    Whole.compute? op a b = Outcome.int? n := by
  cases op with
  | pow =>
    have hpow := hp rfl
    simp only [BinaryOp.ideal?] at h
    split at h
    · next hb =>
      obtain rfl := Option.some.inj h
      by_cases hsmall : b.toInt < 2 ^ 32
      · rw [Whole.compute?, if_pos ⟨hb, hsmall⟩, power?_eq]
      · rw [Int.abs_eq_natAbs] at hpow
        rw [Whole.compute?, if_neg (fun h => hsmall h.2), Outcome.int?,
          large_pow (by omega) (by omega)]
        rfl
    · cases h
  | _ => cases h <;> rfl

theorem double_of_exact (h : op.ideal? a.toInt b.toInt = some n) (x y : Float) :
    ∃ z, Double.compute? op x y = some (.float z) := by
  cases op <;> first | exact ⟨_, rfl⟩ | cases h

theorem exact_int (i : Int64) : Value.Exact i.toInt (.int i) :=
  ⟨fun _ hj => congrArg Value.int (Int64.toInt_inj.mp hj).symm, fun hnone => absurd rfl (hnone i)⟩

theorem exact_float (h : int64? n = none) (x : Float) : Value.Exact n (.float x) := by
  refine ⟨fun i hi => ?_, fun _ => ⟨x, rfl⟩⟩
  rw [← hi, int64?_toInt] at h
  cases h

/-- An operator that has an exact result on whole numbers and a double on doubles. -/
theorem numbers_of_exact (hw : Whole.compute? op a b = Outcome.int? n)
    (hd : ∀ x y, ∃ z, Double.compute? op x y = some (.float z)) :
    ∃ v, Operator.numbers op (.int a) (.int b) = .ok (.value v) ∧ v.Exact n := by
  obtain ⟨z, hz⟩ := hd (Number.toFloat (.int a)) (Number.toFloat (.int b))
  have hcompute : Number.compute? op (.int a) (.int b) =
      (Outcome.int? n).orElse fun _ => some (.float z) := by
    rw [Number.compute?, hw, hz]
  cases hi : int64? n with
  | some i =>
    obtain rfl := eq_of_int64? hi
    refine ⟨.int i, ?_, exact_int i⟩
    rw [Operator.numbers, hcompute, Outcome.int?, hi]
    rfl
  | none =>
    refine ⟨.float z, ?_, exact_float hi z⟩
    rw [Operator.numbers, hcompute, Outcome.int?, hi]
    rfl

theorem numbers_exact (h : op.ideal? a.toInt b.toInt = some n)
    (hp : op = .pow → 2 ≤ |a.toInt| ∨ b.toInt < 2 ^ 32) :
    ∃ v, Operator.numbers op (.int a) (.int b) = .ok (.value v) ∧ v.Exact n :=
  numbers_of_exact (compute?_exact h hp) (double_of_exact h)

theorem neg_exact (a : Int64) : Value.Exact (-a.toInt) (.number (Number.neg (.int a))) := by
  simp only [Number.neg]
  split
  · next i hi => exact eq_of_int64? hi ▸ exact_int i
  · next hnone => exact exact_float hnone _

theorem numbers_longPower (hb : 2 ^ 32 ≤ b.toInt) :
    ∃ x, Operator.numbers .pow (.int a) (.int b) = .ok (.value (.float x)) := by
  have hsize : (UInt32.size : ℤ) = 2 ^ 32 := rfl
  have hnone : Whole.compute? .pow a b = none := if_neg fun h => absurd h.2 (by omega)
  refine ⟨(Number.toFloat (.int a)).pow (Number.toFloat (.int b)), ?_⟩
  rw [Operator.numbers, Number.compute?, hnone]
  rfl

/-! ## Evaluation -/

namespace Machine

variable {settings : Settings} {m e : Machine} {scope : ScopeId} {left right operand : Node}
  {span : Span} {v : Value}

theorem applyBinary_numbers (hop : op.divides = false) (m : Machine) (p q : Number)
    (rightSpan span : Span) (h : Operator.numbers op p q = .ok (.value v)) :
    (m.applyBinary op (.number p) (.number q) rightSpan span).control = .flow (.value v) := by
  have hfault : Operator.divisorFault? op (.number p) (.number q) = none := by
    simp [Operator.divisorFault?, hop]
  have hbinary : Operator.binary m.store.heap op (.number p) (.number q) = .ok (.value v) := h
  simp only [applyBinary, hfault, hbinary]
  rfl

theorem operands_give {p q : Number} (hop : op.divides = false) (hand : op ≠ .and)
    (hor : op ≠ .or) (hv : Operator.numbers op p q = .ok (.value v))
    (h : Operands settings op left right span scope m (.number p) (.number q) e) :
    ∃ e', Gives settings (.mk (.binary op left right) span) scope m v e' :=
  ⟨_, h.gives hand hor (applyBinary_numbers hop _ p q right.span span hv)⟩

/-- Where the operands give whole numbers, a sum, a difference, a product, a power and a negation
give the exact result, or a double if that does not have 64 bits; but a power whose exponent has
more than 32 bits gives a double even where the base is one, zero or minus one. -/
theorem arithmetic_exact (settings : Settings) (a b : Int64) :
    (∀ op n, op.ideal? a.toInt b.toInt = some n →
      (op = .pow → 2 ≤ |a.toInt| ∨ b.toInt < 2 ^ 32) → ∀ left right span scope m e,
      Operands settings op left right span scope m (.int a) (.int b) e →
        ∃ v e', Gives settings (.mk (.binary op left right) span) scope m v e' ∧ v.Exact n) ∧
    (2 ^ 32 ≤ b.toInt → ∀ left right span scope m e,
      Operands settings .pow left right span scope m (.int a) (.int b) e →
        ∃ x e', Gives settings (.mk (.binary .pow left right) span) scope m (.float x) e') ∧
    ∀ operand span scope m e,
      Gives settings operand scope { m with stack := .operand .neg span :: m.stack } (.int a) e →
        ∃ v e', Gives settings (.mk (.unary .neg operand) span) scope m v e' ∧
          v.Exact (-a.toInt) := by
  refine ⟨?binary, ?long, ?neg⟩
  case binary =>
    intro op n hn hp left right span scope m e hoperands
    obtain ⟨v, hv, hexact⟩ := numbers_exact hn hp
    have hkind : op.divides = false ∧ op ≠ .and ∧ op ≠ .or := by
      cases op <;> first | exact ⟨rfl, by decide, by decide⟩ | cases hn
    obtain ⟨e', hgives⟩ := operands_give hkind.1 hkind.2.1 hkind.2.2 hv hoperands
    exact ⟨v, e', hgives, hexact⟩
  case long =>
    intro hb left right span scope m e hoperands
    obtain ⟨x, hx⟩ := numbers_longPower (a := a) hb
    exact ⟨x, operands_give rfl (by decide) (by decide) hx hoperands⟩
  case neg =>
    intro operand span scope m e hoperand
    exact ⟨_, _, gives_unary hoperand rfl, neg_exact a⟩

/-- The largest square of 64 bits and the next one, and the smallest number negated. -/
theorem arithmetic_exact_squares :
    let m : Machine := ⟨.flow .continue, [], Store.seeded, [], 0, ""⟩
    let square (n : Int64) : Node :=
      .mk (.binary .mul (.mk (.int n) default) (.mk (.int n) default)) default
    (∃ e, Gives .standard (square 3037000499) Store.global m (.int 9223372030926249001) e) ∧
      (∃ x e, Gives .standard (square 3037000500) Store.global m (.float x) e) ∧
      ∃ x e, Gives .standard (.mk (.unary .neg (.mk (.int (-9223372036854775808)) default)) default)
        Store.global m (.float x) e := by
  intro m square
  have hoperands (n : Int64) : ∃ e, Operands .standard .mul (.mk (.int n) default)
      (.mk (.int n) default) default Store.global m (.int n) (.int n) e :=
    ⟨_, _, gives_int n, gives_int n⟩
  refine ⟨?_, ?_, ?_⟩
  · obtain ⟨e, he⟩ := hoperands 3037000499
    obtain ⟨v, e', hgives, hexact⟩ := (arithmetic_exact .standard 3037000499 3037000499).1 .mul _
      rfl (by decide) _ _ _ _ _ _ he
    exact ⟨e', hexact.int 9223372030926249001 (by decide) ▸ hgives⟩
  · obtain ⟨e, he⟩ := hoperands 3037000500
    obtain ⟨v, e', hgives, hexact⟩ := (arithmetic_exact .standard 3037000500 3037000500).1 .mul _
      rfl (by decide) _ _ _ _ _ _ he
    have hsquare : (3037000500 : Int64).toInt = 3037000500 := rfl
    rw [hsquare] at hexact
    obtain ⟨x, rfl⟩ := hexact.float fun i hi => absurd i.toInt_lt (by omega)
    exact ⟨x, e', hgives⟩
  · obtain ⟨v, e', hgives, hexact⟩ := (arithmetic_exact .standard (-9223372036854775808) 0).2.2
      (.mk (.int (-9223372036854775808)) default) default Store.global m _ (gives_int _)
    have hleast : (-9223372036854775808 : Int64).toInt = -9223372036854775808 := rfl
    rw [hleast] at hexact
    obtain ⟨x, rfl⟩ := hexact.float fun i hi => absurd i.toInt_lt (by omega)
    exact ⟨x, e', hgives⟩

/-- One to the power of a number of 33 bits is no whole number. -/
theorem power_of_one_float :
    let m : Machine := ⟨.flow .continue, [], Store.seeded, [], 0, ""⟩
    let base : Node := .mk (.int 1) default
    let exponent : Node := .mk (.int 4294967296) default
    (∃ e, Operands .standard .pow base exponent default Store.global m (.int 1)
      (.int 4294967296) e) ∧
    BinaryOp.ideal? .pow 1 4294967296 = some 1 ∧
    ¬ ∃ v e, Gives .standard (.mk (.binary .pow base exponent) default) Store.global m v e ∧
      v.Exact 1 := by
  intro m base exponent
  have hoperands : Operands .standard .pow base exponent default Store.global m (.int 1)
      (.int 4294967296) _ := ⟨_, gives_int 1, gives_int 4294967296⟩
  refine ⟨⟨_, hoperands⟩, by simp [BinaryOp.ideal?], ?_⟩
  rintro ⟨v, e, hgives, hexact⟩
  obtain ⟨x, hx⟩ := numbers_longPower (a := 1) (b := 4294967296) (by decide)
  obtain ⟨e', hgives'⟩ := operands_give rfl (by decide) (by decide) hx hoperands
  cases (hexact.int 1 rfl).symm.trans (hgives.unique hgives')

end Machine

end Scriptlet
