import Scriptlet.Number.Arithmetic
import Scriptlet.Proofs.Number.Doubles
import Scriptlet.Value.Equality

/-!
# The order of numbers

Two numbers are in one of three orders, unless one of them is a double that is
not a number: then they are in none. Whole numbers are compared as they are,
and with a double as doubles. What the comparing operators make of two numbers
depends on their order alone, and numbers are equal if they are in that order.
-/

set_option autoImplicit false

namespace Scriptlet

namespace Double

open Float.Model
open Float.Model.UnpackedFloat

variable {u v : UnpackedFloat} {x y : Float}

theorem compare_eq_none :
    UnpackedFloat.compare u v = none ↔ u.isNaN = true ∨ v.isNaN = true := by
  cases u with
  | notANumber => simp [UnpackedFloat.compare, UnpackedFloat.isNaN]
  | infinity s =>
    cases v <;> cases s <;> simp [UnpackedFloat.compare, UnpackedFloat.isNaN]
  | zero s =>
    cases v with
    | infinity t | finite t _ _ _ => cases t <;> simp [UnpackedFloat.compare, UnpackedFloat.isNaN]
    | _ => simp [UnpackedFloat.compare, UnpackedFloat.isNaN]
  | finite s m k hm =>
    cases v with
    | infinity t | finite t _ _ _ =>
      cases s <;> cases t <;> simp [UnpackedFloat.compare, UnpackedFloat.isNaN]
    | zero t => cases s <;> simp [UnpackedFloat.compare, UnpackedFloat.isNaN]
    | notANumber => simp [UnpackedFloat.compare, UnpackedFloat.isNaN]

theorem compare_swapped (u v : UnpackedFloat) :
    UnpackedFloat.compare v u = (UnpackedFloat.compare u v).map Ordering.swap := by
  cases u with
  | notANumber => cases v <;> rfl
  | infinity s =>
    cases v with
    | infinity t | finite t _ _ _ => cases s <;> cases t <;> rfl
    | _ => cases s <;> rfl
  | zero s =>
    cases v with
    | infinity t | finite t _ _ _ => cases t <;> rfl
    | _ => rfl
  | finite s m k hm =>
    cases v with
    | finite t n l hn =>
      cases s <;> cases t
      · exact congrArg some (congrArg Ordering.swap (compare_swap m n k l).symm)
      · rfl
      · rfl
      · exact congrArg some (compare_swap m n k l).symm
    | infinity t => cases s <;> cases t <;> rfl
    | zero t => cases s <;> rfl
    | notANumber => rfl

theorem order?_eq (x y : Float) :
    order? x y = UnpackedFloat.compare x.toModel.unpack y.toModel.unpack := by
  have hlt (x y : Float) :
      x < y ↔ UnpackedFloat.compare x.toModel.unpack y.toModel.unpack = some .lt :=
    decide_eq_true_iff.trans beq_iff_eq
  have heq : (x == y) = (UnpackedFloat.compare x.toModel.unpack y.toModel.unpack == some .eq) := rfl
  simp only [order?, gt_iff_lt, hlt, compare_swapped x.toModel.unpack y.toModel.unpack, heq,
    beq_iff_eq]
  cases UnpackedFloat.compare x.toModel.unpack y.toModel.unpack with
  | none => rfl
  | some o => cases o <;> rfl

theorem order?_eq_none : order? x y = none ↔ x.isNaN = true ∨ y.isNaN = true :=
  order?_eq x y ▸ compare_eq_none

theorem beq_eq_order? (x y : Float) : (x == y) = (order? x y == some .eq) :=
  order?_eq x y ▸ rfl

theorem Represents.not_nan {n : ℤ} (h : Represents u n) : u.isNaN = false := by
  cases h <;> rfl

end Double

def Number.isNaN : Number → Bool
  | .int _ => false
  | .float x => x.isNaN

/-- How two numbers are ordered, if both are numbers. -/
def Number.order? : Number → Number → Option Ordering
  | .int m, .int n => some (compare m.toInt n.toInt)
  | a, b => Double.order? a.toFloat b.toFloat

/-- The operators that compare. -/
def BinaryOp.compares : BinaryOp → Bool
  | .eq | .ne | .lt | .gt | .le | .ge => true
  | _ => false

namespace Number

variable {a b : Number} {op : BinaryOp}

theorem toFloat_isNaN (a : Number) : a.toFloat.isNaN = a.isNaN := by
  cases a with
  | int n => exact (Double.denotes_whole n).not_nan
  | float x => rfl

theorem order?_eq_none : a.order? b = none ↔ a.isNaN = true ∨ b.isNaN = true := by
  have hdoubles : Double.order? a.toFloat b.toFloat = none ↔ a.isNaN = true ∨ b.isNaN = true := by
    rw [Double.order?_eq_none, toFloat_isNaN, toFloat_isNaN]
  cases a with
  | int m =>
    cases b with
    | int n => simp [order?, isNaN]
    | float y => exact hdoubles
  | float x => exact hdoubles

theorem equal_eq_order? (a b : Number) : a.equal b = (a.order? b == some .eq) := by
  cases a with
  | int m =>
    cases b with
    | int n =>
      rw [Bool.eq_iff_iff]
      simp [equal, order?, Int64.toInt_inj]
    | float y => exact Double.beq_eq_order? ..
  | float x => exact Double.beq_eq_order? ..

/-- An operator that compares goes by the order of the numbers alone. -/
theorem compute?_compares (h : op.compares = true) (a b : Number) :
    compute? op a b = ((a.order? b).bind op.holds?).map .truth := by
  have hdoubles : Double.compute? op a.toFloat b.toFloat =
      ((Double.order? a.toFloat b.toFloat).bind op.holds?).map .truth := by
    cases op with
    | eq | ne | lt | gt | le | ge => rfl
    | _ => cases h
  cases a with
  | int m =>
    cases b with
    | int n =>
      cases op with
      | eq | ne | lt | gt | le | ge => rfl
      | _ => cases h
    | float y => exact hdoubles
  | float x => exact hdoubles

/-- An operator that does not compare is there for all numbers. -/
theorem compute?_some (h : op.compares = false) (hand : op ≠ .and) (hor : op ≠ .or)
    (a b : Number) : ∃ o, compute? op a b = some o := by
  have hdoubles : ∃ o, Double.compute? op a.toFloat b.toFloat = some o := by
    cases op with
    | and => exact absurd rfl hand
    | or => exact absurd rfl hor
    | add | sub | mul | div | intDiv | mod | pow => exact ⟨_, rfl⟩
    | _ => cases h
  cases a with
  | int m =>
    cases b with
    | int n =>
      simp only [compute?]
      cases Whole.compute? op m n with
      | none => exact hdoubles
      | some o => exact ⟨o, rfl⟩
    | float y => exact hdoubles
  | float x => exact hdoubles

end Number

end Scriptlet
