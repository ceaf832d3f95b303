import Scriptlet.Number.Remainder
import Scriptlet.Program.Node
import Scriptlet.Value

/-!
# Arithmetic

Whole numbers have 64 bits. An operation on two of them gives the exact
result if that is a whole number of 64 bits; otherwise it is done again on
doubles. True division is always done on doubles. A remainder has the sign of
the divisor, and whole division rounds toward zero.
-/

set_option autoImplicit false

namespace Scriptlet

/-- The whole number of 64 bits that an integer is. -/
def int64? (n : Int) : Option Int64 :=
  if Int64.minValue.toInt ≤ n ∧ n ≤ Int64.maxValue.toInt then some (Int64.ofInt n) else none

/-- Whether a comparison holds for operands that are ordered so. -/
def BinaryOp.holds? (op : BinaryOp) (o : Ordering) : Option Bool :=
  match op with
  | .eq => some (o == .eq)
  | .ne => some (o != .eq)
  | .lt => some (o == .lt)
  | .gt => some (o == .gt)
  | .le => some (o != .gt)
  | .ge => some (o != .lt)
  | _ => none

/-- What an operator makes of two numbers. -/
inductive Outcome where
  | number (n : Number)
  | truth (b : Bool)

namespace Outcome

def int? (n : Int) : Option Outcome := (int64? n).map fun n => .number (.int n)

def float (x : Float) : Outcome := .number (.float x)

end Outcome

namespace Whole

/-- `a ^ n`, unless it is too large. Two or more in size to the 64th is too large; less than two
in size, a positive exponent counts by its parity alone. -/
def power? (a : Int) (n : Nat) : Option Outcome :=
  if a.natAbs ≤ 1 then Outcome.int? (a.pow (if n = 0 then 0 else 2 - n % 2))
  else if n < 64 then Outcome.int? (a.pow n)
  else none

/-- The remainder with the sign of the divisor. -/
def remainder (a b : Int) : Int :=
  let r := a.tmod b
  if r ≠ 0 ∧ (r < 0) ≠ (b < 0) then r + b else r

/-- The result on whole numbers; none if it has to be computed on doubles. The smallest number by
minus one has no quotient, and counts as having no remainder either. -/
def compute? (op : BinaryOp) (a b : Int64) : Option Outcome :=
  let m := a.toInt
  let n := b.toInt
  match op with
  | .add => Outcome.int? (m + n)
  | .sub => Outcome.int? (m - n)
  | .mul => Outcome.int? (m * n)
  | .div => none
  | .intDiv => if n = 0 then none else Outcome.int? (m.tdiv n)
  | .mod =>
    if n = 0 ∨ (int64? (m.tdiv n)).isNone then none else Outcome.int? (remainder m n)
  | .pow => if 0 ≤ n ∧ n < UInt32.size then power? m n.toNat else none
  | op => (op.holds? (compare m n)).map .truth

end Whole

namespace Double

/-- How two doubles are ordered, if both are numbers. -/
def order? (a b : Float) : Option Ordering :=
  if a < b then some .lt else if a > b then some .gt else if a == b then some .eq else none

/-- The remainder with the sign of the divisor. -/
def signedRemainder (a b : Float) : Float :=
  let r := Double.remainder a b
  if r != 0.0 && (r < 0.0) != (b < 0.0) then r + b else r

def compute? (op : BinaryOp) (a b : Float) : Option Outcome :=
  match op with
  | .add => some (.float (a + b))
  | .sub => some (.float (a - b))
  | .mul => some (.float (a * b))
  | .div => some (.float (a / b))
  | .intDiv => some (.float (Double.wholePart (a / b)))
  | .mod => some (.float (signedRemainder a b))
  | .pow => some (.float (a.pow b))
  | op => ((order? a b).bind op.holds?).map .truth

end Double

namespace Number

/-- The result of an operator; none if it does not apply to these numbers. -/
def compute? (op : BinaryOp) (a b : Number) : Option Outcome :=
  let onFloats := Double.compute? op a.toFloat b.toFloat
  match a, b with
  | .int m, .int n => (Whole.compute? op m n).orElse fun _ => onFloats
  | _, _ => onFloats

def neg : Number → Number
  | .int n => match int64? (-n.toInt) with
    | some m => .int m
    | none => .float (-n.toFloat)
  | .float x => .float (-x)

/-- The sum. -/
def add (a b : Number) : Number :=
  match compute? .add a b with
  | some (.number n) => n
  | _ => .float (a.toFloat + b.toFloat)

end Number

end Scriptlet
