import Scriptlet.Decimal.Binary

/-!
# The shortest decimal that reads back

A decimal reads back as a double when it lies between the midpoints to the
double's neighbours; a midpoint itself belongs to the double with the even
mantissa. The grids of one, two, three … significant digits are tried in
turn, and of the two points around the value on the first grid with a point
that reads back the nearer one is taken.
-/

set_option autoImplicit false

namespace Scriptlet.Decimal

/-- The number `digits * 10 ^ exponent`. -/
structure Scaled where
  digits : Nat
  exponent : Int
  deriving DecidableEq, Inhabited

namespace Shortest

/-- A value and the two midpoints around it, in quarters of its last place, which is `2 ^ exponent`. -/
structure Interval where
  low : Nat
  value : Nat
  high : Nat
  exponent : Int
  closed : Bool

/-- At a power of two the gap below is half the gap above. -/
def interval (mantissa : Nat) (exponent : Int) : Interval :=
  let low := if mantissa = 1 <<< 52 ∧ exponent ≠ -1074 then 4 * mantissa - 1 else 4 * mantissa - 2
  ⟨low, 4 * mantissa, 4 * mantissa + 2, exponent - 2, mantissa % 2 = 0⟩

/-- Numerator and denominator of `2 ^ binary / 10 ^ decimal`. -/
def ratio (binary decimal : Int) : Nat × Nat :=
  (Nat.pow 10 (-decimal).toNat <<< binary.toNat, Nat.pow 10 decimal.toNat <<< (-binary).toNat)

/-- Whether the value is less than `10 ^ k`. -/
def below (i : Interval) (k : Int) : Bool :=
  let (num, den) := ratio i.exponent k
  i.value * num < den

/-- The least `k` from `start` on, within `tries`, such that the value is less than `10 ^ k`. -/
def magnitudeFrom (i : Interval) : (tries : Nat) → (start : Int) → Int
  | 0, k => k
  | tries + 1, k => if below i k then k else magnitudeFrom i tries (k + 1)

/-- How many digits the value has before its point; zero or less for a fraction. -/
def magnitude (i : Interval) : Int :=
  magnitudeFrom i 4 (((i.value.log2 : Int) + i.exponent) * 30103 / 100000)

/-- The point of the grid `10 ^ g` that reads back and is nearest to the value. -/
def onGrid? (i : Interval) (g : Int) : Option Nat :=
  let (num, den) := ratio i.exponent g
  let value := i.value * num
  let d := value / den
  let inside (n : Nat) : Bool :=
    if i.closed then i.low * num ≤ n * den && n * den ≤ i.high * num
    else i.low * num < n * den && n * den < i.high * num
  match inside d && 0 < d, inside (d + 1) with
  | true, true => if value - d * den < (d + 1) * den - value then some d else some (d + 1)
  | true, false => some d
  | false, true => some (d + 1)
  | false, false => none

/-- Without the zeros at the end. -/
def trimmed : (fuel : Nat) → Scaled → Scaled
  | 0, s => s
  | fuel + 1, s =>
    if s.digits ≠ 0 ∧ s.digits % 10 = 0 then trimmed fuel ⟨s.digits / 10, s.exponent + 1⟩ else s

/-- Tries `count` grids, the first with `places` significant digits. -/
def search (i : Interval) (magnitude : Int) : (count places : Nat) → Scaled
  | 0, _ => ⟨0, 0⟩
  | count + 1, places =>
    match onGrid? i (magnitude - places) with
    | some d => trimmed 18 ⟨d, magnitude - places⟩
    | none => search i magnitude count (places + 1)

end Shortest

/-- The shortest decimal that reads back as `mantissa * 2 ^ exponent`; seventeen digits always do. -/
def shortest (mantissa : Nat) (exponent : Int) : Scaled :=
  let i := Shortest.interval mantissa exponent
  Shortest.search i (Shortest.magnitude i) 17 1

end Scriptlet.Decimal
