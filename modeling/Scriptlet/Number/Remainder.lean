import Scriptlet.Decimal.Binary

/-!
# The remainder of floating-point numbers

The exact remainder of a division whose quotient is rounded toward zero. It
is a double again, since it has no more bits than its operands.
-/

set_option autoImplicit false

namespace Scriptlet

namespace Remainder

/-- The remainder of `m * 2 ^ p` by `n * 2 ^ q`, in units of the smaller power. -/
def units (m : Nat) (p : Int) (n : Nat) (q : Int) : Nat × Int :=
  let unit := min p q
  ((m <<< (p - unit).toNat) % (n <<< (q - unit).toNat), unit)

def undefined : Float := 0.0 / 0.0

end Remainder

/-- `a` less a whole multiple of `b`, with the sign of `a` and less than `b` in size. -/
def Double.remainder (a b : Float) : Float :=
  match Decimal.Binary.ofFloat a, Decimal.Binary.ofFloat b with
  | .finite negative m p, .finite _ n q =>
    if n = 0 then Remainder.undefined
    else
      let (r, unit) := Remainder.units m p n q
      let size := Float.scaleB (Float.ofNat r) unit
      if negative then -size else size
  | .finite .., .infinite _ => a
  | _, _ => Remainder.undefined

/-- The whole part. -/
def Double.wholePart (x : Float) : Float := if x < 0.0 then x.ceil else x.floor

end Scriptlet
