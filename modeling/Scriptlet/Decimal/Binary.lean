/-!
# Floating-point numbers as integers times powers of two

A double is a sign, a whole number of at most 53 bits and a power of two, or
it is infinite, or no number at all.
-/

set_option autoImplicit false

namespace Scriptlet.Decimal

/-- The number `± mantissa * 2 ^ exponent`, or one of the values that are none. -/
inductive Binary where
  | undefined
  | infinite (negative : Bool)
  | finite (negative : Bool) (mantissa : Nat) (exponent : Int)
  deriving DecidableEq

namespace Binary

/-- The three fields of the 64-bit format. -/
def ofBits (bits : UInt64) : Binary :=
  let negative := bits.toNat >>> 63 = 1
  let field : Nat := bits.toNat >>> 52 % 2048
  let fraction : Nat := bits.toNat % (1 <<< 52)
  if field = 2047 then
    if fraction = 0 then .infinite negative else .undefined
  else if field = 0 then .finite negative fraction (-1074)
  else .finite negative (1 <<< 52 + fraction) ((field : Int) - 1075)

def ofFloat (x : Float) : Binary := ofBits x.toBits

end Binary

end Scriptlet.Decimal
