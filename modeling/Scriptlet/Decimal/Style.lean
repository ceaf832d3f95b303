import Scriptlet.Decimal.Shortest

/-!
# Writing floating-point numbers

A style says which magnitudes are written positionally; all others get one
digit before the point and an exponent. Positional numbers always show a
fraction.
-/

set_option autoImplicit false

namespace Scriptlet.Decimal

/-- Positional from `10 ^ least` to just below `10 ^ limit`. -/
structure Style where
  least : Int
  limit : Int

/-- Numbers in programs, printed values and messages. -/
def Style.plain : Style := ⟨-4, 16⟩

/-- Numbers in documents. -/
def Style.document : Style := ⟨-5, 16⟩

def digitsOf (n : Nat) : List Char := Nat.toDigits 10 n

/-- Digits with the point after the first `places` of them; `places` may lie outside the digits. -/
def positional (ds : List Char) (places : Int) : List Char :=
  if places ≤ 0 then '0' :: '.' :: (List.replicate (-places).toNat '0' ++ ds)
  else
    let n := places.toNat
    if n < ds.length then ds.take n ++ '.' :: ds.drop n
    else ds ++ List.replicate (n - ds.length) '0' ++ ['.', '0']

def scientific (ds : List Char) (exponent : Int) : List Char :=
  let tail := if exponent < 0 then '-' :: digitsOf exponent.natAbs else digitsOf exponent.natAbs
  match ds with
  | [] => 'e' :: tail
  | [d] => d :: 'e' :: tail
  | d :: rest => d :: '.' :: rest ++ 'e' :: tail

def Style.scaled (style : Style) (s : Scaled) : List Char :=
  let ds := digitsOf s.digits
  let exponent := s.exponent + ds.length - 1
  if style.least ≤ exponent ∧ exponent < style.limit then positional ds (exponent + 1)
  else scientific ds exponent

def signed (negative : Bool) (cs : List Char) : List Char := if negative then '-' :: cs else cs

def Style.chars (style : Style) : Binary → List Char
  | .undefined => ['N', 'a', 'N']
  | .infinite negative => signed negative ['i', 'n', 'f']
  | .finite negative 0 _ => signed negative ['0', '.', '0']
  | .finite negative mantissa exponent =>
    signed negative (style.scaled (shortest mantissa exponent))

def Style.render (style : Style) (x : Float) : String :=
  String.ofList (style.chars (.ofFloat x))

/-- A number as programs write it. -/
def render (x : Float) : String := Style.plain.render x

end Scriptlet.Decimal
