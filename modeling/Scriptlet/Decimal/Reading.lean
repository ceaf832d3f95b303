/-!
# Reading decimals

The double nearest to a decimal, read from its digits.
-/

set_option autoImplicit false

namespace Scriptlet.Decimal

def digitValue (c : Char) : Nat := c.toNat - '0'.toNat

/-- The number that a row of digits stands for. -/
def natOfDigits (cs : List Char) : Nat := cs.foldl (fun n c => 10 * n + digitValue c) 0

/-- The double nearest to `whole.fraction * 10 ^ exponent`. -/
def ofDigits (whole fraction : List Char) (exponent : Int) : Float :=
  let n := natOfDigits (whole ++ fraction)
  let e := exponent - fraction.length
  if e < 0 then Float.ofScientific n true e.natAbs else Float.ofScientific n false e.natAbs

/-- A signed row of digits. -/
def readInt? : List Char → Option Int
  | '-' :: cs => if cs ≠ [] ∧ cs.all Char.isDigit then some (-(natOfDigits cs : Int)) else none
  | '+' :: cs => if cs ≠ [] ∧ cs.all Char.isDigit then some (natOfDigits cs) else none
  | cs => if cs ≠ [] ∧ cs.all Char.isDigit then some (natOfDigits cs) else none

def readUnsigned? (cs : List Char) : Option Float :=
  if cs = ['i', 'n', 'f'] then some (1.0 / 0.0)
  else if cs = ['N', 'a', 'N'] then some (0.0 / 0.0)
  else
    let whole := cs.takeWhile Char.isDigit
    let rest := cs.dropWhile Char.isDigit
    let (fraction, rest) := match rest with
      | '.' :: ds => (ds.takeWhile Char.isDigit, ds.dropWhile Char.isDigit)
      | ds => ([], ds)
    if whole = [] ∧ fraction = [] then none
    else match rest with
      | [] => some (ofDigits whole fraction 0)
      | c :: ds =>
        if c = 'e' ∨ c = 'E' then (readInt? ds).map (ofDigits whole fraction) else none

/-- Reads what `render` writes, and any other digits with a point or an exponent. -/
def read? (s : String) : Option Float :=
  match s.toList with
  | '-' :: cs => (readUnsigned? cs).map (- ·)
  | cs => readUnsigned? cs

end Scriptlet.Decimal
