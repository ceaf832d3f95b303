import Scriptlet.Store.Heap

/-!
# Equality of values

Numbers are equal by value, also across the two kinds of numbers; functions
only if they are the same function. Two lists are equal if their items are,
one by one; while their items are compared, two lists count as equal, so that
lists that hold themselves can be compared.
-/

set_option autoImplicit false

namespace Scriptlet

def Number.equal : Number → Number → Bool
  | .int a, .int b => a = b
  | a, b => a.toFloat == b.toFloat

namespace Value

/-- Equality while the pairs of lists in `comparing` are being compared. No pair is opened twice
on the way to an item, so as many levels are enough as there are pairs of lists. -/
def equalFor (h : Heap) : (levels : Nat) → (comparing : List (ListId × ListId)) → Value → Value →
    Bool
  | _, _, .number a, .number b => a.equal b
  | _, _, .text a, .text b => a = b
  | 0, _, .list _, .list _ => true
  | levels + 1, comparing, .list a, .list b =>
    if a = b || comparing.contains (a, b) then true
    else
      let xs := h.items a
      let ys := h.items b
      xs.size = ys.size && (xs.toList.zip ys.toList).all fun p =>
        equalFor h levels ((a, b) :: comparing) p.1 p.2
  | _, _, .function a, .function b => a = b
  | _, _, .builtin a, .builtin b => a = b
  | _, _, .nothing, .nothing => true
  | _, _, _, _ => false

def equal (h : Heap) (a b : Value) : Bool :=
  equalFor h (h.lists.size * h.lists.size + 1) [] a b

def isTruthy (h : Heap) : Value → Bool
  | .number n => !n.isZero
  | .text s => s ≠ ""
  | .list id => !(h.items id).isEmpty
  | .function _ => true
  | .builtin _ => true
  | .nothing => false

end Value

end Scriptlet
