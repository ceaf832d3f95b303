import Scriptlet.Store.Heap
import Scriptlet.Text.Quoted
import Scriptlet.Decimal.Style

/-!
# Values as text

A list is written with its items between brackets, texts among them in
quotes. A list inside itself is written as three dots there; a list that
merely occurs twice is written twice.
-/

set_option autoImplicit false

namespace Scriptlet

def Number.display : Number → String
  | .int n => toString n.toInt
  | .float x => Decimal.render x

namespace Value

/-- The name of a function; a function that is gone has none. -/
def functionName (h : Heap) (id : FunctionId) : String :=
  ((h.function? id).map Function.displayName).getD Function.anonymous

/-- The text of a value inside the lists in `opened`. Texts are quoted if `inner`. A list is
opened at most once on the way to an item, so as many levels are enough as there are lists. -/
def displayFor (h : Heap) : (levels : Nat) → (opened : List ListId) → (inner : Bool) → Value →
    String
  | _, _, _, .number n => n.display
  | _, _, inner, .text s => if inner then Text.quoted s else s
  | 0, _, _, .list _ => "[...]"
  | levels + 1, opened, _, .list id =>
    if opened.contains id then "[...]"
    else
      "[" ++ ", ".intercalate ((h.items id).toList.map fun v =>
        displayFor h levels (id :: opened) true v) ++ "]"
  | _, _, _, .function id => "<function " ++ functionName h id ++ ">"
  | _, _, _, .builtin b => "<built-in function " ++ b.name ++ ">"
  | _, _, _, .nothing => "()"

/-- What printing a value writes. -/
def display (h : Heap) (v : Value) : String := displayFor h (h.lists.size + 1) [] false v

/-- The value with the name of its kind. -/
def label (h : Heap) : Value → String
  | .number (.int n) => "Int(" ++ toString n.toInt ++ ")"
  | .number (.float x) => "Float(" ++ Decimal.render x ++ ")"
  | .text s => "Str(" ++ Text.quoted s ++ ")"
  | .list id => "List(" ++ display h (.list id) ++ ")"
  | .function id => "Function(" ++ functionName h id ++ ")"
  | .builtin b => "Builtin(" ++ b.name ++ ")"
  | .nothing => "Nothing"

end Value

end Scriptlet
