import Scriptlet.Value.Display
import Scriptlet.Value.Operator

/-!
# Built-in functions
-/

set_option autoImplicit false

namespace Scriptlet

/-- What calling a built-in function does: its result, held by the caller, the heap after it, and
what it has printed. -/
structure Effect where
  result : Except Fault Value
  heap : Heap
  printed : String

namespace Builtin

def give (heap : Heap) (v : Value) : Effect := ⟨.ok v, heap, ""⟩

def refuse (heap : Heap) (fault : Fault) : Effect := ⟨.error fault, heap, ""⟩

/-- One value for one argument, two for two. -/
def mismatch (b : Builtin) (v : Value) (w : Option Value) : Fault :=
  .operandTypes (.builtin b) v.kind (w.map Value.kind)

/-- Appends values that the list will hold besides whoever holds them now. -/
def appendAll (h : Heap) (id : ListId) (vs : Array Value) : Heap :=
  let h := h.keepAll vs.toList
  { h with lists := h.lists.modify id (· ++ vs) }

/-- Takes an item out of a list; the caller has the list's hold on it. -/
def popAt (h : Heap) (id : ListId) (index : Int64) : Effect :=
  let items := h.items id
  match resolveIndex index items.size with
  | .error fault => refuse h fault
  | .ok i =>
    give { h with lists := h.lists.modify id (·.eraseIdxIfInBounds i) } (Operator.itemAt items i)

/-- The largest length that is told. -/
def lengthValue (n : Nat) : Value := .int (Int64.ofNat (min n Int64.maxValue.toNatClampNeg))

/-- Calls a built-in function with as many arguments as it takes. -/
def apply (h : Heap) (b : Builtin) (args : List Value) : Effect :=
  match b, args with
  | .print, [v] => ⟨.ok .nothing, h, Value.display h v ++ "\n"⟩
  | .printRet, [v] => give h (.text (Value.display h v))
  | .isNum, [v] => give h (.truth v.isNumber)
  | .isStr, [v] => give h (.truth (v.kind = .text))
  | .isList, [v] => give h (.truth (v.kind = .list))
  | .isFun, [v] => give h (.truth (v.kind = .function ∨ v.kind = .builtin))
  | .append, [.list id, v] => give (appendAll h id #[v]) .nothing
  | .append, [v, _] => refuse h (mismatch .append v none)
  | .extend, [.list id, .list other] => give (appendAll h id (h.items other)) .nothing
  | .extend, [v, w] => refuse h (mismatch .extend v (some w))
  | .pop, [.list id, .number (.int i)] => popAt h id i
  | .pop, [v, w] => refuse h (mismatch .pop v (some w))
  | .len, [.list id] => give h (lengthValue (h.items id).size)
  | .len, [.text s] => give h (lengthValue s.length)
  | .len, [v] => refuse h (mismatch .len v none)
  | b, args => refuse h (.argumentCount b.name b.arity args.length)

end Builtin

end Scriptlet
