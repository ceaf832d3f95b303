import Scriptlet.Proofs.Store.Unplaced
import Scriptlet.Value.Builtin

/-!
# What values are, wherever code stands

Texts, equality, operators and built-in functions depend on lists and on the
names of functions, so they are the same on a heap without the places of its
code.
-/

set_option autoImplicit false

namespace Scriptlet

variable (h : Heap)

namespace Value

@[simp] theorem functionName_unplaced (id : FunctionId) :
    functionName h.unplaced id = functionName h id := by
  simp [functionName, Function.comp_def]

theorem displayFor_unplaced (levels : Nat) (opened : List ListId) (inner : Bool) (v : Value) :
    displayFor h.unplaced levels opened inner v = displayFor h levels opened inner v := by
  induction levels generalizing opened inner v with
  | zero => cases v <;> simp [displayFor]
  | succ levels ih => cases v <;> simp [displayFor, ih]

@[simp] theorem display_unplaced (v : Value) : v.display h.unplaced = v.display h :=
  displayFor_unplaced h _ [] false v

theorem equalFor_unplaced (levels : Nat) (comparing : List (ListId × ListId)) (a b : Value) :
    equalFor h.unplaced levels comparing a b = equalFor h levels comparing a b := by
  induction levels generalizing comparing a b with
  | zero => cases a <;> cases b <;> rfl
  | succ levels ih =>
    cases a <;> cases b <;> simp only [equalFor, ih]
    rfl

@[simp] theorem equal_unplaced (a b : Value) : equal h.unplaced a b = equal h a b :=
  equalFor_unplaced h _ [] a b

@[simp] theorem isTruthy_unplaced (v : Value) : v.isTruthy h.unplaced = v.isTruthy h := by
  cases v <;> rfl

end Value

namespace Operator

@[simp] theorem binary_unplaced (op : BinaryOp) (a b : Value) :
    binary h.unplaced op a b = binary h op a b := by
  simp [binary, lists]

@[simp] theorem unary_unplaced (op : UnaryOp) (v : Value) :
    unary h.unplaced op v = unary h op v := by
  simp [unary]

@[simp] theorem index_unplaced (target place : Value) :
    index h.unplaced target place = index h target place := rfl

end Operator

theorem Heap.unplaced_make (c : Computed) :
    h.unplaced.make c = ((h.make c).1, (h.make c).2.unplaced) := by
  cases c with
  | value v => simp only [make, unplaced_keep]
  | fresh items =>
    simp only [make, ← unplaced_keepAll]
    rfl

/-- The effect on a heap without the places of its code. -/
def Effect.unplaced (e : Effect) : Effect := { e with heap := e.heap.unplaced }

namespace Builtin

theorem unplaced_appendAll (id : ListId) (vs : Array Value) :
    (appendAll h id vs).unplaced = appendAll h.unplaced id vs := by
  simp only [appendAll, ← Heap.unplaced_keepAll]
  rfl

theorem unplaced_popAt (id : ListId) (index : Int64) :
    (popAt h id index).unplaced = popAt h.unplaced id index := by
  simp only [popAt, Heap.items_unplaced]
  cases resolveIndex index (h.items id).size <;> rfl

theorem unplaced_apply (b : Builtin) (args : List Value) :
    (b.apply h args).unplaced = b.apply h.unplaced args := by
  unfold apply
  split
  case h_1 v =>
    rw [Value.display_unplaced]
    rfl
  case h_2 v =>
    rw [Value.display_unplaced]
    rfl
  case h_7 id v => exact congrArg (give · .nothing) (unplaced_appendAll h id #[v])
  case h_9 id other => exact congrArg (give · .nothing) (unplaced_appendAll h id (h.items other))
  case h_11 id i => exact unplaced_popAt h id i
  all_goals rfl

end Builtin

end Scriptlet
