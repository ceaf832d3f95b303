import Scriptlet.Fault
import Scriptlet.Number.Arithmetic
import Scriptlet.Value.Equality

/-!
# Operators on values

What operators and indexing compute. Nothing is changed here: a result is a
value that is there already or a number or text, or the items of a list that
is to be made anew.
-/

set_option autoImplicit false

namespace Scriptlet

inductive Computed where
  | value (v : Value)
  | fresh (items : Array Value)

def Outcome.value : Outcome → Value
  | .number n => .number n
  | .truth b => .truth b

/-- The place that an index means; a negative one counts from the end. -/
def resolveIndex (index : Int64) (length : Nat) : Except Fault Nat :=
  let i := if index < 0 then index.toInt + length else index.toInt
  if 0 ≤ i ∧ i < length then .ok i.toNat else .error (.indexOutOfRange index length)

namespace Operator

def mismatch (op : BinaryOp) (a b : Value) : Fault := .operandTypes (.binary op) a.kind (some b.kind)

/-- `n` copies of a text in a row. -/
def copies (s : String) (n : Nat) : String :=
  if n = 0 then ""
  else
    let half := copies s (n / 2)
    if n % 2 = 0 then half ++ half else half ++ half ++ s
termination_by n
decreasing_by omega

/-- The copies of a text in a row; none if the count is negative. -/
def repeatText (s : String) (count : Int64) : Except Fault Computed :=
  let n := count.toInt.toNat
  if s.utf8ByteSize * n ≤ Fault.textLimit then
    .ok (.value (.text (copies s n)))
  else .error .textTooLong

def compareTexts (s t : String) : Ordering :=
  if s < t then .lt else if s = t then .eq else .gt

def texts (op : BinaryOp) (s t : String) : Except Fault Computed :=
  match op with
  | .add => .ok (.value (.text (s ++ t)))
  | op =>
    match op.holds? (compareTexts s t) with
    | some b => .ok (.value (.truth b))
    | none => .error (mismatch op (.text s) (.text t))

def numbers (op : BinaryOp) (a b : Number) : Except Fault Computed :=
  match Number.compute? op a b with
  | some o => .ok (.value o.value)
  | none => .error (mismatch op (.number a) (.number b))

def itemAt (items : Array Value) (i : Nat) : Value := items.getD i .nothing

def lists (h : Heap) (op : BinaryOp) (id : ListId) (b : Value) : Except Fault Computed :=
  let items := h.items id
  match op, b with
  | .add, v => .ok (.fresh (items.push v))
  | .mul, .list other => .ok (.fresh (items ++ h.items other))
  | .sub, .number (.int index) =>
    match resolveIndex index items.size with
    | .ok i => .ok (.fresh (items.eraseIdxIfInBounds i))
    | .error fault => .error fault
  | .div, .number (.int index) =>
    match resolveIndex index items.size with
    | .ok i => .ok (.value (itemAt items i))
    | .error fault => .error fault
  | .eq, v => .ok (.value (.truth (Value.equal h (.list id) v)))
  | .ne, v => .ok (.value (.truth !(Value.equal h (.list id) v)))
  | op, v => .error (mismatch op (.list id) v)

/-- Every operator but `AND` and `OR`, which are no functions of their operands. -/
def binary (h : Heap) (op : BinaryOp) (a b : Value) : Except Fault Computed :=
  match a, b with
  | .number m, .number n => numbers op m n
  | .text s, .text t => texts op s t
  | .list id, b => lists h op id b
  | a, b =>
    match op, a, b with
    | .mul, .text s, .number (.int n) => repeatText s n
    | .eq, a, b => .ok (.value (.truth (Value.equal h a b)))
    | .ne, a, b => .ok (.value (.truth !(Value.equal h a b)))
    | op, a, b => .error (mismatch op a b)

/-- The fault of dividing by zero; only numbers are divided. -/
def divisorFault? (op : BinaryOp) (a b : Value) : Option Fault :=
  if op.divides && a.isNumber && b.isZero then
    some (if op = .mod then .moduloByZero else .divisionByZero)
  else none

def unary (h : Heap) (op : UnaryOp) (v : Value) : Except Fault Value :=
  match op, v with
  | .not, v => .ok (.truth !(v.isTruthy h))
  | .neg, .number n => .ok (.number n.neg)
  | .pos, .number n => .ok (.number n)
  | op, v => .error (.operandTypes (.unary op) v.kind none)

def index (h : Heap) (target place : Value) : Except Fault Value :=
  match target, place with
  | .list id, .number (.int i) =>
    let items := h.items id
    match resolveIndex i items.size with
    | .ok k => .ok (itemAt items k)
    | .error fault => .error fault
  | .text s, .number (.int i) =>
    let cs := s.toList
    match resolveIndex i cs.length with
    | .ok k => .ok (.text (String.ofList ((cs.drop k).take 1)))
    | .error fault => .error fault
  | target, i => .error (.operandTypes .index target.kind (some i.kind))

end Operator

/-- Makes a result, held by the caller. A fresh list holds its items besides whoever held them
before. -/
def Heap.make (h : Heap) : Computed → Value × Heap
  | .value v => (v, h.keep v)
  | .fresh items => (h.keepAll items.toList).newList items

end Scriptlet
