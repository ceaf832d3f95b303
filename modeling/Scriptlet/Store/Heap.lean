import Scriptlet.Store.Table
import Scriptlet.Program.Node
import Scriptlet.Text.Source
import Scriptlet.Value

/-!
# Lists, functions and pins

What values refer to. A function refers to a pin of the scope it was defined
in, and the pin of a scope refers to the pin of the scope around it. A thing
goes when the last reference to it goes, and takes its own references with
it; lists that hold each other stay.
-/

set_option autoImplicit false

namespace Scriptlet

/-- A scope: the slot it is in, and its number among all scopes ever made, which tells it from
other scopes in that slot. Look-ups go by the slot. -/
structure ScopeId where
  slot : Nat
  serial : Nat
  deriving DecidableEq, Inhabited

abbrev PinId := Nat

structure Function where
  name : Option String
  params : List String
  body : Node
  source : Source
  scope : ScopeId
  pin : PinId

namespace Function

def anonymous : String := "<anonymous>"

/-- The name in messages and traces. -/
def displayName (f : Function) : String := f.name.getD anonymous

end Function

/-- Keeps a scope from being given back, and through `parent` the scopes around it. -/
structure Pin where
  scope : ScopeId
  parent : Option PinId
  deriving DecidableEq

inductive Ref where
  | list (id : ListId)
  | function (id : FunctionId)
  | pin (id : PinId)
  deriving DecidableEq

def Value.ref? : Value → Option Ref
  | .list id => some (.list id)
  | .function id => some (.function id)
  | _ => none

/-- The references that some values hold. -/
def Value.refs (vs : List Value) : List Ref := vs.filterMap Value.ref?

def Pin.refs (p : Pin) : List Ref := (p.parent.map Ref.pin).toList

structure Heap where
  lists : Table (Array Value)
  functions : Table Function
  pins : Table Pin

namespace Heap

def empty : Heap := ⟨.empty, .empty, .empty⟩

def list? (h : Heap) (id : ListId) : Option (Array Value) := h.lists.get? id

/-- The items of a list; none of a list that is gone. -/
def items (h : Heap) (id : ListId) : Array Value := (h.list? id).getD #[]

def function? (h : Heap) (id : FunctionId) : Option Function := h.functions.get? id

def pin? (h : Heap) (id : PinId) : Option Pin := h.pins.get? id

def refs (h : Heap) : Ref → Nat
  | .list id => h.lists.refs id
  | .function id => h.functions.refs id
  | .pin id => h.pins.refs id

def retain (h : Heap) : Ref → Heap
  | .list id => { h with lists := h.lists.retain id }
  | .function id => { h with functions := h.functions.retain id }
  | .pin id => { h with pins := h.pins.retain id }

/-- One reference less; what goes with it leaves the references that it held. -/
def unlink (h : Heap) : Ref → List Ref × Heap
  | .list id =>
    let (gone, lists) := h.lists.release id
    (((gone.map fun items => Value.refs items.toList)).getD [], { h with lists := lists })
  | .function id =>
    let (gone, functions) := h.functions.release id
    ((gone.map fun f => Ref.pin f.pin).toList, { h with functions := functions })
  | .pin id =>
    let (gone, pins) := h.pins.release id
    ((gone.map Pin.refs).getD [], { h with pins := pins })

def unlinkAll : List Ref → Heap → List Ref × Heap
  | [], h => ([], h)
  | r :: rs, h =>
    let (left, h) := h.unlink r
    let (more, h) := unlinkAll rs h
    (left ++ more, h)

/-- How many things there have ever been. -/
def size (h : Heap) : Nat := h.lists.size + h.functions.size + h.pins.size

/-- Gives references back, and those left by what goes, round by round. Something goes in every
round but the last. -/
def releaseFor : (rounds : Nat) → List Ref → Heap → Heap
  | _, [], h => h
  | 0, _, h => h
  | rounds + 1, rs, h =>
    let (left, h) := unlinkAll rs h
    releaseFor rounds left h

def release (h : Heap) (rs : List Ref) : Heap :=
  let rounds := h.size + 1
  releaseFor rounds rs h

/-- One more holder of a value. -/
def keep (h : Heap) (v : Value) : Heap :=
  match v.ref? with
  | none => h
  | some r => h.retain r

def keepAll (h : Heap) (vs : List Value) : Heap := vs.foldl keep h

/-- One holder of a value less. -/
def drop (h : Heap) (v : Value) : Heap :=
  match v.ref? with
  | none => h
  | some r => h.release [r]

def dropAll (h : Heap) (vs : List Value) : Heap :=
  match Value.refs vs with
  | [] => h
  | rs => h.release rs

/-- A new list that takes over the caller's hold on its items. -/
def newList (h : Heap) (items : Array Value) : Value × Heap :=
  let id := h.lists.size
  (.list id, { h with lists := h.lists.add items })

def newFunction (h : Heap) (f : Function) : Value × Heap :=
  let id := h.functions.size
  (.function id, { h with functions := h.functions.add f })

def newPin (h : Heap) (p : Pin) : PinId × Heap :=
  let id := h.pins.size
  (id, { h with pins := h.pins.add p })

end Heap

end Scriptlet
