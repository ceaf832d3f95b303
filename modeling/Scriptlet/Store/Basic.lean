import Scriptlet.Store.Heap

/-!
# Scopes

A store holds scopes in numbered slots, and the heap of what their bindings
refer to. Slot 0 is the global scope, which is always there. A scope of a
finished call is given back at once if it has no pin; otherwise it is
detached, until a sweep finds that nothing outside the detached scopes needs
it. The slot given back last is used again first.
-/

set_option autoImplicit false

namespace Scriptlet

abbrev Bindings := List (String × Value)

namespace Bindings

def get? (name : String) : Bindings → Option Value
  | [] => none
  | (n, v) :: rest => if n = name then some v else get? name rest

/-- Binds a name anew, in the place of its old binding if there is one. -/
def put (name : String) (v : Value) : Bindings → Bindings
  | [] => [(name, v)]
  | (n, w) :: rest => if n = name then (n, v) :: rest else (n, w) :: put name v rest

def values (b : Bindings) : List Value := b.map Prod.snd

end Bindings

structure Scope where
  serial : Nat
  parent : Option ScopeId
  bindings : Bindings
  /-- The pin made for it last, which may be gone. -/
  pin : Option PinId

structure Store where
  heap : Heap
  scopes : Array (Option Scope)
  free : List Nat
  /-- Finished call scopes that had a pin when their call ended. -/
  detached : Array ScopeId
  /-- How many detached scopes bring about a sweep. -/
  nextSweep : Nat
  /-- The serial number of the next scope. -/
  created : Nat

namespace Store

/-- No sweep for fewer detached scopes. -/
def leastSweep : Nat := 256

def global : ScopeId := ⟨0, 0⟩

/-- A global scope without bindings. -/
def bare : Store := ⟨.empty, #[some ⟨0, none, [], none⟩], [], #[], leastSweep, 1⟩

def scope? (s : Store) (id : ScopeId) : Option Scope := s.scopes[id.slot]?.join

def occupied (s : Store) (id : ScopeId) : Bool := (s.scope? id).isSome

/-- How many scopes there are, the global one included. -/
def live (s : Store) : Nat := s.scopes.countP Option.isSome

def keep (s : Store) (v : Value) : Store := { s with heap := s.heap.keep v }

def keepAll (s : Store) (vs : List Value) : Store := { s with heap := s.heap.keepAll vs }

def drop (s : Store) (v : Value) : Store := { s with heap := s.heap.drop v }

def dropAll (s : Store) (vs : List Value) : Store := { s with heap := s.heap.dropAll vs }

/-- A new scope inside `parent`, in the slot given back last or else in a new one. -/
def child (s : Store) (parent : ScopeId) : ScopeId × Store :=
  let scope : Scope := ⟨s.created, some parent, [], none⟩
  match s.free with
  | slot :: free =>
    (⟨slot, s.created⟩,
      { s with
        scopes := s.scopes.setIfInBounds slot (some scope), free := free,
        created := s.created + 1 })
  | [] =>
    (⟨s.scopes.size, s.created⟩,
      { s with scopes := s.scopes.push (some scope), created := s.created + 1 })

def setScope (s : Store) (slot : Nat) (scope : Option Scope) : Store :=
  { s with scopes := s.scopes.setIfInBounds slot scope }

/-- Binds a name in a scope and takes over the caller's hold on the value. In a slot without a
scope nothing is bound. -/
def define (s : Store) (id : ScopeId) (name : String) (v : Value) : Store :=
  match s.scope? id with
  | none => s.drop v
  | some scope =>
    let old := Bindings.get? name scope.bindings
    let s := s.setScope id.slot (some { scope with bindings := Bindings.put name v scope.bindings })
    match old with
    | none => s
    | some w => s.drop w

/-- The value of the nearest binding of a name, from `id` outward, within `reach` steps. -/
def getFor (s : Store) (name : String) : (reach : Nat) → ScopeId → Option Value
  | 0, _ => none
  | reach + 1, id =>
    match s.scope? id with
    | none => none
    | some scope =>
      match Bindings.get? name scope.bindings with
      | some v => some v
      | none =>
        match scope.parent with
        | none => none
        | some parent => getFor s name reach parent

/-- No chain of scopes is longer than there are slots. -/
def get? (s : Store) (id : ScopeId) (name : String) : Option Value :=
  getFor s name s.scopes.size id

/-- The nearest scope from `id` outward that binds the name, within `reach` steps. -/
def ownerFor (s : Store) (name : String) : (reach : Nat) → ScopeId → Option ScopeId
  | 0, _ => none
  | reach + 1, id =>
    match s.scope? id with
    | none => none
    | some scope =>
      if (Bindings.get? name scope.bindings).isSome then some id
      else
        match scope.parent with
        | none => none
        | some parent => ownerFor s name reach parent

/-- The nearest scope that binds the name. -/
def owner? (s : Store) (id : ScopeId) (name : String) : Option ScopeId :=
  ownerFor s name s.scopes.size id

def contains (s : Store) (id : ScopeId) (name : String) : Bool := (s.owner? id name).isSome

/-- Rebinds a name where it is bound, or binds it in the scope itself. -/
def set (s : Store) (id : ScopeId) (name : String) (v : Value) : Store :=
  s.define ((s.owner? id name).getD id) name v

/-- Binds a name in the scope itself if `declare`, else where it is bound. -/
def assign (s : Store) (declare : Bool) (id : ScopeId) (name : String) (v : Value) : Store :=
  if declare then s.define id name v else s.set id name v

/-- The scope's pin, unless it is gone. -/
def livePin? (s : Store) (id : ScopeId) : Option PinId :=
  match s.scope? id with
  | none => none
  | some scope => scope.pin.filter fun p => (s.heap.pin? p).isSome

/-- A new pin for what is in a slot now; a scope there will hand it out again. -/
def newPin (s : Store) (id : ScopeId) (parent : Option PinId) : PinId × Store :=
  match s.scope? id with
  | none =>
    let (pin, heap) := s.heap.newPin ⟨id, parent⟩
    (pin, { s with heap := heap })
  | some scope =>
    let (pin, heap) := s.heap.newPin ⟨⟨id.slot, scope.serial⟩, parent⟩
    (pin, { s with
      heap := heap, scopes := s.scopes.setIfInBounds id.slot (some { scope with pin := some pin }) })

def captureFor : (reach : Nat) → ScopeId → Store → PinId × Store
  | 0, id, s => s.newPin id none
  | reach + 1, id, s =>
    match s.livePin? id with
    | some pin => (pin, { s with heap := s.heap.retain (.pin pin) })
    | none =>
      match (s.scope? id).bind Scope.parent with
      | none => s.newPin id none
      | some parent =>
        let (above, s) := captureFor reach parent s
        s.newPin id (some above)

/-- A pin on a scope and on all scopes around it, held by the caller. -/
def capture (s : Store) (id : ScopeId) : PinId × Store := captureFor (s.scopes.size + 1) id s

def dropPin (s : Store) (pin : PinId) : Store := { s with heap := s.heap.release [.pin pin] }

/-- Gives a slot back, and then all that was bound in it. -/
def freeSlot (s : Store) (id : ScopeId) : Store :=
  let old := ((s.scope? id).map Scope.bindings).getD []
  let s := { s with scopes := s.scopes.setIfInBounds id.slot none, free := id.slot :: s.free }
  s.dropAll (Bindings.values old)

/-- A function that is defined in a scope, held by the caller. -/
def newFunction (s : Store) (id : ScopeId) (name : Option String) (params : List String)
    (body : Node) (source : Source) : Value × Store :=
  let (pin, s) := s.capture id
  let (f, heap) := s.heap.newFunction ⟨name, params, body, source, id, pin⟩
  (f, { s with heap := heap })

/-- A function that is also bound in its scope if it has a name. -/
def defineFunction (s : Store) (id : ScopeId) (name : Option String) (params : List String)
    (body : Node) (source : Source) : Value × Store :=
  let (f, s) := s.newFunction id name params body source
  match name with
  | none => (f, s)
  | some name => (f, (s.keep f).define id name f)

def newList (s : Store) (items : Array Value) : Value × Store :=
  let (v, heap) := s.heap.newList items
  (v, { s with heap := heap })

/-- The global scope with the words for truth and the built-in functions. -/
def seeded : Store :=
  let constants : List (String × Value) := [("NULL", .int 0), ("TRUE", .int 1), ("FALSE", .int 0)]
  let builtins := Builtin.all.map fun b => (b.name, Value.builtin b)
  (constants ++ builtins).foldl (fun s b => s.define global b.1 b.2) bare

end Store

end Scriptlet
