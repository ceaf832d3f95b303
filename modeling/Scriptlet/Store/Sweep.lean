import Scriptlet.Store.Basic

/-!
# Giving scopes back

A sweep looks at the detached scopes only. A reference to the pin of one of
them comes from outside unless the detached scopes account for it: by the
parent link of a pin of theirs, or by a function that is bound in them and
held nowhere else. A scope with a reference from outside stays, and so does
every detached scope that can be reached from it through parents and bound
functions. All others go, in the order in which they were detached. What is
held by a list counts as a reference from outside.
-/

set_option autoImplicit false

namespace Scriptlet

namespace Sweep

/-- The detached scopes that a sweep decides on, in order, and the place of each slot among
them. A slot that is there twice has the later place. -/
structure Field where
  ids : Array ScopeId
  placeOf : Array (Option Nat)

def Field.place? (f : Field) (slot : Nat) : Option Nat := f.placeOf[slot]?.join

def field (s : Store) : Field :=
  let ids := s.detached.filter s.occupied
  let placeOf := (ids.toList.zipIdx).foldl (fun a p => a.setIfInBounds p.1.slot (some p.2))
    (Array.replicate s.scopes.size none)
  ⟨ids, placeOf⟩

/-- The place of the scope whose pin this is. -/
def pinPlace? (s : Store) (f : Field) (pin : PinId) : Option Nat :=
  match s.heap.pin? pin with
  | none => none
  | some p => if s.livePin? p.scope = some pin then f.place? p.scope.slot else none

def functionsOf (bindings : Bindings) : List FunctionId :=
  bindings.filterMap fun b => match b.2 with
    | .function id => some id
    | _ => none

/-- The functions bound in a scope, as often as they are bound. -/
def boundIn (s : Store) (id : ScopeId) : List FunctionId :=
  functionsOf (((s.scope? id).map Scope.bindings).getD [])

/-- Each number of a sorted list once, with how often it is there. -/
def tally : List Nat → List (Nat × Nat)
  | [] => []
  | n :: ns =>
    match tally ns with
    | [] => [(n, 1)]
    | (m, count) :: rest => if n = m then (m, count + 1) :: rest else (n, 1) :: (m, count) :: rest

/-- How often the pin of each detached scope is referred to. A slot that is there several times
has one reference more for every further time. -/
def pinCounts (s : Store) (f : Field) : Array Nat :=
  let times := f.ids.foldl (fun a id => a.modify id.slot (· + 1)) (Array.replicate s.scopes.size 0)
  f.ids.map fun id =>
    match s.livePin? id with
    | none => 0
    | some pin => s.heap.refs (.pin pin) + times.getD id.slot 0 - 1

/-- The places whose pins the pins of detached scopes refer to. -/
def parentPlaces (s : Store) (f : Field) : List Nat :=
  f.ids.toList.filterMap fun id =>
    ((s.livePin? id).bind s.heap.pin?).bind fun p => p.parent.bind (pinPlace? s f)

/-- The places whose pins are referred to by functions that only detached scopes hold. -/
def functionPlaces (s : Store) (f : Field) : List Nat :=
  let bound := (f.ids.toList.flatMap (boundIn s)).mergeSort
  (tally bound).filterMap fun b =>
    if s.heap.refs (.function b.1) = b.2 then
      (s.heap.function? b.1).bind fun fn => pinPlace? s f fn.pin
    else none

/-- For each detached scope, how many references to its pin come from outside. -/
def outside (s : Store) (f : Field) : Array Nat :=
  (parentPlaces s f ++ functionPlaces s f).foldl (fun a i => a.modify i (· - 1)) (pinCounts s f)

/-- The places that one step leads to: the scope around, and those of the functions bound. -/
def successors (s : Store) (f : Field) (place : Nat) : List Nat :=
  match (f.ids[place]?).bind s.scope? with
  | none => []
  | some scope =>
    (scope.parent.bind fun p => f.place? p.slot).toList
      ++ (functionsOf scope.bindings).filterMap fun fn =>
        (s.heap.function? fn).bind fun fn => f.place? fn.scope.slot

/-- Marks a place, and notes it if it was not marked before. -/
def mark : Array Bool × List Nat → Nat → Array Bool × List Nat
  | (seen, found), place =>
    match seen[place]? with
    | some false => (seen.setIfInBounds place true, place :: found)
    | _ => (seen, found)

/-- Marks all that can be reached from the frontier, round by round. Each round but the last
marks a place. -/
def spread (next : Nat → List Nat) : (rounds : Nat) → (frontier : List Nat) → Array Bool →
    Array Bool
  | 0, _, seen => seen
  | _ + 1, [], seen => seen
  | rounds + 1, frontier, seen =>
    let (seen, found) := (frontier.flatMap next).foldl mark (seen, [])
    spread next rounds found seen

/-- For each detached scope, whether it stays. -/
def reached (s : Store) (f : Field) : Array Bool :=
  let out := outside s f
  let roots := (List.range f.ids.size).filter fun i => 0 < out.getD i 0
  let (seen, found) := roots.foldl mark (Array.replicate f.ids.size false, [])
  spread (successors s f) f.ids.size found seen

end Sweep

namespace Store

/-- Gives back the detached scopes that are not needed from outside. -/
def sweep (s : Store) : Store :=
  let f := Sweep.field s
  let stays := Sweep.reached s f
  let marked := f.ids.toList.zip stays.toList
  let kept := (marked.filter Prod.snd).map Prod.fst
  let gone := (marked.filter fun m => !m.2).map Prod.fst
  let s := { s with detached := kept.toArray, nextSweep := max (2 * kept.length) leastSweep }
  gone.foldl freeSlot s

/-- Ends a call scope. -/
def release (s : Store) (id : ScopeId) : Store :=
  if id.slot = global.slot then s
  else
    match s.scope? id with
    | none => s
    | some _ =>
      match s.livePin? id with
      | none => s.freeSlot id
      | some _ =>
        let s := { s with detached := s.detached.push id }
        if s.nextSweep ≤ s.detached.size then s.sweep else s

/-- Ends a call scope, if scopes are given back at all. -/
def finish (s : Store) (reclaim : Bool) (id : ScopeId) : Store :=
  if reclaim then s.release id else s

/-- Sweeps, if scopes are given back at all. -/
def tidy (s : Store) (reclaim : Bool) : Store := if reclaim then s.sweep else s

end Store

end Scriptlet
