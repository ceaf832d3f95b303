import Scriptlet.Proofs.Grammar.Form
import Scriptlet.Proofs.Heap.Table
import Scriptlet.Machine.Basic

/-!
# A store without the places of its code

Functions keep the node that they run with all its spans, and the source that
it was read from. Without these, a store is the same to every operation, as
none of them looks at a place.
-/

set_option autoImplicit false

namespace Scriptlet

/-! ## Tables -/

namespace Table

variable {α β : Type} (f : α → β)

/-- The table with each item replaced. -/
def map (t : Table α) : Table β := ⟨t.cells.map (Option.map fun c => ⟨c.refs, f c.item⟩)⟩

variable (t : Table α) (id : Nat)

@[simp] theorem size_map : (t.map f).size = t.size := by
  simp [size, map]

@[simp] theorem cell?_map :
    (t.map f).cell? id = (t.cell? id).map fun c => ⟨c.refs, f c.item⟩ := by
  simp only [cell?, map, Array.getElem?_map]
  cases t.cells[id]? <;> rfl

@[simp] theorem get?_map : (t.map f).get? id = (t.get? id).map f := by
  simp [get?, Function.comp_def]

@[simp] theorem refs_map : (t.map f).refs id = t.refs id := by
  simp [refs, Function.comp_def]

theorem map_add (x : α) : (t.add x).map f = (t.map f).add (f x) := by
  simp [add, map]

theorem map_retain : (t.retain id).map f = (t.map f).retain id := by
  rw [retain, retain, map, map, Table.mk.injEq]
  apply Array.ext_getElem?
  intro i
  simp only [Array.getElem?_map, Array.getElem?_modify]
  split <;> simp [Function.comp_def]

theorem map_release :
    (t.map f).release id = ((t.release id).1.map f, (t.release id).2.map f) := by
  simp only [release, cell?_map]
  cases t.cell? id with
  | none => rfl
  | some c =>
    simp only [Option.map_some]
    split <;> simp [map, Array.map_setIfInBounds]

end Table

/-- The function with its code out of any source. -/
def Function.unplaced (fn : Function) : Function :=
  { fn with body := fn.body.bare, source := Activation.nowhere }

@[simp] theorem Function.displayName_unplaced (fn : Function) :
    fn.unplaced.displayName = fn.displayName := rfl

/-! ## Heaps -/

namespace Heap

def unplaced (h : Heap) : Heap := { h with functions := h.functions.map Function.unplaced }

variable (h : Heap)

@[simp] theorem items_unplaced (id : ListId) : h.unplaced.items id = h.items id := rfl

@[simp] theorem function?_unplaced (id : FunctionId) :
    h.unplaced.function? id = (h.function? id).map Function.unplaced := by
  simp [function?, unplaced]

@[simp] theorem refs_unplaced (r : Ref) : h.unplaced.refs r = h.refs r := by
  cases r <;> simp [refs, unplaced]

@[simp] theorem size_unplaced : h.unplaced.size = h.size := by
  simp [size, unplaced]

theorem unplaced_retain (r : Ref) : (h.retain r).unplaced = h.unplaced.retain r := by
  cases r <;> simp [retain, unplaced, Table.map_retain]

theorem unplaced_unlink (r : Ref) :
    h.unplaced.unlink r = ((h.unlink r).1, (h.unlink r).2.unplaced) := by
  cases r with
  | list id => rfl
  | pin id => rfl
  | function id =>
    simp only [unlink, unplaced, Table.map_release]
    cases (h.functions.release id).1 <;> rfl

theorem unplaced_unlinkAll (rs : List Ref) :
    unlinkAll rs h.unplaced = ((unlinkAll rs h).1, (unlinkAll rs h).2.unplaced) := by
  induction rs generalizing h with
  | nil => rfl
  | cons r rs ih => simp only [unlinkAll, unplaced_unlink, ih]

theorem unplaced_releaseFor (rounds : Nat) (rs : List Ref) :
    (releaseFor rounds rs h).unplaced = releaseFor rounds rs h.unplaced := by
  induction rounds generalizing rs h with
  | zero => cases rs <;> rfl
  | succ rounds ih =>
    cases rs with
    | nil => rfl
    | cons r rs => simp only [releaseFor, unplaced_unlinkAll, ih]

theorem unplaced_release (rs : List Ref) : (h.release rs).unplaced = h.unplaced.release rs := by
  simp only [release, size_unplaced, unplaced_releaseFor]

theorem unplaced_keep (v : Value) : (h.keep v).unplaced = h.unplaced.keep v := by
  unfold keep
  split
  · rfl
  · exact h.unplaced_retain _

theorem unplaced_keepAll (vs : List Value) : (h.keepAll vs).unplaced = h.unplaced.keepAll vs := by
  induction vs generalizing h with
  | nil => rfl
  | cons v vs ih => rw [keepAll, List.foldl_cons, ← keepAll, ih, unplaced_keep]; rfl

theorem unplaced_drop (v : Value) : (h.drop v).unplaced = h.unplaced.drop v := by
  unfold drop
  split
  · rfl
  · exact h.unplaced_release _

theorem unplaced_dropAll (vs : List Value) : (h.dropAll vs).unplaced = h.unplaced.dropAll vs := by
  unfold dropAll
  split
  · rfl
  · exact h.unplaced_release _

theorem unplaced_newFunction (fn : Function) :
    h.unplaced.newFunction fn.unplaced =
      ((h.newFunction fn).1, (h.newFunction fn).2.unplaced) := by
  simp [newFunction, unplaced, Table.map_add]

end Heap

/-! ## Stores -/

namespace Store

def unplaced (s : Store) : Store := { s with heap := s.heap.unplaced }

variable (s : Store)

@[simp] theorem heap_unplaced : s.unplaced.heap = s.heap.unplaced := rfl

@[simp] theorem scope?_unplaced (id : ScopeId) : s.unplaced.scope? id = s.scope? id := rfl

@[simp] theorem livePin?_unplaced (id : ScopeId) : s.unplaced.livePin? id = s.livePin? id := rfl

theorem unplaced_keep (v : Value) : (s.keep v).unplaced = s.unplaced.keep v :=
  congrArg (fun h => { s with heap := h }) (s.heap.unplaced_keep v)

theorem unplaced_drop (v : Value) : (s.drop v).unplaced = s.unplaced.drop v :=
  congrArg (fun h => { s with heap := h }) (s.heap.unplaced_drop v)

theorem unplaced_dropAll (vs : List Value) : (s.dropAll vs).unplaced = s.unplaced.dropAll vs :=
  congrArg (fun h => { s with heap := h }) (s.heap.unplaced_dropAll vs)

/-! ### Look-ups and bindings -/

theorem getFor_unplaced (name : String) (reach : Nat) (id : ScopeId) :
    s.unplaced.getFor name reach id = s.getFor name reach id := by
  induction reach generalizing id with
  | zero => rfl
  | succ reach ih => simp only [getFor, scope?_unplaced, ih]

theorem ownerFor_unplaced (name : String) (reach : Nat) (id : ScopeId) :
    s.unplaced.ownerFor name reach id = s.ownerFor name reach id := by
  induction reach generalizing id with
  | zero => rfl
  | succ reach ih => simp only [ownerFor, scope?_unplaced, ih]

@[simp] theorem get?_unplaced (id : ScopeId) (name : String) :
    s.unplaced.get? id name = s.get? id name :=
  s.getFor_unplaced name s.scopes.size id

@[simp] theorem owner?_unplaced (id : ScopeId) (name : String) :
    s.unplaced.owner? id name = s.owner? id name :=
  s.ownerFor_unplaced name s.scopes.size id

theorem unplaced_define (id : ScopeId) (name : String) (v : Value) :
    (s.define id name v).unplaced = s.unplaced.define id name v := by
  simp only [define, scope?_unplaced]
  cases s.scope? id with
  | none => exact s.unplaced_drop v
  | some scope =>
    dsimp only
    split
    · rfl
    · exact unplaced_drop _ _

theorem unplaced_assign (declare : Bool) (id : ScopeId) (name : String) (v : Value) :
    (s.assign declare id name v).unplaced = s.unplaced.assign declare id name v := by
  cases declare with
  | true => exact s.unplaced_define id name v
  | false =>
    simp only [assign, set, owner?_unplaced]
    exact s.unplaced_define _ name v

/-! ### Functions and new scopes -/

theorem unplaced_child (parent : ScopeId) :
    s.unplaced.child parent = ((s.child parent).1, (s.child parent).2.unplaced) := by
  obtain ⟨heap, scopes, free, detached, next, created⟩ := s
  cases free <;> rfl

theorem unplaced_newPin (id : ScopeId) (parent : Option PinId) :
    s.unplaced.newPin id parent = ((s.newPin id parent).1, (s.newPin id parent).2.unplaced) := by
  simp only [newPin, scope?_unplaced]
  cases s.scope? id <;> rfl

theorem unplaced_captureFor (reach : Nat) (id : ScopeId) :
    captureFor reach id s.unplaced =
      ((captureFor reach id s).1, (captureFor reach id s).2.unplaced) := by
  induction reach generalizing id s with
  | zero => exact s.unplaced_newPin id none
  | succ reach ih =>
    simp only [captureFor, livePin?_unplaced, scope?_unplaced]
    cases s.livePin? id with
    | some pin => rfl
    | none =>
      cases (s.scope? id).bind Scope.parent with
      | none => exact s.unplaced_newPin id none
      | some parent => simp only [ih, unplaced_newPin]

theorem unplaced_newFunction (id : ScopeId) (name : Option String) (params : List String)
    (body : Node) (source : Source) :
    s.unplaced.newFunction id name params body.bare Activation.nowhere =
      ((s.newFunction id name params body source).1,
        (s.newFunction id name params body source).2.unplaced) := by
  have hcapture : s.unplaced.capture id = ((s.capture id).1, (s.capture id).2.unplaced) :=
    s.unplaced_captureFor _ id
  have hnew := (s.capture id).2.heap.unplaced_newFunction
    ⟨name, params, body, source, id, (s.capture id).1⟩
  simp only [Function.unplaced] at hnew
  simp only [newFunction, hcapture, heap_unplaced, hnew]
  rfl

theorem unplaced_defineFunction (id : ScopeId) (name : Option String) (params : List String)
    (body : Node) (source : Source) :
    s.unplaced.defineFunction id name params body.bare Activation.nowhere =
      ((s.defineFunction id name params body source).1,
        (s.defineFunction id name params body source).2.unplaced) := by
  simp only [defineFunction, s.unplaced_newFunction id name params body source]
  cases name with
  | none => rfl
  | some name => simp only [unplaced_define, unplaced_keep]

/-! ### Giving scopes back -/

theorem unplaced_freeSlot (id : ScopeId) : (s.freeSlot id).unplaced = s.unplaced.freeSlot id :=
  unplaced_dropAll _ _

@[simp] theorem outside_unplaced (f : Sweep.Field) :
    Sweep.outside s.unplaced f = Sweep.outside s f := by
  have hpin (fn : FunctionId) :
      ((s.heap.function? fn).map Function.unplaced).bind (fun fn => Sweep.pinPlace? s f fn.pin) =
        (s.heap.function? fn).bind fun fn => Sweep.pinPlace? s f fn.pin := by
    cases s.heap.function? fn <;> rfl
  have hplaces : Sweep.functionPlaces s.unplaced f = Sweep.functionPlaces s f := by
    unfold Sweep.functionPlaces
    simp only [heap_unplaced, Heap.refs_unplaced, Heap.function?_unplaced]
    exact List.filterMap_congr fun b _ => by rw [← hpin]; rfl
  have hcounts : Sweep.pinCounts s.unplaced f = Sweep.pinCounts s f := by
    unfold Sweep.pinCounts
    simp only [heap_unplaced, Heap.refs_unplaced]
    rfl
  rw [Sweep.outside, hplaces, hcounts]
  rfl

@[simp] theorem reached_unplaced (f : Sweep.Field) :
    Sweep.reached s.unplaced f = Sweep.reached s f := by
  have hnext : Sweep.successors s.unplaced f = Sweep.successors s f := by
    funext place
    simp only [Sweep.successors, heap_unplaced, Heap.function?_unplaced, Option.bind_map]
    rfl
  rw [Sweep.reached, hnext, outside_unplaced]
  rfl

theorem unplaced_sweep : s.sweep.unplaced = s.unplaced.sweep := by
  have hfree (ids : List ScopeId) (s : Store) :
      (ids.foldl freeSlot s).unplaced = ids.foldl freeSlot s.unplaced := by
    induction ids generalizing s with
    | nil => rfl
    | cons id ids ih => rw [List.foldl_cons, ih, unplaced_freeSlot, List.foldl_cons]
  have hfield : Sweep.field s.unplaced = Sweep.field s := rfl
  simp only [sweep, hfield, reached_unplaced, hfree]
  rfl

theorem unplaced_tidy (reclaim : Bool) :
    (s.tidy reclaim).unplaced = s.unplaced.tidy reclaim := by
  rw [tidy, tidy, apply_ite Store.unplaced, unplaced_sweep]

theorem unplaced_finish (reclaim : Bool) (id : ScopeId) :
    (s.finish reclaim id).unplaced = s.unplaced.finish reclaim id := by
  cases reclaim with
  | false => rfl
  | true =>
    simp only [finish, release, scope?_unplaced, livePin?_unplaced, if_true]
    split
    · rfl
    · cases s.scope? id with
      | none => rfl
      | some scope =>
        cases s.livePin? id with
        | none => exact s.unplaced_freeSlot id
        | some pin =>
          dsimp only
          rw [apply_ite Store.unplaced, unplaced_sweep]
          rfl

end Store

end Scriptlet
