import Scriptlet.Proofs.Heap.Holding
import Scriptlet.Store.Sweep
import Scriptlet.Value.Builtin

/-!
# The functions of a store

Functions come from definitions alone. Every other operation leaves those that
were there or loses some of them, and no function takes the number of one that
was there before.
-/

set_option autoImplicit false

namespace Scriptlet

variable {P : Function → Prop}

namespace Table

variable {α : Type}

theorem size_release (t : Table α) (id : Nat) : (t.release id).2.size = t.size := by
  unfold release
  split
  · rfl
  · split <;> simp [size]

theorem get?_of_release {t : Table α} {id j : Nat} {x : α}
    (h : (t.release id).2.get? j = some x) : t.get? j = some x := by
  cases hid : t.get? id with
  | none =>
    have hc := get?_eq_none.mp hid
    rwa [release, hc] at h
  | some y =>
    rw [(release_spec hid).2.2.1] at h
    split at h
    · simp at h
    · exact h

end Table

namespace Heap

/-- All functions were there before, or they are new and of a kind. -/
structure Adds (P : Function → Prop) (h h' : Heap) : Prop where
  size : h.functions.size ≤ h'.functions.size
  function : ∀ f fn, h'.function? f = some fn →
    h.function? f = some fn ∨ h.functions.size ≤ f ∧ P fn

variable {h h' h'' : Heap}

theorem Adds.of_eq (he : h'.functions = h.functions) : h.Adds P h' :=
  ⟨by rw [he], fun f fn hf => .inl (by rwa [function?, he] at hf)⟩

theorem Adds.refl (h : Heap) : h.Adds P h := .of_eq rfl

theorem Adds.trans (a : h.Adds P h') (b : h'.Adds P h'') : h.Adds P h'' := by
  refine ⟨a.size.trans b.size, fun f fn hf => ?_⟩
  rcases b.function f fn hf with hf' | ⟨hle, hp⟩
  · exact a.function f fn hf'
  · exact .inr ⟨a.size.trans hle, hp⟩

theorem adds_retain (h : Heap) (r : Ref) : h.Adds P (h.retain r) := by
  cases r with
  | function id =>
    refine ⟨(Table.size_retain ..).ge, fun f fn hf => .inl ?_⟩
    exact (Table.get?_retain ..).symm.trans hf
  | _ => exact .of_eq rfl

theorem adds_unlink (h : Heap) (r : Ref) : h.Adds P (h.unlink r).2 := by
  cases r with
  | function id =>
    exact ⟨(Table.size_release ..).ge, fun f fn hf => .inl (Table.get?_of_release hf)⟩
  | _ => exact .of_eq rfl

theorem adds_unlinkAll (rs : List Ref) (h : Heap) : h.Adds P (unlinkAll rs h).2 := by
  induction rs generalizing h with
  | nil => exact .refl h
  | cons r rs ih => exact (adds_unlink h r).trans (ih _)

theorem adds_releaseFor (rounds : Nat) (rs : List Ref) (h : Heap) :
    h.Adds P (releaseFor rounds rs h) := by
  induction rounds generalizing rs h with
  | zero => cases rs <;> exact .refl h
  | succ rounds ih =>
    cases rs with
    | nil => exact .refl h
    | cons r rs => exact (adds_unlinkAll (r :: rs) h).trans (ih _ _)

theorem adds_release (h : Heap) (rs : List Ref) : h.Adds P (h.release rs) :=
  adds_releaseFor ..

theorem adds_keep (h : Heap) (v : Value) : h.Adds P (h.keep v) := by
  unfold keep
  split
  · exact .refl h
  · exact adds_retain ..

theorem adds_keepAll (h : Heap) (vs : List Value) : h.Adds P (h.keepAll vs) := by
  induction vs generalizing h with
  | nil => exact .refl h
  | cons v vs ih => exact (adds_keep h v).trans (ih _)

theorem adds_drop (h : Heap) (v : Value) : h.Adds P (h.drop v) := by
  unfold drop
  split
  · exact .refl h
  · exact adds_release ..

theorem adds_dropAll (h : Heap) (vs : List Value) : h.Adds P (h.dropAll vs) := by
  unfold dropAll
  split
  · exact .refl h
  · exact adds_release ..

theorem adds_make (h : Heap) (c : Computed) : h.Adds P (h.make c).2 := by
  cases c with
  | value v => exact adds_keep h v
  | fresh items => exact (adds_keepAll h items.toList).trans (.of_eq rfl)

theorem adds_newFunction (h : Heap) {fn : Function} (hp : P fn) :
    h.Adds P (h.newFunction fn).2 := by
  refine ⟨?_, fun f gn hf => ?_⟩
  · rw [newFunction, Table.size_add]
    exact Nat.le_succ _
  · rw [newFunction_function?] at hf
    split at hf
    · obtain rfl := Option.some.inj hf
      exact .inr ⟨Nat.le_of_eq (Eq.symm ‹_›), hp⟩
    · exact .inl hf

theorem adds_builtin (h : Heap) (b : Builtin) (args : List Value) :
    h.Adds P (b.apply h args).heap := by
  have hpop (id : ListId) (i : Int64) : h.Adds P (Builtin.popAt h id i).heap := by
    unfold Builtin.popAt
    dsimp only
    split <;> exact .of_eq rfl
  unfold Builtin.apply
  split
  case h_7 id v => exact (adds_keepAll h _).trans (.of_eq rfl)
  case h_9 id other => exact (adds_keepAll h _).trans (.of_eq rfl)
  case h_11 id i => exact hpop id i
  all_goals exact .refl h

end Heap

namespace Store

theorem adds_child (s : Store) (parent : ScopeId) : s.heap.Adds P (s.child parent).2.heap := by
  unfold child
  split <;> exact .refl _

theorem adds_define (s : Store) (id : ScopeId) (name : String) (v : Value) :
    s.heap.Adds P (s.define id name v).heap := by
  unfold define
  split
  · exact Heap.adds_drop ..
  · dsimp only
    split
    · exact .refl _
    · exact Heap.adds_drop ..

theorem adds_assign (s : Store) (declare : Bool) (id : ScopeId) (name : String) (v : Value) :
    s.heap.Adds P (s.assign declare id name v).heap := by
  unfold assign
  split <;> exact adds_define ..

theorem adds_newPin (s : Store) (id : ScopeId) (parent : Option PinId) :
    s.heap.Adds P (s.newPin id parent).2.heap := by
  unfold newPin
  split <;> exact .of_eq rfl

theorem adds_captureFor (reach : Nat) (id : ScopeId) (s : Store) :
    s.heap.Adds P (captureFor reach id s).2.heap := by
  induction reach generalizing id s with
  | zero => exact adds_newPin ..
  | succ reach ih =>
    unfold captureFor
    split
    · rename_i pin _
      exact Heap.adds_retain s.heap (.pin pin)
    · split
      · exact adds_newPin ..
      · exact (ih ..).trans (adds_newPin ..)

/-- A definition makes a function of the body that it is told, and no other. -/
theorem adds_defineFunction (s : Store) (id : ScopeId) (name : Option String)
    (params : List String) {body : Node} {source : Source}
    (hp : ∀ fn : Function, fn.body = body → fn.source = source → P fn) :
    s.heap.Adds P (s.defineFunction id name params body source).2.heap := by
  have hnew : s.heap.Adds P (s.newFunction id name params body source).2.heap :=
    (adds_captureFor (s.scopes.size + 1) id s).trans (Heap.adds_newFunction _ (hp _ rfl rfl))
  cases name with
  | none => exact hnew
  | some name =>
    let made := s.newFunction id (some name) params body source
    have hkept : s.heap.Adds P (made.2.keep made.1).heap :=
      hnew.trans (Heap.adds_keep made.2.heap made.1)
    exact hkept.trans (adds_define (made.2.keep made.1) id name made.1)

theorem adds_freeSlot (s : Store) (id : ScopeId) : s.heap.Adds P (s.freeSlot id).heap :=
  Heap.adds_dropAll ..

theorem adds_freeSlots (ids : List ScopeId) (s : Store) :
    s.heap.Adds P (ids.foldl freeSlot s).heap := by
  induction ids generalizing s with
  | nil => exact .refl _
  | cons id ids ih => exact (adds_freeSlot s id).trans (ih _)

theorem adds_sweep (s : Store) : s.heap.Adds P s.sweep.heap := by
  unfold sweep
  refine Heap.Adds.trans (.of_eq ?_) (adds_freeSlots ..)
  rfl

theorem adds_release (s : Store) (id : ScopeId) : s.heap.Adds P (s.release id).heap := by
  unfold release
  split
  · exact .refl _
  · split
    · exact .refl _
    · split
      · exact adds_freeSlot s id
      · dsimp only
        split
        · exact adds_sweep { s with detached := s.detached.push id }
        · exact .refl _

theorem adds_finish (s : Store) (reclaim : Bool) (id : ScopeId) :
    s.heap.Adds P (s.finish reclaim id).heap := by
  cases reclaim with
  | true => exact adds_release s id
  | false => exact .refl _

theorem adds_tidy (s : Store) (reclaim : Bool) : s.heap.Adds P (s.tidy reclaim).heap := by
  cases reclaim with
  | true => exact adds_sweep s
  | false => exact .refl _

theorem function?_bare (f : FunctionId) : bare.heap.function? f = none := rfl

theorem adds_seeded : bare.heap.Adds P seeded.heap := by
  unfold seeded
  dsimp only
  refine List.foldlRecOn (motive := fun s : Store => bare.heap.Adds P s.heap) _ _ (.refl _)
    fun s hs b _ => ?_
  exact hs.trans (adds_define s global b.1 b.2)

end Store

end Scriptlet
