import Scriptlet.Proofs.Store.Capture
import Scriptlet.Store.Sweep

/-!
# Which scopes are needed

A detached scope is needed if paths lead to it from a function that something
other than a binding of a detached scope refers to. The steps of a path go
from a scope to the one around it and to the scopes of the functions bound in
it.
-/

set_option autoImplicit false

namespace Scriptlet

/-- An active call: the function that was called and the scope of the call. -/
abbrev Call := Value × ScopeId

namespace Store

variable {s s' : Store} {outer : List Ref} {calls : List Call}

def IsDetached (s : Store) (slot : Nat) : Prop := ∃ id ∈ s.detached.toList, id.slot = slot

/-- A function that is held from outside, by a list, or by a binding of a scope that is not
detached. -/
def Root (s : Store) (outer : List Ref) (f : FunctionId) : Prop :=
  Ref.function f ∈ outer ∨
  (∃ id xs, s.heap.list? id = some xs ∧ Value.function f ∈ xs.toList) ∨
  ∃ slot sc, s.scopeAt? slot = some sc ∧ ¬ s.IsDetached slot ∧
    Value.function f ∈ Bindings.values sc.bindings

/-- The scopes that paths lead to from the functions in `root`. -/
inductive Needed (s : Store) (root : FunctionId → Prop) : ScopeId → Prop where
  | root {f : FunctionId} {fn : Function} (hr : root f) (hf : s.heap.function? f = some fn) :
      Needed s root fn.scope
  | around {id parent : ScopeId} {sc : Scope} (hn : Needed s root id) (hs : s.scope? id = some sc)
      (hp : sc.parent = some parent) : Needed s root parent
  | bound {id : ScopeId} {sc : Scope} {f : FunctionId} {fn : Function} (hn : Needed s root id)
      (hs : s.scope? id = some sc) (hb : Value.function f ∈ Bindings.values sc.bindings)
      (hf : s.heap.function? f = some fn) : Needed s root fn.scope

/-- The function of an active call is there, and its scope is around that of the call. -/
def Called (s : Store) (c : Call) : Prop :=
  ∃ f fn hd, c.1 = .function f ∧ s.heap.function? f = some fn ∧ s.Holds c.2 hd ∧
    hd.parent = some fn.scope

/-- The global scope, the scopes of active calls and the detached scopes are all scopes, each in a
slot of its own. -/
structure Tiled (s : Store) (active : List ScopeId) : Prop where
  detached : ∀ id ∈ s.detached.toList, ∃ hd, s.Holds id hd
  nodup : (0 :: (active ++ s.detached.toList).map ScopeId.slot).Nodup
  covered : ∀ slot hd, s.head? slot = some hd →
    slot = 0 ∨ slot ∈ (active ++ s.detached.toList).map ScopeId.slot

/-- All that a sweep relies on: exact counts, no pins held from outside, and active calls whose
functions are held. -/
structure Sweepable (s : Store) (outer : List Ref) (calls : List Call) : Prop where
  sound : s.Sound outer
  pinless : ∀ p, Ref.pin p ∉ outer
  called : ∀ c ∈ calls, s.Called c
  held : ∀ c ∈ calls, ∀ r ∈ c.1.ref?, r ∈ outer
  tiled : s.Tiled (calls.map Prod.snd)

theorem Holds.eq {id id' : ScopeId} {hd hd' : Head} (h : s.Holds id hd) (h' : s.Holds id' hd')
    (hslot : id.slot = id'.slot) : id = id' := by
  have hh := h.1
  rw [hslot, h'.1] at hh
  obtain rfl := Option.some.inj hh
  exact ScopeId.eq_of_slot hslot (h.2.symm.trans h'.2)

theorem Standing.holds {id : ScopeId} (h : s.Standing id) : ∃ hd, s.Holds id hd := by
  obtain ⟨chain, hc⟩ := h
  cases hc with
  | global there _ => exact ⟨_, there⟩
  | inside there _ _ => exact ⟨_, there⟩

theorem Standing.around {id parent : ScopeId} {hd : Head} (h : s.Standing id)
    (hh : s.Holds id hd) (hp : hd.parent = some parent) : s.Standing parent := by
  obtain ⟨chain, hc⟩ := h
  cases hc with
  | global there outermost =>
    obtain rfl := Option.some.inj (there.1.symm.trans hh.1)
    simp [outermost] at hp
  | inside there around rest =>
    obtain rfl := Option.some.inj (there.1.symm.trans hh.1)
    obtain rfl := Option.some.inj (around.symm.trans hp)
    exact ⟨_, rest⟩

/-- Whatever is needed stands. -/
theorem Sound.needed_standing (hs : s.Sound outer) {root : FunctionId → Prop} {id : ScopeId}
    (hn : s.Needed root id) : s.Standing id := by
  induction hn with
  | root _ hf => exact hs.regular.function_standing hf
  | @around id parent sc _ hsc hp ih =>
    obtain ⟨hd, hh⟩ := ih.holds
    have : hd = sc.head := Option.some.inj (hh.1.symm.trans (head?_of_scopeAt? hsc))
    exact ih.around hh (by rw [this]; exact hp)
  | bound _ _ _ hf _ => exact hs.regular.function_standing hf

end Store

end Scriptlet
