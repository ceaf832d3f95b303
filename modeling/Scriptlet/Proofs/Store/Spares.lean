import Scriptlet.Proofs.Store.Slots
import Scriptlet.Store.Sweep

/-!
# Stores that spare older scopes

A change of a store spares the scopes that were made before some moment if no
binding of theirs has changed. Every operation on a store does, as long as the
scopes in which it binds names are younger.
-/

set_option autoImplicit false

namespace Scriptlet.Store

variable {since : Nat} {s s' s'' : Store} {id : ScopeId}

/-- Every scope of the second store that is older than `since` was in the first, in the same slot
and with the same bindings. -/
structure Spares (since : Nat) (s s' : Store) : Prop where
  created : s.created ≤ s'.created
  older : ∀ slot sc', s'.scopeAt? slot = some sc' → sc'.serial < since →
    ∃ sc, s.scopeAt? slot = some sc ∧ sc.serial = sc'.serial ∧ sc.bindings = sc'.bindings

/-- No scope in the slot is older than `since`. -/
def Younger (since : Nat) (s : Store) (id : ScopeId) : Prop :=
  ∀ sc, s.scope? id = some sc → since ≤ sc.serial

namespace Spares

theorem of_scopes (hs : s'.scopes = s.scopes) (hc : s.created ≤ s'.created) :
    s.Spares since s' :=
  ⟨hc, fun slot sc h _ => ⟨sc, by rwa [scopeAt?, hs] at h, rfl, rfl⟩⟩

theorem refl (s : Store) : s.Spares since s := of_scopes rfl (le_refl _)

theorem trans (h : Spares since s s') (h' : Spares since s' s'') : Spares since s s'' := by
  refine ⟨h.created.trans h'.created, fun slot sc'' hsc'' hlt => ?_⟩
  obtain ⟨sc', hsc', hserial', hb'⟩ := h'.older slot sc'' hsc'' hlt
  obtain ⟨sc, hsc, hserial, hb⟩ := h.older slot sc' hsc' (hserial' ▸ hlt)
  exact ⟨sc, hsc, hserial.trans hserial', hb.trans hb'⟩

/-- Where all scopes are younger, those that come there are too. -/
theorem younger (h : Spares since s s') (hy : s.Younger since id) : s'.Younger since id := by
  intro sc' hsc'
  by_contra hlt
  obtain ⟨sc, hsc, hserial, -⟩ := h.older id.slot sc' hsc' (Nat.lt_of_not_le hlt)
  exact hlt (hserial ▸ hy sc hsc)

end Spares

theorem spares_heap (s : Store) (h : Heap) : s.Spares since { s with heap := h } :=
  .of_scopes rfl (le_refl _)

/-- What is put into a slot is not older, or has the number and the bindings of what was there. -/
theorem spares_setScope {slot : Nat} {o : Option Scope}
    (ho : ∀ sc' ∈ o, sc'.serial < since → ∃ sc, s.scopeAt? slot = some sc ∧
      sc.serial = sc'.serial ∧ sc.bindings = sc'.bindings) :
    s.Spares since (s.setScope slot o) := by
  refine ⟨le_refl _, fun i sc' hsc' hlt => ?_⟩
  rw [scopeAt?_setScope] at hsc'
  split_ifs at hsc' with hi
  · exact hi.1 ▸ ho sc' hsc' hlt
  · exact ⟨sc', hsc', rfl, rfl⟩

theorem spares_define (hy : s.Younger since id) (name : String) (v : Value) :
    s.Spares since (s.define id name v) := by
  unfold define
  split
  · exact spares_heap ..
  · next sc hsc =>
    have hset : s.Spares since
        (s.setScope id.slot (some { sc with bindings := Bindings.put name v sc.bindings })) := by
      refine spares_setScope fun sc' hsc' hlt => ?_
      obtain rfl := Option.some.inj hsc'
      exact absurd (hy sc hsc) (Nat.not_le_of_lt hlt)
    dsimp only
    split
    · exact hset
    · exact hset.trans (spares_heap ..)

theorem spares_newPin (s : Store) (id : ScopeId) (parent : Option PinId) :
    s.Spares since (s.newPin id parent).2 := by
  unfold newPin
  split
  · exact spares_heap ..
  · next sc hsc =>
    have hset (pin : PinId) :
        s.Spares since (s.setScope id.slot (some { sc with pin := some pin })) :=
      spares_setScope fun sc' hsc' _ => by
        obtain rfl := Option.some.inj hsc'
        exact ⟨sc, hsc, rfl, rfl⟩
    exact (hset _).trans (spares_heap ..)

theorem spares_captureFor (reach : Nat) (id : ScopeId) (s : Store) :
    s.Spares since (captureFor reach id s).2 := by
  induction reach generalizing id s with
  | zero => exact spares_newPin ..
  | succ reach ih =>
    unfold captureFor
    split
    · exact spares_heap ..
    · split
      · exact spares_newPin ..
      · exact (ih ..).trans (spares_newPin ..)

theorem spares_defineFunction (hy : s.Younger since id) (name : Option String)
    (params : List String) (body : Node) (source : Source) :
    s.Spares since (s.defineFunction id name params body source).2 := by
  have hnew : s.Spares since (s.newFunction id name params body source).2 :=
    (spares_captureFor (s.scopes.size + 1) id s).trans (spares_heap ..)
  cases name with
  | none => exact hnew
  | some name =>
    let made := s.newFunction id (some name) params body source
    have hkept : s.Spares since (made.2.keep made.1) := hnew.trans (spares_heap ..)
    exact hkept.trans (spares_define (hkept.younger hy) name made.1)

/-- A scope that is made now is not older. -/
theorem spares_child (hc : since ≤ s.created) (parent : ScopeId) :
    s.Spares since (s.child parent).2 ∧ (s.child parent).2.Younger since (s.child parent).1 := by
  unfold child
  split
  · next slot free hfree =>
    have hset : s.Spares since (s.setScope slot (some ⟨s.created, some parent, [], none⟩)) := by
      refine spares_setScope fun sc hsc hlt => ?_
      obtain rfl := Option.some.inj hsc
      exact absurd hc (Nat.not_le_of_lt hlt)
    refine ⟨hset.trans (.of_scopes rfl (Nat.le_succ _)), fun sc hsc => ?_⟩
    · by_cases hlt : slot < s.scopes.size <;> simp [scope?, hlt] at hsc
      rw [← hsc]
      exact hc
  · refine ⟨⟨Nat.le_succ _, fun i sc hsc hlt => ?_⟩, fun sc hsc => ?_⟩
    · by_cases hi : i = s.scopes.size
      · simp [scopeAt?, hi] at hsc
        rw [← hsc] at hlt
        exact absurd hc (Nat.not_le_of_lt hlt)
      · exact ⟨sc, by simpa [scopeAt?, Array.getElem?_push, hi] using hsc, rfl, rfl⟩
    · simp [scope?] at hsc
      rw [← hsc]
      exact hc

theorem spares_freeSlot (s : Store) (id : ScopeId) : s.Spares since (s.freeSlot id) := by
  have hset : s.Spares since (s.setScope id.slot none) := spares_setScope nofun
  exact hset.trans (.of_scopes rfl (le_refl _))

theorem spares_freeSlots (ids : List ScopeId) (s : Store) :
    s.Spares since (ids.foldl freeSlot s) := by
  induction ids generalizing s with
  | nil => exact .refl s
  | cons id ids ih => exact (spares_freeSlot s id).trans (ih _)

theorem spares_sweep (s : Store) : s.Spares since s.sweep := by
  unfold sweep
  refine Spares.trans (.of_scopes ?_ ?_) (spares_freeSlots ..)
  · rfl
  · exact le_refl s.created

theorem spares_release (s : Store) (id : ScopeId) : s.Spares since (s.release id) := by
  unfold release
  split
  · exact .refl s
  · split
    · exact .refl s
    · split
      · exact spares_freeSlot s id
      · have hpushed : s.Spares since { s with detached := s.detached.push id } :=
          .of_scopes rfl (le_refl _)
        dsimp only
        split
        · exact hpushed.trans (spares_sweep _)
        · exact hpushed

theorem spares_finish (s : Store) (reclaim : Bool) (id : ScopeId) :
    s.Spares since (s.finish reclaim id) := by
  cases reclaim with
  | true => exact spares_release s id
  | false => exact .refl s

theorem spares_tidy (s : Store) (reclaim : Bool) : s.Spares since (s.tidy reclaim) := by
  cases reclaim with
  | true => exact spares_sweep s
  | false => exact .refl s

end Scriptlet.Store
