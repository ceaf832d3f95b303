import Scriptlet.Proofs.Heap.Holding
import Scriptlet.Store.Basic

/-!
# Slots and what is bound in them

The effect of each operation of a store on its slots, and on the references
that bindings hold. A slot is changed by the operations on the scope in it
and by no others.
-/

set_option autoImplicit false

namespace Scriptlet

namespace Bindings

/-- A new binding takes the place of the old one of its name, references included. -/
theorem count_put (name : String) (v : Value) (b : Bindings) (r : Ref) :
    (Value.refs (values (put name v b))).count r +
        (Value.refs (get? name b).toList).count r =
      (Value.refs (values b)).count r + (Value.refs [v]).count r := by
  induction b with
  | nil => simp [put, get?, values]
  | cons p b ih =>
    obtain ⟨n, w⟩ := p
    by_cases hn : n = name
    · simp [put, get?, values, hn]
      omega
    · simp only [put, get?, hn, if_false, values, List.map_cons, Value.refs_cons,
        List.count_append] at ih ⊢
      omega

theorem get?_put (name n : String) (v : Value) (b : Bindings) :
    get? n (put name v b) = if n = name then some v else get? n b := by
  induction b with
  | nil => simp [put, get?, eq_comm]
  | cons p b ih =>
    obtain ⟨m, w⟩ := p
    by_cases hm : m = name
    · by_cases h : n = name
      · simp [put, get?, hm, h]
      · simp [put, get?, hm, h, Ne.symm h]
    · by_cases h : m = n
      · subst h
        simp [put, get?, hm]
      · simp only [put, get?, hm, h, if_false, ih]

theorem mem_values {name : String} {v : Value} {b : Bindings} (h : get? name b = some v) :
    v ∈ values b := by
  induction b with
  | nil => simp [get?] at h
  | cons p b ih =>
    obtain ⟨n, w⟩ := p
    by_cases hn : n = name
    · simp only [get?, hn, if_true, Option.some.injEq] at h
      simp [values, h]
    · simp only [get?, hn, if_false] at h
      have := ih h
      simp only [values, List.map_cons, List.mem_cons] at this ⊢
      exact .inr this

end Bindings

namespace Store

variable {s : Store}

/-- The scope in a slot. -/
def scopeAt? (s : Store) (slot : Nat) : Option Scope := s.scopes[slot]?.join

theorem scope?_eq (s : Store) (id : ScopeId) : s.scope? id = s.scopeAt? id.slot := rfl

/-- The values bound in a slot. -/
def valuesAt (s : Store) (slot : Nat) : List Value :=
  ((s.scopeAt? slot).map fun sc => Bindings.values sc.bindings).getD []

/-- The references that bindings hold. -/
def boundRefs (s : Store) : List Ref :=
  (List.range s.scopes.size).flatMap fun slot => Value.refs (s.valuesAt slot)

theorem lt_size {slot : Nat} {sc : Scope} (h : s.scopeAt? slot = some sc) :
    slot < s.scopes.size := by
  by_contra hn
  simp [scopeAt?, Array.getElem?_eq_none (Nat.le_of_not_lt hn)] at h

theorem valuesAt_of_some {slot : Nat} {sc : Scope} (h : s.scopeAt? slot = some sc) :
    s.valuesAt slot = Bindings.values sc.bindings := by
  simp [valuesAt, h]

theorem mem_boundRefs {r : Ref} : r ∈ s.boundRefs ↔
    ∃ slot sc v, s.scopeAt? slot = some sc ∧ v ∈ Bindings.values sc.bindings ∧
      v.ref? = some r := by
  simp only [boundRefs, List.mem_flatMap, List.mem_range, Value.mem_refs]
  constructor
  · rintro ⟨slot, -, v, hv, hr⟩
    cases hs : s.scopeAt? slot with
    | none => simp [valuesAt, hs] at hv
    | some sc => exact ⟨slot, sc, v, hs, valuesAt_of_some hs ▸ hv, hr⟩
  · rintro ⟨slot, sc, v, hs, hv, hr⟩
    exact ⟨slot, lt_size hs, v, by rwa [valuesAt_of_some hs], hr⟩

/-- Two stores with the same slots but for one hold the same references but for what is bound
there. -/
theorem count_boundRefs {s' : Store} {slot : Nat} (hsize : s'.scopes.size = s.scopes.size)
    (hslot : slot < s.scopes.size) (he : ∀ i, i ≠ slot → s'.scopeAt? i = s.scopeAt? i) (r : Ref) :
    s'.boundRefs.count r + (Value.refs (s.valuesAt slot)).count r =
      s.boundRefs.count r + (Value.refs (s'.valuesAt slot)).count r := by
  simp only [boundRefs, hsize]
  refine count_flatMap_change (f := fun i => Value.refs (s.valuesAt i))
    (g := fun i => Value.refs (s'.valuesAt i)) List.nodup_range (List.mem_range.mpr hslot)
    (fun i _ hi => ?_) r
  simp only [valuesAt, he i hi]

theorem boundRefs_congr {s' : Store} (hsize : s'.scopes.size = s.scopes.size)
    (he : ∀ i, s'.valuesAt i = s.valuesAt i) : s'.boundRefs = s.boundRefs := by
  simp only [boundRefs, hsize, he]

/-! ## Look-ups -/

/-- The nearest scope from `id` outward that binds the name, with its value, within `reach`
steps. -/
def findFor (s : Store) (name : String) : (reach : Nat) → ScopeId → Option (ScopeId × Value)
  | 0, _ => none
  | reach + 1, id =>
    match s.scope? id with
    | none => none
    | some scope =>
      match Bindings.get? name scope.bindings with
      | some v => some (id, v)
      | none =>
        match scope.parent with
        | none => none
        | some parent => findFor s name reach parent

def find? (s : Store) (id : ScopeId) (name : String) : Option (ScopeId × Value) :=
  findFor s name s.scopes.size id

/-- The two walks outward end in the same scope. -/
theorem walks_eq_findFor (s : Store) (name : String) (reach : Nat) (id : ScopeId) :
    s.getFor name reach id = (s.findFor name reach id).map Prod.snd ∧
      s.ownerFor name reach id = (s.findFor name reach id).map Prod.fst := by
  induction reach generalizing id with
  | zero => exact ⟨rfl, rfl⟩
  | succ reach ih =>
    simp only [getFor, ownerFor, findFor]
    cases s.scope? id with
    | none => exact ⟨rfl, rfl⟩
    | some scope =>
      cases hb : Bindings.get? name scope.bindings with
      | some v => simp [hb]
      | none =>
        cases hp : scope.parent with
        | none => simp [hb, hp]
        | some parent => simpa [hb, hp] using ih parent

theorem get?_eq (s : Store) (id : ScopeId) (name : String) :
    s.get? id name = (s.find? id name).map Prod.snd :=
  (s.walks_eq_findFor name _ id).1

theorem owner?_eq (s : Store) (id : ScopeId) (name : String) :
    s.owner? id name = (s.find? id name).map Prod.fst :=
  (s.walks_eq_findFor name _ id).2

/-! ## One slot is changed -/

theorem scopeAt?_setScope (s : Store) (slot i : Nat) (o : Option Scope) :
    (s.setScope slot o).scopeAt? i =
      if i = slot ∧ slot < s.scopes.size then o else s.scopeAt? i := by
  simp only [scopeAt?, setScope, Array.getElem?_setIfInBounds]
  by_cases hi : i = slot
  · subst hi
    by_cases hlt : i < s.scopes.size <;> simp [hlt]
  · simp [hi, Ne.symm hi]

theorem size_setScope (s : Store) (slot : Nat) (o : Option Scope) :
    (s.setScope slot o).scopes.size = s.scopes.size := by
  simp [setScope]

/-! ## A new scope -/

/-- The slots that have been given back are the empty ones. -/
def FreeExact (s : Store) : Prop :=
  s.free.Nodup ∧ ∀ slot, slot ∈ s.free ↔ slot < s.scopes.size ∧ s.scopeAt? slot = none

theorem child_id_serial (s : Store) (parent : ScopeId) : (s.child parent).1.serial = s.created := by
  unfold child
  split <;> rfl

theorem child_created (s : Store) (parent : ScopeId) :
    (s.child parent).2.created = s.created + 1 := by
  unfold child
  split <;> rfl

theorem child_heap (s : Store) (parent : ScopeId) : (s.child parent).2.heap = s.heap := by
  unfold child
  split <;> rfl

theorem child_detached (s : Store) (parent : ScopeId) :
    (s.child parent).2.detached = s.detached := by
  unfold child
  split <;> rfl

/-- The slot that is used next is empty. -/
def NextFree (s : Store) : Prop :=
  ∀ slot ∈ s.free.head?, slot < s.scopes.size ∧ s.scopeAt? slot = none

theorem FreeExact.nextFree (hf : s.FreeExact) : s.NextFree :=
  fun slot hslot => (hf.2 slot).mp (List.mem_of_mem_head? hslot)

theorem NextFree.scopeAt?_child (hf : s.NextFree) (parent : ScopeId) :
    s.scopeAt? (s.child parent).1.slot = none ∧
    ∀ i, (s.child parent).2.scopeAt? i =
      if i = (s.child parent).1.slot then some ⟨s.created, some parent, [], none⟩
      else s.scopeAt? i := by
  unfold child
  split
  case h_1 slot free hfree =>
    obtain ⟨hlt, hempty⟩ := hf slot (by simp [hfree])
    refine ⟨hempty, fun i => ?_⟩
    by_cases hi : i = slot
    · subst hi
      simp [scopeAt?, hlt]
    · simp [scopeAt?, hi, Ne.symm hi]
  case h_2 hfree =>
    refine ⟨by simp [scopeAt?], fun i => ?_⟩
    by_cases hi : i = s.scopes.size <;> simp [scopeAt?, Array.getElem?_push, hi]

/-- The slot of a new scope was empty, and no other slot changes. -/
theorem scopeAt?_child (hf : s.FreeExact) (parent : ScopeId) :
    s.scopeAt? (s.child parent).1.slot = none ∧
    ∀ i, (s.child parent).2.scopeAt? i =
      if i = (s.child parent).1.slot then some ⟨s.created, some parent, [], none⟩
      else s.scopeAt? i :=
  hf.nextFree.scopeAt?_child parent

theorem size_child (s : Store) (parent : ScopeId) :
    (s.child parent).2.scopes.size =
      if s.free = [] then s.scopes.size + 1 else s.scopes.size := by
  unfold child
  split <;> simp_all

theorem child_freeExact (hf : s.FreeExact) (parent : ScopeId) :
    (s.child parent).2.FreeExact := by
  have hslots := (scopeAt?_child hf parent).2
  obtain ⟨hn, hmem⟩ := hf
  have hsize := size_child s parent
  cases hfree : s.free with
  | cons slot free =>
    have hc : (s.child parent).1.slot = slot ∧ (s.child parent).2.free = free := by
      simp [child, hfree]
    rw [hfree] at hn
    obtain ⟨hslot, hn'⟩ := List.nodup_cons.mp hn
    refine ⟨hc.2 ▸ hn', fun i => ?_⟩
    rw [hslots i, hc.1, hc.2, hsize]
    have := hmem i
    by_cases hi : i = slot
    · subst hi
      simpa using hslot
    · simpa [hfree, hi] using this
  | nil =>
    have hc : (s.child parent).1.slot = s.scopes.size ∧ (s.child parent).2.free = [] := by
      simp [child, hfree]
    refine ⟨by simp [hc.2], fun i => ?_⟩
    rw [hslots i, hc.1, hc.2, hsize]
    have := hmem i
    by_cases hi : i = s.scopes.size
    · simp [hi]
    · simp only [hfree, List.not_mem_nil, false_iff, not_and, hi, if_true, if_false] at this ⊢
      intro hlt
      exact this (by omega)

theorem boundRefs_child (hf : s.FreeExact) (parent : ScopeId) (r : Ref) :
    (s.child parent).2.boundRefs.count r = s.boundRefs.count r := by
  obtain ⟨hempty, hslots⟩ := scopeAt?_child hf parent
  have hvalues (i : Nat) : (s.child parent).2.valuesAt i = s.valuesAt i := by
    simp only [valuesAt, hslots i]
    by_cases hi : i = (s.child parent).1.slot
    · simp [hi, hempty, Bindings.values]
    · simp [hi]
  have hsize := size_child s parent
  by_cases hfree : s.free = []
  · have hnone : s.valuesAt s.scopes.size = [] := by simp [valuesAt, scopeAt?]
    simp only [boundRefs, hsize, hfree, if_true, List.range_succ, List.flatMap_append, hvalues,
      List.count_append, List.flatMap_cons, List.flatMap_nil, hnone, Value.refs_nil,
      List.count_nil]
    rfl
  · rw [boundRefs_congr (by simp [hsize, hfree]) hvalues]

end Store

end Scriptlet
