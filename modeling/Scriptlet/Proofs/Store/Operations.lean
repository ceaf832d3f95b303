import Scriptlet.Proofs.Store.Sound

/-!
# What the operations of a store keep

Every operation takes a sound store to a sound store, with what is held
besides the bindings changed by what the operation takes over or hands out.
Of the scopes only their bindings and pins change.
-/

set_option autoImplicit false

namespace Scriptlet.Store

variable {s s' : Store} {outer : List Ref}

theorem Sound.congr (hs : s.Sound outer) {outer' : List Ref}
    (he : ∀ r, outer'.count r = outer.count r) : s.Sound outer' :=
  ⟨hs.regular, hs.balanced.congr fun r => by simp [he r]⟩

theorem Sound.live_outer (hs : s.Sound outer) {r : Ref} (hr : r ∈ outer) : s.heap.Live r :=
  hs.balanced.live_of_outer (List.mem_append_left _ hr)

theorem Sound.live_bound (hs : s.Sound outer) {slot : Nat} {sc : Scope} {v : Value} {r : Ref}
    (hsc : s.scopeAt? slot = some sc) (hv : v ∈ Bindings.values sc.bindings)
    (hr : v.ref? = some r) : s.heap.Live r :=
  hs.balanced.live_of_outer (List.mem_append_right _ (mem_boundRefs.mpr ⟨slot, sc, v, hsc, hv, hr⟩))

theorem Sound.live_item (hs : s.Sound outer) {id : ListId} {v : Value} {r : Ref}
    (hv : v ∈ (s.heap.items id).toList) (hr : v.ref? = some r) : s.heap.Live r := by
  apply hs.balanced.live_of_inner
  cases hx : s.heap.list? id with
  | none => simp [Heap.items, hx] at hv
  | some xs =>
    refine Heap.mem_inner.mpr ⟨.list id, Option.isSome_iff_exists.mpr ⟨xs, hx⟩, ?_⟩
    exact Value.mem_refs.mpr ⟨v, hv, hr⟩

/-! ## Nothing new in the heap -/

theorem Sound.of_shrinks (hs : s.Sound outer) {h : Heap} {outer' : List Ref}
    (hh : s.heap.Shrinks h) (hb : h.Balanced (outer' ++ s.boundRefs)) :
    ({ s with heap := h } : Store).Sound outer' :=
  ⟨hs.regular.of_heap hb (le_of_eq hh.pins_size.symm) hh.pin hh.function, hb⟩

theorem steady_of_shrinks (s : Store) {h : Heap} (hh : s.heap.Shrinks h) :
    s.Steady { s with heap := h } :=
  ⟨fun _ => rfl, rfl, rfl, rfl, rfl, le_of_eq hh.functions_size.symm,
    fun f fn hf _ => hh.function f fn hf⟩

theorem Sound.keep (hs : s.Sound outer) {v : Value} (hv : ∀ r ∈ v.ref?, s.heap.Live r) :
    (s.keep v).Sound (v.ref?.toList ++ outer) :=
  hs.of_shrinks (s.heap.keep_shrinks v)
    ((hs.balanced.keep hv).congr fun r => by simp)

theorem keep_steady (s : Store) (v : Value) : s.Steady (s.keep v) :=
  s.steady_of_shrinks (s.heap.keep_shrinks v)

theorem Sound.dropAll {vs : List Value} (hs : s.Sound (Value.refs vs ++ outer)) :
    (s.dropAll vs).Sound outer := by
  have hb : s.heap.Balanced (Value.refs vs ++ (outer ++ s.boundRefs)) := by
    simpa using hs.balanced
  exact hs.of_shrinks hb.dropAll_shrinks hb.dropAll

theorem Sound.dropAll_steady {vs : List Value} (hs : s.Sound (Value.refs vs ++ outer)) :
    s.Steady (s.dropAll vs) := by
  have hb : s.heap.Balanced (Value.refs vs ++ (outer ++ s.boundRefs)) := by
    simpa using hs.balanced
  exact s.steady_of_shrinks hb.dropAll_shrinks

theorem drop_eq_dropAll (s : Store) (v : Value) : s.drop v = s.dropAll [v] := by
  simp [drop, dropAll, Heap.drop_eq_dropAll]

/-! ## Lists -/

theorem Sound.newList {items : Array Value} (hs : s.Sound (Value.refs items.toList ++ outer)) :
    (s.newList items).2.Sound (.list s.heap.lists.size :: outer) := by
  have hb : s.heap.Balanced (Value.refs items.toList ++ (outer ++ s.boundRefs)) := by
    simpa using hs.balanced
  exact ⟨hs.regular.of_heap hb.newList (le_refl _) (fun _ _ h => h) (fun _ _ h => h), hb.newList⟩

theorem newList_steady (s : Store) (items : Array Value) : s.Steady (s.newList items).2 :=
  ⟨fun _ => rfl, rfl, rfl, rfl, rfl, le_refl _, fun _ _ hf _ => hf⟩

theorem Sound.change (hs : s.Sound outer) {id : ListId} {xs : Array Value}
    (hx : s.heap.list? id = some xs) {f : Array Value → Array Value} {outer' : List Ref}
    (he : ∀ r, outer'.count r + (Value.refs (f xs).toList).count r =
      outer.count r + (Value.refs xs.toList).count r) :
    ({ s with heap := s.heap.change id f } : Store).Sound outer' := by
  have hb : (s.heap.change id f).Balanced (outer' ++ s.boundRefs) :=
    hs.balanced.change hx fun r => by have := he r; simp; omega
  exact ⟨hs.regular.of_heap hb (le_refl _) (fun _ _ h => h) (fun _ _ h => h), hb⟩

theorem change_steady (s : Store) (id : ListId) (f : Array Value → Array Value) :
    s.Steady { s with heap := s.heap.change id f } :=
  ⟨fun _ => rfl, rfl, rfl, rfl, rfl, le_refl _, fun _ _ hf _ => hf⟩

/-! ## Bindings -/

/-- A scope with other bindings in its slot. -/
def rebind (s : Store) (slot : Nat) (sc : Scope) (b : Bindings) : Store :=
  s.setScope slot (some { sc with bindings := b })

theorem rebind_head? {slot : Nat} {sc : Scope} (h : s.scopeAt? slot = some sc) (b : Bindings)
    (i : Nat) : (s.rebind slot sc b).head? i = s.head? i := by
  simp only [head?, rebind, scopeAt?_setScope, lt_size h, and_true]
  split_ifs with hi
  · simp [hi, h, Scope.head]
  · rfl

theorem rebind_freeExact {slot : Nat} {sc : Scope} (h : s.scopeAt? slot = some sc) (b : Bindings)
    (hf : s.FreeExact) : (s.rebind slot sc b).FreeExact := by
  refine ⟨hf.1, fun i => (hf.2 i).trans ?_⟩
  rw [rebind, size_setScope, scopeAt?_setScope]
  by_cases hi : i = slot
  · simp [hi, h, lt_size h]
  · simp [hi]

theorem Sound.rebind {slot : Nat} {sc : Scope} (hs : s.Sound outer)
    (h : s.scopeAt? slot = some sc) {b : Bindings} {outer' : List Ref}
    (he : ∀ r, outer'.count r + (Value.refs (Bindings.values b)).count r =
      outer.count r + (Value.refs (Bindings.values sc.bindings)).count r) :
    (s.rebind slot sc b).Sound outer' := by
  refine ⟨hs.regular.of_head (rebind_head? h b) rfl rfl (rebind_freeExact h b hs.regular.free),
    hs.balanced.congr fun r => ?_⟩
  have hslots : ∀ i, i ≠ slot → (s.rebind slot sc b).scopeAt? i = s.scopeAt? i := fun i hi => by
    simp [Store.rebind, scopeAt?_setScope, hi]
  have hsize : (s.rebind slot sc b).scopes.size = s.scopes.size := size_setScope ..
  have hc := count_boundRefs hsize (lt_size h) hslots r
  have hnew : (s.rebind slot sc b).valuesAt slot = Bindings.values b := by
    simp [valuesAt, Store.rebind, scopeAt?_setScope, lt_size h]
  rw [valuesAt_of_some h, hnew] at hc
  have := he r
  simp only [List.count_append]
  omega

theorem rebind_steady {slot : Nat} {sc : Scope} (h : s.scopeAt? slot = some sc) (b : Bindings) :
    s.Steady (s.rebind slot sc b) :=
  ⟨fun i => by rw [rebind_head? h b i], rfl, rfl, rfl, rfl, le_refl _, fun _ _ hf _ => hf⟩

/-- A binding is a rebinding of the scope and lets go of the value that was bound before. -/
theorem define_eq {id : ScopeId} {sc : Scope} (h : s.scope? id = some sc) (name : String)
    (v : Value) : s.define id name v =
      (s.rebind id.slot sc (Bindings.put name v sc.bindings)).dropAll
        (Bindings.get? name sc.bindings).toList := by
  simp only [define, h, rebind]
  cases Bindings.get? name sc.bindings with
  | none => rfl
  | some w => exact drop_eq_dropAll _ w

theorem Sound.rebind_put {id : ScopeId} {sc : Scope} {name : String} {v : Value}
    (hs : s.Sound (v.ref?.toList ++ outer)) (h : s.scope? id = some sc) :
    (s.rebind id.slot sc (Bindings.put name v sc.bindings)).Sound
      (Value.refs (Bindings.get? name sc.bindings).toList ++ outer) := by
  refine hs.rebind h fun r => ?_
  have := Bindings.count_put name v sc.bindings r
  simp only [Value.refs_cons, Value.refs_nil, List.append_nil, List.count_append] at this ⊢
  omega

theorem Sound.define {id : ScopeId} {name : String} {v : Value}
    (hs : s.Sound (v.ref?.toList ++ outer)) : (s.define id name v).Sound outer := by
  cases h : s.scope? id with
  | none =>
    have hd : s.define id name v = s.dropAll [v] := by simp [Store.define, h, drop_eq_dropAll]
    rw [hd]
    exact Sound.dropAll (by simpa using hs)
  | some sc =>
    rw [define_eq h]
    exact (hs.rebind_put h).dropAll

theorem Sound.define_steady {id : ScopeId} {name : String} {v : Value}
    (hs : s.Sound (v.ref?.toList ++ outer)) : s.Steady (s.define id name v) := by
  cases h : s.scope? id with
  | none =>
    have hd : s.define id name v = s.dropAll [v] := by simp [Store.define, h, drop_eq_dropAll]
    rw [hd]
    have hs' : s.Sound (Value.refs [v] ++ outer) := by simpa using hs
    exact hs'.dropAll_steady
  | some sc =>
    rw [define_eq h]
    exact (rebind_steady h _).trans (hs.rebind_put h).dropAll_steady

theorem Sound.assign {declare : Bool} {id : ScopeId} {name : String} {v : Value}
    (hs : s.Sound (v.ref?.toList ++ outer)) : (s.assign declare id name v).Sound outer := by
  cases declare
  · exact hs.define
  · exact hs.define

theorem Sound.assign_steady {declare : Bool} {id : ScopeId} {name : String} {v : Value}
    (hs : s.Sound (v.ref?.toList ++ outer)) : s.Steady (s.assign declare id name v) := by
  cases declare
  · exact hs.define_steady
  · exact hs.define_steady

/-- What is found is bound in a scope. -/
theorem findFor_bound {name : String} {reach : Nat} {id owner : ScopeId} {v : Value}
    (h : s.findFor name reach id = some (owner, v)) :
    ∃ sc, s.scope? owner = some sc ∧ Bindings.get? name sc.bindings = some v := by
  induction reach generalizing id with
  | zero => simp [findFor] at h
  | succ reach ih =>
    simp only [findFor] at h
    split at h
    · simp at h
    · rename_i sc hsc
      split at h
      · rename_i w hw
        obtain ⟨rfl, rfl⟩ := Prod.mk.inj (Option.some.inj h)
        exact ⟨sc, hsc, hw⟩
      · split at h
        · simp at h
        · exact ih h

theorem Sound.live_get? {id : ScopeId} {name : String} {v : Value} (hs : s.Sound outer)
    (h : s.get? id name = some v) : ∀ r ∈ v.ref?, s.heap.Live r := by
  intro r hr
  rw [get?_eq] at h
  obtain ⟨⟨owner, w⟩, hf, rfl⟩ := Option.map_eq_some_iff.mp h
  obtain ⟨sc, hsc, hw⟩ := findFor_bound hf
  exact hs.live_bound hsc (Bindings.mem_values hw) hr

end Scriptlet.Store
