import Scriptlet.Proofs.Store.Need

/-!
# Giving slots back

Scopes that are given back take what was bound in them along. The store stays
sound if no pin that is left pins one of them; what happens in between does
not matter.
-/

set_option autoImplicit false

namespace Scriptlet.Store

variable {s s' : Store} {outer : List Ref}

/-- Some slots are empty now, and things may be gone from the heap. -/
structure Emptied (s : Store) (slots : List Nat) (s' : Store) : Prop where
  scopeAt? : ∀ i, s'.scopeAt? i = if i ∈ slots then none else s.scopeAt? i
  shrinks : s.heap.Shrinks s'.heap
  free : s.FreeExact → s'.FreeExact
  created : s'.created = s.created

namespace Emptied

variable {slots : List Nat}

theorem head? (h : s.Emptied slots s') (i : Nat) :
    s'.head? i = if i ∈ slots then none else s.head? i := by
  rw [Store.head?, h.scopeAt?]
  split <;> rfl

theorem of_head? (h : s.Emptied slots s') {i : Nat} {hd : Head} (hh : s'.head? i = some hd) :
    i ∉ slots ∧ s.head? i = some hd := by
  rw [h.head?] at hh
  split at hh
  · simp at hh
  · exact ⟨‹_›, hh⟩

theorem holds_iff (h : s.Emptied slots s') {id : ScopeId} {hd : Head} :
    s'.Holds id hd ↔ s.Holds id hd ∧ id.slot ∉ slots := by
  rw [Holds, h.head?]
  by_cases hi : id.slot ∈ slots <;> simp [hi, Holds]

theorem function (h : s.Emptied slots s') {f : FunctionId} {fn : Function}
    (hf : s'.heap.function? f = some fn) : s.heap.function? f = some fn :=
  h.shrinks.function f fn hf

end Emptied

theorem freeSlot_eq {id : ScopeId} {sc : Scope} (h : s.scope? id = some sc) :
    s.freeSlot id = ({ s.setScope id.slot none with free := id.slot :: s.free }).dropAll
      (Bindings.values sc.bindings) := by
  simp [freeSlot, h, setScope]

theorem scopeAt?_freeSlot {id : ScopeId} {sc : Scope} (h : s.scope? id = some sc) (i : Nat) :
    (s.freeSlot id).scopeAt? i = if i = id.slot then none else s.scopeAt? i := by
  have hlt : id.slot < s.scopes.size := lt_size (show s.scopeAt? id.slot = some sc from h)
  rw [freeSlot_eq h]
  change (s.setScope id.slot none).scopeAt? i = _
  rw [scopeAt?_setScope]
  simp [hlt]

theorem size_freeSlot {id : ScopeId} {sc : Scope} (h : s.scope? id = some sc) :
    (s.freeSlot id).scopes.size = s.scopes.size := by
  rw [freeSlot_eq h]
  exact size_setScope ..

/-- The slot of a scope that is there is not free yet. -/
theorem freeSlot_freeExact {id : ScopeId} {sc : Scope} (h : s.scope? id = some sc)
    (hf : s.FreeExact) : (s.freeSlot id).FreeExact := by
  have hsc : s.scopeAt? id.slot = some sc := h
  have hfree : (s.freeSlot id).free = id.slot :: s.free := by
    rw [freeSlot_eq h]
    rfl
  have hn : id.slot ∉ s.free := fun hm => by simp [((hf.2 _).mp hm).2] at hsc
  refine ⟨hfree ▸ List.nodup_cons.mpr ⟨hn, hf.1⟩, fun i => ?_⟩
  rw [hfree, scopeAt?_freeSlot h, size_freeSlot h, List.mem_cons, hf.2 i]
  by_cases hi : i = id.slot
  · simp [hi, lt_size hsc]
  · simp [hi]

theorem freeSlot_spec {id : ScopeId} {sc : Scope} (h : s.scope? id = some sc)
    (hb : s.heap.Balanced (outer ++ s.boundRefs)) :
    s.Emptied [id.slot] (s.freeSlot id) ∧
      (s.freeSlot id).heap.Balanced (outer ++ (s.freeSlot id).boundRefs) := by
  have hsc : s.scopeAt? id.slot = some sc := h
  have hat (i : Nat) : (s.freeSlot id).scopeAt? i =
      if i ∈ [id.slot] then none else s.scopeAt? i := by
    rw [scopeAt?_freeSlot h]
    simp
  have hcount (r : Ref) : (s.freeSlot id).boundRefs.count r +
      (Value.refs (Bindings.values sc.bindings)).count r = s.boundRefs.count r := by
    have hc := count_boundRefs (size_freeSlot h) (lt_size hsc)
      (fun i hi => by rw [hat]; simp [hi]) r
    have hnone : (s.freeSlot id).valuesAt id.slot = [] := by simp [valuesAt, hat]
    rw [valuesAt_of_some hsc, hnone] at hc
    simpa using hc
  have hb' : s.heap.Balanced (Value.refs (Bindings.values sc.bindings) ++
      (outer ++ (s.freeSlot id).boundRefs)) := hb.congr fun r => by
    have := hcount r
    simp only [List.count_append]
    omega
  have hheap : (s.freeSlot id).heap = s.heap.dropAll (Bindings.values sc.bindings) := by
    rw [freeSlot_eq h]
    rfl
  refine ⟨⟨hat, hheap ▸ hb'.dropAll_shrinks, freeSlot_freeExact h, ?_⟩, hheap ▸ hb'.dropAll⟩
  rw [freeSlot_eq h]
  rfl

theorem freeAll_spec {gone : List ScopeId} (hn : (gone.map ScopeId.slot).Nodup)
    (hthere : ∀ id ∈ gone, ∃ sc, s.scope? id = some sc)
    (hb : s.heap.Balanced (outer ++ s.boundRefs)) :
    s.Emptied (gone.map ScopeId.slot) (gone.foldl freeSlot s) ∧
      (gone.foldl freeSlot s).heap.Balanced (outer ++ (gone.foldl freeSlot s).boundRefs) := by
  induction gone generalizing s with
  | nil => exact ⟨⟨fun i => by simp, .refl _, id, rfl⟩, hb⟩
  | cons id gone ih =>
    obtain ⟨hid, hn⟩ := List.nodup_cons.mp hn
    obtain ⟨sc, hsc⟩ := hthere id (by simp)
    obtain ⟨hone, hb'⟩ := freeSlot_spec hsc hb
    have hstill (d : ScopeId) (hd : d ∈ gone) : ∃ sd, (s.freeSlot id).scope? d = some sd := by
      have hne : d.slot ≠ id.slot := fun he => hid (he ▸ List.mem_map_of_mem hd)
      obtain ⟨sd, hsd⟩ := hthere d (by simp [hd])
      exact ⟨sd, by rw [scope?_eq, hone.scopeAt?, if_neg (by simpa using hne)]; exact hsd⟩
    obtain ⟨hrest, hb''⟩ := ih hn hstill hb'
    refine ⟨⟨fun i => ?_, hone.shrinks.trans hrest.shrinks, fun hf => hrest.free (hone.free hf),
      hrest.created.trans hone.created⟩, hb''⟩
    rw [List.foldl_cons, hrest.scopeAt?, hone.scopeAt?]
    by_cases hi : i = id.slot <;> simp [hi]

theorem freeAll_detached (gone : List ScopeId) (s : Store) :
    (gone.foldl freeSlot s).detached = s.detached := by
  induction gone generalizing s with
  | nil => rfl
  | cons id gone ih => exact ih (s.freeSlot id)

/-- A store stays sound if no pin is left of the scopes that are given back. -/
theorem Sound.emptied {slots : List Nat} (hs : s.Sound outer) (he : s.Emptied slots s')
    (hb : s'.heap.Balanced (outer ++ s'.boundRefs)) (h0 : 0 ∉ slots)
    (hpin : ∀ p q, s'.heap.pin? p = some q → q.scope.slot ∉ slots) : s'.Sound outer := by
  have hr := hs.regular
  refine ⟨⟨?_, ?_, ?_, ?_, ?_, he.free hr.free, ?_, ?_, ?_⟩, hb⟩
  · obtain ⟨hd, hh⟩ := hr.outermost
    exact ⟨hd, he.holds_iff.mpr ⟨hh, h0⟩⟩
  · exact fun slot hd hh => hr.parentless slot hd (he.of_head? hh).2
  · exact fun slot hd hh => he.created ▸ hr.serial_lt slot hd (he.of_head? hh).2
  · exact fun i j a b ha hb => hr.serial_inj i j a b (he.of_head? ha).2 (he.of_head? hb).2
  · exact fun slot hd p hh => hr.parent_lt slot hd p (he.of_head? hh).2
  · intro p q hq
    obtain ⟨hd, hh, hpp, hfit⟩ := hr.pinned p q (he.shrinks.pin p q hq)
    refine ⟨hd, he.holds_iff.mpr ⟨hh, hpin p q hq⟩, hpp, hfit.imp_right ?_⟩
    rintro ⟨a, b, ha, hb', hpar⟩
    have hlive : s'.heap.Live (.pin a) := by
      apply hb.live_of_inner
      refine Heap.mem_inner.mpr ⟨.pin p, Option.isSome_iff_exists.mpr ⟨q, hq⟩, ?_⟩
      simp [Heap.links, hq, Pin.refs, ha]
    obtain ⟨c, hc⟩ := Option.isSome_iff_exists.mp hlive
    have : c = b := Option.some.inj ((he.shrinks.pin a c hc).symm.trans hb')
    exact ⟨a, b, ha, this ▸ hc, hpar⟩
  · intro f fn hf
    obtain ⟨q, hq, hsc⟩ := hr.defined f fn (he.function hf)
    have hlive : s'.heap.Live (.pin fn.pin) := by
      apply hb.live_of_inner
      refine Heap.mem_inner.mpr ⟨.function f, Option.isSome_iff_exists.mpr ⟨fn, hf⟩, ?_⟩
      simp [Heap.links, hf]
    obtain ⟨c, hc⟩ := Option.isSome_iff_exists.mp hlive
    have : c = q := Option.some.inj ((he.shrinks.pin _ c hc).symm.trans hq)
    exact ⟨q, this ▸ hc, hsc⟩
  · intro slot hd p hh hp
    obtain ⟨hlt, hslot⟩ := hr.latest slot hd p (he.of_head? hh).2 hp
    exact ⟨hlt.trans_eq he.shrinks.pins_size.symm, fun q hq => hslot q (he.shrinks.pin p q hq)⟩

end Scriptlet.Store
