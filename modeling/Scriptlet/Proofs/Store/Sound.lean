import Scriptlet.Proofs.Store.Slots

/-!
# Sound stores

What the operations of a store rely on and keep. Scopes have serial numbers
of their own and lie inside older ones; a pin that is there pins the scope
that it was made for, and the pin above it the scope around; all counts of
references are exact. From this follows that the scope of a function, with
all scopes around it, is there for as long as the function is.
-/

set_option autoImplicit false

namespace Scriptlet

/-- What a scope is besides its bindings. -/
structure Head where
  serial : Nat
  parent : Option ScopeId
  pin : Option PinId

def Scope.head (sc : Scope) : Head := ⟨sc.serial, sc.parent, sc.pin⟩

namespace Store

def head? (s : Store) (slot : Nat) : Option Head := (s.scopeAt? slot).map Scope.head

/-- The scope with this number is in the slot. -/
def Holds (s : Store) (id : ScopeId) (hd : Head) : Prop :=
  s.head? id.slot = some hd ∧ hd.serial = id.serial

/-- The scopes from one outward to the global scope, each with its own number in its slot. -/
inductive Chain (s : Store) : ScopeId → List ScopeId → Prop where
  | global {hd : Head} (there : s.Holds global hd) (outermost : hd.parent = none) :
      Chain s global [global]
  | inside {id parent : ScopeId} {hd : Head} {above : List ScopeId} (there : s.Holds id hd)
      (around : hd.parent = some parent) (rest : Chain s parent above) : Chain s id (id :: above)

/-- A scope that is there with all scopes around it. -/
def Standing (s : Store) (id : ScopeId) : Prop := ∃ chain, s.Chain id chain

/-- The pin above a pin is that of the scope around. -/
def PinFits (h : Heap) (q : Pin) (hd : Head) : Prop :=
  hd.parent = none ∧ q.parent = none ∨
    ∃ a b, q.parent = some a ∧ h.pin? a = some b ∧ hd.parent = some b.scope

structure Regular (s : Store) : Prop where
  outermost : ∃ hd, s.Holds global hd
  parentless : ∀ slot hd, s.head? slot = some hd → (hd.parent = none ↔ slot = 0)
  serial_lt : ∀ slot hd, s.head? slot = some hd → hd.serial < s.created
  serial_inj : ∀ i j a b, s.head? i = some a → s.head? j = some b → a.serial = b.serial → i = j
  parent_lt : ∀ slot hd p, s.head? slot = some hd → hd.parent = some p → p.serial < hd.serial
  free : s.FreeExact
  pinned : ∀ p q, s.heap.pin? p = some q →
    ∃ hd, s.Holds q.scope hd ∧ hd.pin = some p ∧ PinFits s.heap q hd
  defined : ∀ f fn, s.heap.function? f = some fn →
    ∃ q, s.heap.pin? fn.pin = some q ∧ q.scope = fn.scope
  latest : ∀ slot hd p, s.head? slot = some hd → hd.pin = some p →
    p < s.heap.pins.size ∧ ∀ q, s.heap.pin? p = some q → q.scope.slot = slot

/-- A regular store whose counts are exact for what is held besides the bindings. -/
structure Sound (s : Store) (outer : List Ref) : Prop where
  regular : s.Regular
  balanced : s.heap.Balanced (outer ++ s.boundRefs)

/-- The same scopes, and no functions but those that were there or are new. -/
structure Steady (s s' : Store) : Prop where
  links : ∀ slot, (s'.head? slot).map (fun hd => (hd.serial, hd.parent)) =
    (s.head? slot).map fun hd => (hd.serial, hd.parent)
  created : s'.created = s.created
  detached : s'.detached = s.detached
  nextSweep : s'.nextSweep = s.nextSweep
  free : s'.free = s.free
  functions_size : s.heap.functions.size ≤ s'.heap.functions.size
  function : ∀ f fn, s'.heap.function? f = some fn → f < s.heap.functions.size →
    s.heap.function? f = some fn

variable {s s' : Store}

/-- Scopes that are there stay there, and functions do not change. -/
structure Keeps (s s' : Store) : Prop where
  holds : ∀ id hd, s.Holds id hd → ∃ hd', s'.Holds id hd' ∧ hd'.parent = hd.parent
  function : ∀ f fn fn', s.heap.function? f = some fn → s'.heap.function? f = some fn' → fn' = fn

theorem Keeps.chain {id : ScopeId} {above : List ScopeId} (hs : s.Keeps s') (h : s.Chain id above) :
    s'.Chain id above := by
  induction h with
  | global there outermost =>
    obtain ⟨hd', h', hpar⟩ := hs.holds _ _ there
    exact .global h' (hpar.trans outermost)
  | inside there around _ ih =>
    obtain ⟨hd', h', hpar⟩ := hs.holds _ _ there
    exact .inside h' (hpar.trans around) ih

theorem Keeps.standing {id : ScopeId} (hs : s.Keeps s') (h : s.Standing id) : s'.Standing id :=
  h.imp fun _ hc => hs.chain hc

namespace Steady

theorem refl (s : Store) : s.Steady s :=
  ⟨fun _ => rfl, rfl, rfl, rfl, rfl, le_refl _, fun _ _ h _ => h⟩

theorem trans {s'' : Store} (a : s.Steady s') (b : s'.Steady s'') : s.Steady s'' :=
  ⟨fun slot => (b.links slot).trans (a.links slot), b.created.trans a.created,
    b.detached.trans a.detached, b.nextSweep.trans a.nextSweep, b.free.trans a.free,
    a.functions_size.trans b.functions_size,
    fun f fn h hlt => a.function f fn (b.function f fn h (hlt.trans_le a.functions_size)) hlt⟩

theorem head {slot : Nat} {hd : Head} (hs : s.Steady s') (h : s.head? slot = some hd) :
    ∃ hd', s'.head? slot = some hd' ∧ hd'.serial = hd.serial ∧ hd'.parent = hd.parent := by
  have hl := hs.links slot
  rw [h] at hl
  obtain ⟨hd', h', he⟩ := Option.map_eq_some_iff.mp hl
  simp only [Prod.mk.injEq] at he
  exact ⟨hd', h', he.1, he.2⟩

theorem keeps (hs : s.Steady s') : s.Keeps s' := by
  refine ⟨fun id hd h => ?_, fun f fn fn' h h' => ?_⟩
  · obtain ⟨hd', h', hser, hpar⟩ := hs.head h.1
    exact ⟨hd', ⟨h', hser.trans h.2⟩, hpar⟩
  · exact Option.some.inj ((hs.function f fn' h' (Table.lt_size h)).symm.trans h)

end Steady

theorem Keeps.trans_steady {s'' : Store} (a : s.Keeps s')
    (hsize : s.heap.functions.size ≤ s'.heap.functions.size) (b : s'.Steady s'') :
    s.Keeps s'' := by
  refine ⟨fun id hd hh => ?_, fun f fn fn'' h h'' => ?_⟩
  · obtain ⟨hd', hh', hp'⟩ := a.holds id hd hh
    obtain ⟨hd'', hh'', hp''⟩ := b.keeps.holds id hd' hh'
    exact ⟨hd'', hh'', hp''.trans hp'⟩
  · exact a.function f fn fn'' h (b.function f fn'' h'' ((Table.lt_size h).trans_le hsize))

theorem head?_of_scopeAt? {slot : Nat} {sc : Scope} (h : s.scopeAt? slot = some sc) :
    s.head? slot = some sc.head := by
  simp [head?, h]

namespace Regular

theorem global_head (hr : s.Regular) : ∃ hd, s.Holds global hd ∧ hd.parent = none := by
  obtain ⟨hd, hh⟩ := hr.outermost
  exact ⟨hd, hh, (hr.parentless _ _ hh.1).mpr rfl⟩

theorem standing_global (hr : s.Regular) : s.Standing global := by
  obtain ⟨hd, hh, hp⟩ := hr.global_head
  exact ⟨_, .global hh hp⟩

/-- A scope without one around it is the global one. -/
theorem eq_global (hr : s.Regular) {id : ScopeId} {hd : Head} (hh : s.Holds id hd)
    (hp : hd.parent = none) : id = global := by
  obtain ⟨g, hg⟩ := hr.outermost
  have hslot : id.slot = 0 := (hr.parentless _ _ hh.1).mp hp
  have hserial : id.serial = 0 := by
    have h := hh.1
    rw [hslot, show s.head? 0 = some g from hg.1] at h
    obtain rfl := Option.some.inj h
    exact hh.2.symm.trans hg.2
  cases id
  simp_all [global]

/-- The scope of a pin stands, since each pin keeps the one above it. -/
theorem pin_standing (hr : s.Regular) {p : PinId} {q : Pin} (hq : s.heap.pin? p = some q) :
    s.Standing q.scope := by
  induction hn : q.scope.serial using Nat.strong_induction_on generalizing p q with
  | _ n ih =>
    obtain ⟨hd, hh, -, hfit⟩ := hr.pinned p q hq
    rcases hfit with ⟨hp, -⟩ | ⟨a, b, -, hb, hp⟩
    · rw [hr.eq_global hh hp]
      exact hr.standing_global
    · have hlt := hr.parent_lt _ _ _ hh.1 hp
      rw [hh.2, hn] at hlt
      obtain ⟨above, hc⟩ := ih _ hlt hb rfl
      exact ⟨_, .inside hh hp hc⟩

theorem function_standing (hr : s.Regular) {f : FunctionId} {fn : Function}
    (hf : s.heap.function? f = some fn) : s.Standing fn.scope := by
  obtain ⟨q, hq, he⟩ := hr.defined f fn hf
  exact he ▸ hr.pin_standing hq

/-- Along a chain the numbers fall. -/
theorem chain_serial_le (hr : s.Regular) {id : ScopeId} {chain : List ScopeId}
    (hc : s.Chain id chain) : ∀ p ∈ chain, p.serial ≤ id.serial := by
  induction hc with
  | global _ _ => simp
  | @inside id parent hd above there around _ ih =>
    intro p hp
    rcases List.mem_cons.mp hp with rfl | hp
    · exact le_refl _
    · have := hr.parent_lt _ _ _ there.1 around
      have := ih p hp
      have := there.2
      omega

theorem chain_nodup (hr : s.Regular) {id : ScopeId} {chain : List ScopeId}
    (hc : s.Chain id chain) : (chain.map ScopeId.slot).Nodup := by
  have hheads : ∀ {id : ScopeId} {chain : List ScopeId}, s.Chain id chain →
      ∀ p ∈ chain, ∃ hd, s.Holds p hd := by
    intro id chain hc
    induction hc with
    | global there _ => exact fun p hp => (List.mem_singleton.mp hp) ▸ ⟨_, there⟩
    | inside there _ _ ih =>
      intro p hp
      rcases List.mem_cons.mp hp with rfl | hp
      · exact ⟨_, there⟩
      · exact ih p hp
  induction hc with
  | global _ _ => simp
  | @inside id parent hd above there around rest ih =>
    refine List.nodup_cons.mpr ⟨fun hm => ?_, ih⟩
    obtain ⟨p, hp, hslot⟩ := List.mem_map.mp hm
    obtain ⟨hd', hh'⟩ := hheads rest p hp
    have heq : hd' = hd := by
      have h := hh'.1
      rw [hslot, there.1] at h
      exact (Option.some.inj h).symm
    have := hr.parent_lt _ _ _ there.1 around
    have := hr.chain_serial_le rest p hp
    have := hh'.2
    subst heq
    omega

/-- Other things may go from the heap, or come that are no pins or functions. -/
theorem of_heap (hr : s.Regular) {h : Heap} {outer : List Ref} (hb : h.Balanced outer)
    (hsize : s.heap.pins.size ≤ h.pins.size)
    (hpin : ∀ p q, h.pin? p = some q → s.heap.pin? p = some q)
    (hfun : ∀ f fn, h.function? f = some fn → s.heap.function? f = some fn) :
    ({ s with heap := h } : Store).Regular := by
  refine ⟨hr.outermost, hr.parentless, hr.serial_lt, hr.serial_inj, hr.parent_lt, hr.free,
    fun p q hq => ?_, fun f fn hf => ?_, fun slot hd p hh hp => ?_⟩
  · obtain ⟨hd, hh, hp, hfit⟩ := hr.pinned p q (hpin p q hq)
    refine ⟨hd, hh, hp, hfit.imp_right ?_⟩
    rintro ⟨a, b, ha, hb', hpar⟩
    have hlive : h.Live (.pin a) := by
      apply hb.live_of_inner
      refine Heap.mem_inner.mpr ⟨.pin p, Option.isSome_iff_exists.mpr ⟨q, hq⟩, ?_⟩
      simp [Heap.links, hq, Pin.refs, ha]
    obtain ⟨c, hc⟩ := Option.isSome_iff_exists.mp hlive
    have : c = b := Option.some.inj ((hpin a c hc).symm.trans hb')
    exact ⟨a, b, ha, this ▸ hc, hpar⟩
  · obtain ⟨q, hq, he⟩ := hr.defined f fn (hfun f fn hf)
    have hlive : h.Live (.pin fn.pin) := by
      apply hb.live_of_inner
      refine Heap.mem_inner.mpr ⟨.function f, Option.isSome_iff_exists.mpr ⟨fn, hf⟩, ?_⟩
      simp [Heap.links, hf]
    obtain ⟨c, hc⟩ := Option.isSome_iff_exists.mp hlive
    have : c = q := Option.some.inj ((hpin _ c hc).symm.trans hq)
    exact ⟨q, this ▸ hc, he⟩
  · obtain ⟨hlt, hslot⟩ := hr.latest slot hd p hh hp
    exact ⟨hlt.trans_le hsize, fun q hq => hslot q (hpin p q hq)⟩

/-- What is bound in the scopes does not matter. -/
theorem of_head (hr : s.Regular) (hh : ∀ slot, s'.head? slot = s.head? slot)
    (hheap : s'.heap = s.heap) (hcreated : s'.created = s.created) (hfree : s'.FreeExact) :
    s'.Regular := by
  refine ⟨?_, ?_, ?_, ?_, ?_, hfree, ?_, ?_, ?_⟩
  · simpa only [Holds, hh] using hr.outermost
  · simpa only [hh] using hr.parentless
  · simpa only [hh, hcreated] using hr.serial_lt
  · simpa only [hh] using hr.serial_inj
  · simpa only [hh] using hr.parent_lt
  · simpa only [Holds, hh, hheap] using hr.pinned
  · simpa only [hheap] using hr.defined
  · simpa only [hh, hheap] using hr.latest

end Regular

end Store

end Scriptlet
