import Scriptlet.Proofs.Store.Reclaim

/-!
# Stores under any client

A client asks a store for scopes, bindings, pins, functions and lists, gives
them back and sweeps, in any order and with any scopes and values, also ones
that are gone. As long as no scope is put among the detached ones a second
time, the free slots are the empty ones and each is free once, so that a new
scope never takes the slot of another. A pinned scope that is ended twice is
given back twice, and then two new scopes are put into one slot.
-/

set_option autoImplicit false

namespace Scriptlet.Store

variable {s s' : Store}

/-! ## Who is in the slots -/

/-- The number of the scope in a slot. -/
def serialAt? (s : Store) (slot : Nat) : Option Nat := (s.scopeAt? slot).map Scope.serial

/-- The numbers of the scopes in all slots, how many slots there are, which are free, and the
detached scopes. -/
def tenancy (s : Store) : (Nat → Option Nat) × Nat × List Nat × Array ScopeId :=
  (s.serialAt?, s.scopes.size, s.free, s.detached)

theorem serialAt?_eq_none {slot : Nat} : s.serialAt? slot = none ↔ s.scopeAt? slot = none := by
  simp [serialAt?]

theorem FreeExact.of_tenancy (h : s.FreeExact) (he : s'.tenancy = s.tenancy) : s'.FreeExact := by
  simp only [tenancy, Prod.mk.injEq] at he
  obtain ⟨hserial, hsize, hfree, -⟩ := he
  refine ⟨hfree ▸ h.1, fun slot => ?_⟩
  rw [hfree, h.2, hsize, ← serialAt?_eq_none, ← serialAt?_eq_none, hserial]

theorem tenancy_setScope {slot : Nat} {sc : Scope} (sc' : Scope) (h : s.scopeAt? slot = some sc)
    (hs : sc'.serial = sc.serial) : (s.setScope slot (some sc')).tenancy = s.tenancy := by
  have hserial : (s.setScope slot (some sc')).serialAt? = s.serialAt? := by
    funext i
    rw [serialAt?, scopeAt?_setScope]
    split_ifs with hi
    · simp [serialAt?, hi.1, h, hs]
    · rfl
  exact Prod.ext hserial (Prod.ext (size_setScope ..) rfl)

@[simp] theorem tenancy_define (s : Store) (id : ScopeId) (name : String) (v : Value) :
    (s.define id name v).tenancy = s.tenancy := by
  unfold define
  split
  · rfl
  · next scope h =>
    have hset := tenancy_setScope
      { scope with bindings := Bindings.put name v scope.bindings } h rfl
    dsimp only
    split <;> exact hset

@[simp] theorem tenancy_newPin (s : Store) (id : ScopeId) (parent : Option PinId) :
    (s.newPin id parent).2.tenancy = s.tenancy := by
  unfold newPin
  split
  · rfl
  · next scope h =>
    exact tenancy_setScope { scope with pin := some _ } h rfl

@[simp] theorem tenancy_captureFor (reach : Nat) (id : ScopeId) (s : Store) :
    (captureFor reach id s).2.tenancy = s.tenancy := by
  induction reach generalizing id s with
  | zero => exact tenancy_newPin s id none
  | succ reach ih =>
    unfold captureFor
    split
    · rfl
    · split
      · exact tenancy_newPin s id none
      · exact (tenancy_newPin ..).trans (ih ..)

/-! ## Requests -/

/-- What a client can ask for. Scopes, pins and values are named as the client likes. -/
inductive Request where
  | child (parent : ScopeId)
  | define (id : ScopeId) (name : String) (v : Value)
  | set (id : ScopeId) (name : String) (v : Value)
  | capture (id : ScopeId)
  | dropPin (pin : PinId)
  | function (id : ScopeId) (name : Option String) (params : List String) (body : Node)
      (source : Source)
  | list (items : Array Value)
  | keep (v : Value)
  | drop (v : Value)
  | release (id : ScopeId)
  | sweep

def serve (s : Store) : Request → Store
  | .child parent => (s.child parent).2
  | .define id name v => s.define id name v
  | .set id name v => s.set id name v
  | .capture id => (s.capture id).2
  | .dropPin pin => s.dropPin pin
  | .function id name params body source => (s.newFunction id name params body source).2
  | .list items => (s.newList items).2
  | .keep v => s.keep v
  | .drop v => s.drop v
  | .release id => s.release id
  | .sweep => s.sweep

def serveAll (us : List Request) (s : Store) : Store := us.foldl serve s

/-- Ends a pinned scope in a slot of which a scope is detached already. -/
def EndsAgain (s : Store) : Request → Prop
  | .release id => id.slot ∈ s.detached.toList.map ScopeId.slot ∧ (s.livePin? id).isSome
  | _ => False

/-- No scope is put among the detached ones again before a sweep. -/
def EndsOnce : List Request → Store → Prop
  | [], _ => True
  | u :: us, s => ¬ s.EndsAgain u ∧ EndsOnce us (s.serve u)

instance (s : Store) : (u : Request) → Decidable (s.EndsAgain u)
  | .release _ => inferInstanceAs (Decidable (_ ∧ _))
  | .child _ | .define .. | .set .. | .capture _ | .dropPin _ | .function .. | .list _ | .keep _
  | .drop _ | .sweep => inferInstanceAs (Decidable False)

instance decidableEndsOnce : (us : List Request) → (s : Store) → Decidable (EndsOnce us s)
  | [], _ => inferInstanceAs (Decidable True)
  | u :: us, s =>
    have := decidableEndsOnce us (s.serve u)
    inferInstanceAs (Decidable (¬ s.EndsAgain u ∧ EndsOnce us (s.serve u)))

theorem EndsOnce.append {us vs : List Request} (h : EndsOnce (us ++ vs) s) :
    EndsOnce us s ∧ EndsOnce vs (serveAll us s) := by
  induction us generalizing s with
  | nil => exact ⟨trivial, h⟩
  | cons u us ih => exact ⟨⟨h.1, (ih h.2).1⟩, (ih h.2).2⟩

/-! ## One request -/

/-- No slot is free twice or while a scope is in it, and no slot has two detached scopes. -/
structure Orderly (s : Store) : Prop where
  free : s.FreeExact
  waiting : (s.detached.toList.map ScopeId.slot).Nodup

/-- A scope stays in its slot unless the slot is free now. -/
def Leaves (s s' : Store) : Prop :=
  ∀ slot n, s.serialAt? slot = some n → s'.serialAt? slot = some n ∨ slot ∈ s'.free

theorem Orderly.of_tenancy (h : s.Orderly) (he : s'.tenancy = s.tenancy) :
    s'.Orderly ∧ s.Leaves s' := by
  have hfree := h.free.of_tenancy he
  simp only [tenancy, Prod.mk.injEq] at he
  obtain ⟨hserial, -, -, hdetached⟩ := he
  exact ⟨⟨hfree, hdetached ▸ h.waiting⟩, fun slot n hn => .inl (hserial ▸ hn)⟩

theorem Orderly.child (h : s.Orderly) (parent : ScopeId) :
    (s.child parent).2.Orderly ∧ s.Leaves (s.child parent).2 := by
  obtain ⟨hempty, hslots⟩ := scopeAt?_child h.free parent
  refine ⟨⟨child_freeExact h.free parent, child_detached s parent ▸ h.waiting⟩,
    fun slot n hn => .inl ?_⟩
  rw [serialAt?, hslots, if_neg, ← serialAt?, hn]
  rintro rfl
  simp [serialAt?, hempty] at hn

theorem free_freeAll (gone : List ScopeId) (s : Store) :
    (gone.foldl freeSlot s).free = (gone.map ScopeId.slot).reverse ++ s.free := by
  induction gone generalizing s with
  | nil => rfl
  | cons id gone ih =>
    have hone : (s.freeSlot id).free = id.slot :: s.free := rfl
    rw [List.foldl_cons, ih, hone]
    simp

theorem freeAll_freeExact {gone : List ScopeId} (hn : (gone.map ScopeId.slot).Nodup)
    (hthere : ∀ id ∈ gone, ∃ sc, s.scope? id = some sc) (hf : s.FreeExact) :
    (gone.foldl freeSlot s).FreeExact ∧
      ∀ i, i ∉ gone.map ScopeId.slot → (gone.foldl freeSlot s).scopeAt? i = s.scopeAt? i := by
  induction gone generalizing s with
  | nil => exact ⟨hf, fun _ _ => rfl⟩
  | cons id gone ih =>
    obtain ⟨hid, hn⟩ := List.nodup_cons.mp hn
    obtain ⟨sc, hsc⟩ := hthere id (by simp)
    have hat := scopeAt?_freeSlot hsc
    have hstill (d : ScopeId) (hd : d ∈ gone) : ∃ sd, (s.freeSlot id).scope? d = some sd := by
      have hne : d.slot ≠ id.slot := fun he => hid (he ▸ List.mem_map_of_mem hd)
      obtain ⟨sd, hsd⟩ := hthere d (by simp [hd])
      exact ⟨sd, by rw [scope?_eq, hat, if_neg hne]; exact hsd⟩
    obtain ⟨hfree, hrest⟩ := ih hn hstill (freeSlot_freeExact hsc hf)
    refine ⟨hfree, fun i hi => ?_⟩
    rw [List.map_cons, List.mem_cons, not_or] at hi
    rw [List.foldl_cons, hrest i hi.2, hat, if_neg hi.1]

/-- A sweep splits the detached scopes that are still there, whatever its marks say. -/
theorem sweep_parts (s : Store) : ∃ kept gone : List ScopeId,
    kept.Sublist (s.detached.toList.filter s.occupied) ∧
    gone.Sublist (s.detached.toList.filter s.occupied) ∧
    s.sweep = gone.foldl freeSlot { s with
      detached := kept.toArray, nextSweep := max (2 * kept.length) leastSweep } := by
  have hids : (Sweep.field s).ids.toList = s.detached.toList.filter s.occupied := by
    simp [Sweep.field]
  exact ⟨_, _, hids ▸ Sweep.zip_filter_sublist .., hids ▸ Sweep.zip_filter_sublist .., rfl⟩

theorem Orderly.sweep (h : s.Orderly) : s.sweep.Orderly ∧ s.Leaves s.sweep := by
  obtain ⟨kept, gone, hkept, hgone, he⟩ := sweep_parts s
  have hslots {part : List ScopeId} (hp : part.Sublist (s.detached.toList.filter s.occupied)) :
      (part.map ScopeId.slot).Nodup :=
    h.waiting.sublist ((hp.trans List.filter_sublist).map _)
  have hthere (id : ScopeId) (hid : id ∈ gone) : ∃ sc, s.scope? id = some sc :=
    Option.isSome_iff_exists.mp (List.mem_filter.mp (hgone.subset hid)).2
  rw [he]
  generalize hs₀ : ({ s with
    detached := kept.toArray, nextSweep := max (2 * kept.length) leastSweep } : Store) = s₀
  have hfree₀ : s₀.FreeExact := hs₀ ▸ h.free
  obtain ⟨hfree, hrest⟩ := freeAll_freeExact (hslots hgone)
    (fun id hid => hs₀ ▸ hthere id hid) hfree₀
  have hdetached : (gone.foldl freeSlot s₀).detached.toList = kept := by
    rw [freeAll_detached, ← hs₀]
  refine ⟨⟨hfree, hdetached ▸ hslots hkept⟩, fun slot n hn => ?_⟩
  by_cases hm : slot ∈ gone.map ScopeId.slot
  · right
    rw [free_freeAll]
    exact List.mem_append_left _ (List.mem_reverse.mpr hm)
  · left
    rw [serialAt?, hrest slot hm, ← hs₀]
    exact hn

theorem Orderly.release (h : s.Orderly) {id : ScopeId} (hu : ¬ s.EndsAgain (.release id)) :
    (s.release id).Orderly ∧ s.Leaves (s.release id) := by
  have hsame : s.Orderly ∧ s.Leaves s := ⟨h, fun _ _ hn => .inl hn⟩
  unfold Store.release
  split
  · exact hsame
  · split
    · exact hsame
    · next sc hsc =>
      split
      · refine ⟨⟨freeSlot_freeExact hsc h.free, h.waiting⟩, fun slot n hn => ?_⟩
        by_cases hslot : slot = id.slot
        · exact .inr (by rw [hslot]; exact List.mem_cons_self ..)
        · exact .inl (by rw [serialAt?, scopeAt?_freeSlot hsc, if_neg hslot]; exact hn)
      · next pin hpin =>
        have hnew : id.slot ∉ s.detached.toList.map ScopeId.slot := fun hm =>
          hu ⟨hm, by simp [hpin]⟩
        have hpushed : Orderly { s with detached := s.detached.push id } := by
          refine ⟨h.free, ?_⟩
          simp only [Array.toList_push, List.map_append, List.map_cons, List.map_nil]
          exact List.nodup_append.mpr ⟨h.waiting, List.nodup_singleton _,
            fun a ha b hb he => hnew (List.mem_singleton.mp hb ▸ he ▸ ha)⟩
        dsimp only
        split
        · exact hpushed.sweep
        · exact ⟨hpushed, fun _ _ hn => .inl hn⟩

theorem Orderly.serve (h : s.Orderly) {u : Request} (hu : ¬ s.EndsAgain u) :
    (s.serve u).Orderly ∧ s.Leaves (s.serve u) := by
  cases u with
  | child parent => exact h.child parent
  | release id => exact h.release hu
  | sweep => exact h.sweep
  | define id name v => exact h.of_tenancy (tenancy_define ..)
  | set id name v => exact h.of_tenancy (tenancy_define ..)
  | capture id => exact h.of_tenancy (tenancy_captureFor ..)
  | function id name params body source =>
    exact h.of_tenancy (tenancy_captureFor (s.scopes.size + 1) id s)
  | _ => exact h.of_tenancy rfl

/-! ## All requests -/

theorem Orderly.serveAll {us : List Request} (h : s.Orderly) (hu : EndsOnce us s) :
    (serveAll us s).Orderly := by
  induction us generalizing s with
  | nil => exact h
  | cons u us ih => exact ih (h.serve hu.1).1 hu.2

/-- A scope is in its slot until the slot is free. -/
theorem Orderly.lasting {us : List Request} (h : s.Orderly) (hu : EndsOnce us s) {slot n : Nat}
    (hn : s.serialAt? slot = some n) : (Store.serveAll us s).serialAt? slot = some n ∨
      ∃ first, first <+: us ∧ slot ∈ (Store.serveAll first s).free := by
  induction us generalizing s with
  | nil => exact .inl hn
  | cons u us ih =>
    obtain ⟨hone, hleaves⟩ := h.serve hu.1
    rcases hleaves slot n hn with hn | hfree
    · rcases ih hone hu.2 hn with hlast | ⟨first, hfirst, hmem⟩
      · exact .inl hlast
      · exact .inr ⟨u :: first, List.cons_prefix_cons.mpr ⟨rfl, hfirst⟩, hmem⟩
    · exact .inr ⟨[u], ⟨us, rfl⟩, hfree⟩

theorem orderly_bare : bare.Orderly := by
  refine ⟨⟨List.nodup_nil, fun slot => ?_⟩, List.nodup_nil⟩
  cases slot <;> simp [bare, scopeAt?]

theorem orderly_seeded : seeded.Orderly := by
  unfold seeded
  exact List.foldlRecOn _ _ orderly_bare fun s hs b _ => (hs.of_tenancy (tenancy_define ..)).1

/-- A new scope is put into an empty slot, and all other slots stay as they are. -/
structure Intact (s : Store) : Prop where
  free : s.FreeExact
  fresh : ∀ parent, s.scope? (s.child parent).1 = none
  apart : ∀ parent id sc, s.scope? id = some sc → (s.child parent).2.scope? id = some sc

theorem Orderly.intact (h : s.Orderly) : s.Intact := by
  refine ⟨h.free, fun parent => (scopeAt?_child h.free parent).1, fun parent id sc hsc => ?_⟩
  obtain ⟨hempty, hslots⟩ := scopeAt?_child h.free parent
  rw [scope?_eq] at hsc ⊢
  rw [hslots, if_neg, hsc]
  intro he
  rw [he, hempty] at hsc
  cases hsc

/-- Whatever a client asks for, if it puts no scope among the detached ones twice, no slot is free
twice or while it is in use, a new scope takes the slot of no other, and of two scopes that were
put into one slot the first had been given back before the second was made. -/
theorem slots_apart (seeded : Bool) {us : List Request}
    (hu : EndsOnce us (if seeded then Store.seeded else .bare)) :
    (∀ first, first <+: us → (serveAll first (if seeded then Store.seeded else .bare)).Intact) ∧
    ∀ first p between q rest, us = first ++ .child p :: (between ++ .child q :: rest) →
      let s := serveAll first (if seeded then Store.seeded else .bare)
      ((serveAll between (s.child p).2).child q).1.slot = (s.child p).1.slot →
      ∃ part, part <+: between ∧ (s.child p).1.slot ∈ (serveAll part (s.child p).2).free := by
  have hstart : (if seeded then Store.seeded else .bare).Orderly := by
    cases seeded
    · exact orderly_bare
    · exact orderly_seeded
  generalize (if seeded then Store.seeded else Store.bare) = start at *
  refine ⟨fun first hfirst => ?_, fun first p between q rest he => ?_⟩
  · obtain ⟨rest, rfl⟩ := hfirst
    exact (hstart.serveAll hu.append.1).intact
  · intro s hslot
    obtain ⟨hfirst, hrest⟩ := (he ▸ hu).append
    have hs : s.Orderly := hstart.serveAll hfirst
    obtain ⟨hchild, -⟩ := hs.child p
    have hbetween : EndsOnce between (s.child p).2 := (EndsOnce.append hrest.2).1
    have hthere : (s.child p).2.serialAt? (s.child p).1.slot = some s.created := by
      simp [serialAt?, (scopeAt?_child hs.free p).2]
    rcases hchild.lasting hbetween hthere with hlast | hfree
    · have hfresh := (hchild.serveAll hbetween).intact.fresh q
      rw [scope?_eq, hslot, ← serialAt?_eq_none, hlast] at hfresh
      cases hfresh
    · exact hfree

/-- A scope is pinned and ended, and ended again when its pin is gone. -/
def endedAgain : List Request :=
  [.capture ⟨1, 1⟩, .release ⟨1, 1⟩, .dropPin 1, .release ⟨1, 1⟩]

/-- Then its slot is used again while the scope is still among the detached ones. -/
def reusing : List Request := .child global :: (endedAgain ++ [.child global, .sweep])

theorem slots_apart_reusing : EndsOnce reusing bare ∧ (serveAll reusing bare).Intact ∧
    ∃ part, part <+: endedAgain ∧ 1 ∈ (serveAll part (bare.child global).2).free := by
  have honce : EndsOnce reusing bare := by decide +kernel
  obtain ⟨hintact, hapart⟩ := slots_apart false honce
  exact ⟨honce, hintact reusing (List.prefix_refl _),
    hapart [] global endedAgain global [.sweep] rfl (by decide +kernel)⟩

/-- A pinned scope is ended twice, unpinned, and swept. -/
def endedTwice : List Request :=
  [.child global, .capture ⟨1, 1⟩, .release ⟨1, 1⟩, .release ⟨1, 1⟩, .dropPin 1, .sweep]

/-- Then its slot is free twice, and the second of two new scopes takes the place of the first. -/
theorem endedTwice_slot_free_twice : (serveAll endedTwice bare).free = [1, 1] ∧
    ∃ s, s = serveAll (endedTwice ++ [.child global, .define ⟨1, 2⟩ "x" (.number (.int 1))]) bare ∧
      s.free = [1] ∧ (s.get? ⟨1, 2⟩ "x").isSome ∧
      (s.child global).1.slot = 1 ∧ (s.child global).2.get? ⟨1, 2⟩ "x" = none := by
  refine ⟨by decide +kernel, _, rfl, ?_, ?_, ?_, ?_⟩ <;> decide +kernel

end Scriptlet.Store
