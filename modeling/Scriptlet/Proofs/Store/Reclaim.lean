import Scriptlet.Proofs.Store.Census
import Scriptlet.Proofs.Store.Freeing
import Scriptlet.Proofs.Store.Marking

/-!
# What a sweep does

A sweep gives back the detached scopes that are not needed, and those only.
No pin of such a scope is left afterwards: what holds one is either gone, or
belongs to a scope that is given back as well.
-/

set_option autoImplicit false

namespace Scriptlet

namespace Sweep

theorem mem_functionsOf {b : Bindings} {f : FunctionId} :
    f ∈ functionsOf b ↔ Value.function f ∈ Bindings.values b := by
  rw [← List.count_pos_iff, Store.count_functionsOf, List.count_pos_iff, Value.mem_refs]
  constructor
  · rintro ⟨v, hv, hr⟩
    cases v <;> simp_all [Value.ref?]
  · exact fun h => ⟨_, h, rfl⟩

theorem mem_zip_filter {α : Type} {l : List α} {b : List Bool} {p : α × Bool → Bool} {a : α} :
    a ∈ ((l.zip b).filter p).map Prod.fst ↔
      ∃ (i : Nat) (x : Bool), l[i]? = some a ∧ b[i]? = some x ∧ p (a, x) = true := by
  simp only [List.mem_map, List.mem_filter, Prod.exists]
  constructor
  · rintro ⟨c, x, ⟨hm, hp⟩, rfl⟩
    obtain ⟨i, hi⟩ := List.mem_iff_getElem?.mp hm
    obtain ⟨hc, hx⟩ := List.getElem?_zip_eq_some.mp hi
    exact ⟨i, x, hc, hx, hp⟩
  · rintro ⟨i, x, hc, hx, hp⟩
    exact ⟨a, x, ⟨List.mem_iff_getElem?.mpr ⟨i, List.getElem?_zip_eq_some.mpr ⟨hc, hx⟩⟩, hp⟩, rfl⟩

theorem zip_filter_sublist {α : Type} (l : List α) (b : List Bool) (p : α × Bool → Bool) :
    (((l.zip b).filter p).map Prod.fst).Sublist l := by
  have hzip : ((l.zip b).map Prod.fst).Sublist l := by
    induction l generalizing b with
    | nil => simp
    | cons a l ih => cases b <;> simp [ih]
  exact ((List.filter_sublist (p := p)).map Prod.fst).trans hzip

end Sweep

namespace Store

variable {s s' : Store} {outer : List Ref} {calls : List Call}

/-! ## What is marked is needed -/

theorem Sweepable.isDetached_iff (hs : s.Sweepable outer calls) {id : ScopeId} {hd : Head}
    (hh : s.Holds id hd) : s.IsDetached id.slot ↔ id ∈ s.detached.toList := by
  refine ⟨fun ⟨d, hd', he⟩ => ?_, fun h => ⟨id, h, rfl⟩⟩
  obtain ⟨_, hh'⟩ := hs.tiled.detached d hd'
  exact hh'.eq hh he ▸ hd'

/-- Around a scope that is not detached is the scope of a root. -/
theorem Sweepable.around_root (hs : s.Sweepable outer calls) {id parent : ScopeId} {hd : Head}
    (hh : s.Holds id hd) (hn : id ∉ s.detached.toList) (hp : hd.parent = some parent) :
    ∃ f fn, s.Root outer f ∧ s.heap.function? f = some fn ∧ fn.scope = parent := by
  rcases hs.tiled.covered _ _ hh.1 with h0 | hm
  · rw [(hs.sound.regular.parentless _ _ hh.1).mpr h0] at hp
    simp at hp
  · obtain ⟨id', hid', hslot⟩ := List.mem_map.mp hm
    rcases List.mem_append.mp hid' with hact | hdet
    · obtain ⟨c, hc, rfl⟩ := List.mem_map.mp hact
      obtain ⟨f, fn, hdc, hval, hfn, hhc, hparc⟩ := hs.called c hc
      have hheld : Ref.function f ∈ outer := hs.held c hc _ (by simp [hval, Value.ref?])
      have : hdc = hd := Option.some.inj (hhc.1.symm.trans (hslot ▸ hh.1))
      rw [this, hp] at hparc
      exact ⟨f, fn, .inl hheld, hfn, (Option.some.inj hparc).symm⟩
    · exact absurd ((hs.isDetached_iff hh).mp ⟨id', hdet, hslot⟩) hn

theorem Sweepable.mem_successors (hs : s.Sweepable outer calls) {i j : Nat} {id : ScopeId}
    (hi : s.detached[i]? = some id) {sc : Scope} (hsc : s.scope? id = some sc) :
    j ∈ Sweep.successors s (Sweep.field s) i ↔
      (∃ parent, sc.parent = some parent ∧ (Sweep.field s).place? parent.slot = some j) ∨
      ∃ f fn, Value.function f ∈ Bindings.values sc.bindings ∧ s.heap.function? f = some fn ∧
        (Sweep.field s).place? fn.scope.slot = some j := by
  simp only [Sweep.successors, hs.field_ids, hi, Option.bind_some, hsc, List.mem_append,
    Option.mem_toList, Option.bind_eq_some_iff, List.mem_filterMap, Sweep.mem_functionsOf]
  refine or_congr_right ⟨?_, ?_⟩
  · rintro ⟨f, hf, fn, hfn, hj⟩
    exact ⟨f, fn, hf, hfn, hj⟩
  · rintro ⟨f, fn, hf, hfn, hj⟩
    exact ⟨f, hf, fn, hfn, hj⟩

theorem Sweepable.place?_lt (hs : s.Sweepable outer calls) {slot i : Nat}
    (h : (Sweep.field s).place? slot = some i) : i < s.detached.size := by
  obtain ⟨id, hid, -⟩ := hs.place?_iff.mp h
  exact (Array.getElem?_eq_some_iff.mp hid).1

theorem Sweepable.successors_lt (hs : s.Sweepable outer calls) (i j : Nat)
    (hj : j ∈ Sweep.successors s (Sweep.field s) i) : j < s.detached.size := by
  cases hi : s.detached[i]? with
  | none => simp [Sweep.successors, hs.field_ids, hi] at hj
  | some id =>
    obtain ⟨hd, hh⟩ := hs.holds_detached hi
    obtain ⟨sc, hsc, -⟩ := Option.map_eq_some_iff.mp hh.1
    rcases (hs.mem_successors hi hsc).mp hj with ⟨_, -, h⟩ | ⟨_, _, -, -, h⟩
    · exact hs.place?_lt h
    · exact hs.place?_lt h

/-- The places that marking starts from. -/
def rootPlaces (s : Store) : List Nat :=
  (List.range s.detached.size).filter fun i => 0 < (Sweep.outside s (Sweep.field s)).getD i 0

theorem Sweepable.mem_rootPlaces (hs : s.Sweepable outer calls) {i : Nat} {id : ScopeId}
    (hi : s.detached[i]? = some id) : i ∈ s.rootPlaces ↔
      ∃ f fn, s.Root outer f ∧ s.heap.function? f = some fn ∧ fn.scope = id := by
  rw [← hs.outside_pos_iff hi]
  simp [rootPlaces, (Array.getElem?_eq_some_iff.mp hi).1]

theorem Sweepable.needed_of_path (hs : s.Sweepable outer calls) {i : Nat}
    (hp : Sweep.Path (Sweep.successors s (Sweep.field s)) (· ∈ s.rootPlaces) i) {id : ScopeId}
    (hi : s.detached[i]? = some id) : s.Needed (s.Root outer) id := by
  induction hp generalizing id with
  | root hr =>
    obtain ⟨f, fn, hroot, hfn, rfl⟩ := (hs.mem_rootPlaces hi).mp hr
    exact .root hroot hfn
  | @step i j hpi hj ih =>
    cases hi' : s.detached[i]? with
    | none => simp [Sweep.successors, hs.field_ids, hi'] at hj
    | some d =>
      obtain ⟨hd, hh⟩ := hs.holds_detached hi'
      obtain ⟨sc, hsc, -⟩ := Option.map_eq_some_iff.mp hh.1
      -- The slot that a step leads to has the very scope that was meant, since that one stands.
      have hplace {d : ScopeId} (hd : s.Needed (s.Root outer) d)
          (hj : (Sweep.field s).place? d.slot = some j) : d = id := by
        obtain ⟨_, hh⟩ := (hs.sound.needed_standing hd).holds
        exact Option.some.inj (((hs.place?_holds hh).mp hj).symm.trans hi)
      rcases (hs.mem_successors hi' hsc).mp hj with ⟨parent, hpar, hj⟩ | ⟨f, fn, hf, hfn, hj⟩
      · have hn := Needed.around (ih hi') hsc hpar
        exact hplace hn hj ▸ hn
      · have hn := Needed.bound (ih hi') hsc hf hfn
        exact hplace hn hj ▸ hn

theorem Sweepable.path_of_needed (hs : s.Sweepable outer calls) {id : ScopeId}
    (hn : s.Needed (s.Root outer) id) {i : Nat} (hi : s.detached[i]? = some id) :
    Sweep.Path (Sweep.successors s (Sweep.field s)) (· ∈ s.rootPlaces) i := by
  induction hn generalizing i with
  | root hr hf => exact .root ((hs.mem_rootPlaces hi).mpr ⟨_, _, hr, hf, rfl⟩)
  | @around d parent sc hn hsc hp ih =>
    obtain ⟨hd, hh⟩ := (hs.sound.needed_standing hn).holds
    have hhead : hd = sc.head := Option.some.inj (hh.1.symm.trans (head?_of_scopeAt? hsc))
    by_cases hdet : d ∈ s.detached.toList
    · obtain ⟨k, hk⟩ := List.mem_iff_getElem?.mp hdet
      have hk' : s.detached[k]? = some d := by simpa using hk
      exact .step (ih hk') ((hs.mem_successors hk' hsc).mpr
        (.inl ⟨parent, hp, hs.place?_iff.mpr ⟨_, hi, rfl⟩⟩))
    · exact .root ((hs.mem_rootPlaces hi).mpr (hs.around_root hh hdet (by rw [hhead]; exact hp)))
  | @bound d sc f fn hn hsc hb hf ih =>
    obtain ⟨hd, hh⟩ := (hs.sound.needed_standing hn).holds
    by_cases hdet : d ∈ s.detached.toList
    · obtain ⟨k, hk⟩ := List.mem_iff_getElem?.mp hdet
      have hk' : s.detached[k]? = some d := by simpa using hk
      exact .step (ih hk') ((hs.mem_successors hk' hsc).mpr
        (.inr ⟨f, fn, hb, hf, hs.place?_iff.mpr ⟨_, hi, rfl⟩⟩))
    · have hroot : s.Root outer f :=
        .inr (.inr ⟨d.slot, sc, hsc, mt (hs.isDetached_iff hh).mp hdet, hb⟩)
      exact .root ((hs.mem_rootPlaces hi).mpr ⟨f, fn, hroot, hf, rfl⟩)

theorem Sweepable.reached_eq (hs : s.Sweepable outer calls) :
    Sweep.reached s (Sweep.field s) = Sweep.spread (Sweep.successors s (Sweep.field s))
      s.detached.size
      (s.rootPlaces.foldl Sweep.mark (Array.replicate s.detached.size false, [])).2
      (s.rootPlaces.foldl Sweep.mark (Array.replicate s.detached.size false, [])).1 := by
  rw [rootPlaces, ← hs.field_ids]
  rfl

theorem Sweepable.reached_iff (hs : s.Sweepable outer calls) {i : Nat} {id : ScopeId}
    (hi : s.detached[i]? = some id) :
    (Sweep.reached s (Sweep.field s))[i]? = some true ↔ s.Needed (s.Root outer) id := by
  have hlt (j : Nat) (hj : j ∈ s.rootPlaces) : j < s.detached.size :=
    List.mem_range.mp (List.mem_filter.mp hj).1
  have hm := Sweep.marked_spread_iff hs.successors_lt hlt i
  rw [hs.reached_eq]
  exact hm.trans ⟨fun hp => hs.needed_of_path hp hi, fun hn => hs.path_of_needed hn hi⟩

theorem Sweepable.reached_size (hs : s.Sweepable outer calls) :
    (Sweep.reached s (Sweep.field s)).size = s.detached.size := by
  rw [hs.reached_eq, Sweep.size_spread, (Sweep.mark_foldl_spec _ _ _).1, Array.size_replicate]

/-! ## What stays and what goes -/

/-- The detached scopes that marking has decided on in one way. -/
def decided (s : Store) (b : Bool) : List ScopeId :=
  ((s.detached.toList.zip (Sweep.reached s (Sweep.field s)).toList).filter (·.2 == b)).map Prod.fst

theorem Sweepable.sweep_eq (hs : s.Sweepable outer calls) :
    s.sweep = (s.decided false).foldl freeSlot { s with
      detached := (s.decided true).toArray,
      nextSweep := max (2 * (s.decided true).length) leastSweep } := by
  simp [Store.sweep, decided, hs.field_ids]

theorem decided_sublist (s : Store) (b : Bool) :
    (s.decided b).Sublist s.detached.toList :=
  Sweep.zip_filter_sublist ..

theorem Sweepable.mem_decided (hs : s.Sweepable outer calls) {b : Bool} {id : ScopeId} :
    id ∈ s.decided b ↔ id ∈ s.detached.toList ∧ (s.Needed (s.Root outer) id ↔ b = true) := by
  rw [decided, Sweep.mem_zip_filter, List.mem_iff_getElem?]
  simp only [Array.getElem?_toList, beq_iff_eq]
  constructor
  · rintro ⟨i, x, hi, hx, rfl⟩
    refine ⟨⟨i, hi⟩, ?_⟩
    rw [← hs.reached_iff hi, hx, Option.some.injEq]
  · rintro ⟨⟨i, hi⟩, hn⟩
    have hlt : i < (Sweep.reached s (Sweep.field s)).size := by
      rw [hs.reached_size]
      exact (Array.getElem?_eq_some_iff.mp hi).1
    refine ⟨i, _, hi, Array.getElem?_eq_getElem hlt, ?_⟩
    rw [← hs.reached_iff hi, Array.getElem?_eq_getElem hlt, Option.some.injEq] at hn
    exact Bool.eq_iff_iff.mpr hn

/-- What is left after a sweep. -/
structure Swept (s : Store) (outer : List Ref) (s' : Store) : Prop where
  sound : s'.Sound outer
  detached : ∀ id, id ∈ s'.detached.toList ↔
    id ∈ s.detached.toList ∧ s.Needed (s.Root outer) id
  sublist : s'.detached.toList.Sublist s.detached.toList
  scopeAt? : ∀ i sc, s'.scopeAt? i = some sc ↔ s.scopeAt? i = some sc ∧
    ∀ id ∈ s.detached.toList, id.slot = i → s.Needed (s.Root outer) id
  shrinks : s.heap.Shrinks s'.heap
  created : s'.created = s.created

/-- No pin is left of a scope that a sweep gives back. -/
theorem Sweepable.unpinned (hs : s.Sweepable outer calls) {s' : Store}
    (he : s.Emptied ((s.decided false).map ScopeId.slot) s')
    (hb : s'.heap.Balanced (outer ++ s'.boundRefs)) {p : PinId} {q : Pin}
    (hq : s'.heap.pin? p = some q) : q.scope ∉ s.decided false := by
  have hr := hs.sound.regular
  have hbound {r : Ref} (hm : r ∈ s'.boundRefs) : ∃ slot sc v, s.scopeAt? slot = some sc ∧
      slot ∉ (s.decided false).map ScopeId.slot ∧ v ∈ Bindings.values sc.bindings ∧
      v.ref? = some r := by
    obtain ⟨slot, sc, v, hsc, hv, hvr⟩ := mem_boundRefs.mp hm
    rw [he.scopeAt?] at hsc
    split at hsc
    · simp at hsc
    · exact ⟨slot, sc, v, hsc, ‹_›, hv, hvr⟩
  -- The scope of a function that is left is needed or not detached at all.
  have hfunction {f : FunctionId} {fn : Function} (hf : s'.heap.function? f = some fn) :
      fn.scope ∉ s.decided false := by
    intro hgone
    have hn : ¬ s.Needed (s.Root outer) fn.scope := by simpa using (hs.mem_decided.mp hgone).2
    have hfn := he.function hf
    rcases hb.mem_of_live (r := .function f) (Option.isSome_iff_exists.mpr ⟨fn, hf⟩) with hm | hm
    · rcases List.mem_append.mp hm with hm | hm
      · exact hn (.root (.inl hm) hfn)
      · obtain ⟨slot, sc, v, hsc, hslot, hv, hvr⟩ := hbound hm
        have hv : Value.function f ∈ Bindings.values sc.bindings := by
          cases v <;> simp_all [Value.ref?]
        by_cases hdet : s.IsDetached slot
        · obtain ⟨d, hd, rfl⟩ := hdet
          have hneed : s.Needed (s.Root outer) d := by
            by_contra hc
            exact hslot (List.mem_map_of_mem (hs.mem_decided.mpr ⟨hd, by simpa using hc⟩))
          exact hn (.bound hneed hsc hv hfn)
        · exact hn (.root (.inr (.inr ⟨slot, sc, hsc, hdet, hv⟩)) hfn)
    · obtain ⟨t, ht, hmt⟩ := Heap.mem_inner.mp hm
      cases t with
      | list id =>
        obtain ⟨xs, hx⟩ := Option.isSome_iff_exists.mp ht
        obtain ⟨v, hv, hvr⟩ := Value.mem_refs.mp hmt
        have hv : Value.function f ∈ xs.toList := by
          cases v <;> simp_all [Value.ref?, Heap.items]
        exact hn (.root (.inr (.inl ⟨id, xs, he.shrinks.list _ _ hx, hv⟩)) hfn)
      | function g =>
        obtain ⟨_, hg⟩ := Option.isSome_iff_exists.mp ht
        simp [Heap.links, hg] at hmt
      | pin k =>
        obtain ⟨_, hk⟩ := Option.isSome_iff_exists.mp ht
        simp [Heap.links, hk, Pin.refs] at hmt
  -- A pin is held by a function or by a pin of a newer scope.
  induction hn : s.created - q.scope.serial using Nat.strong_induction_on generalizing p q with
  | _ n ih =>
    intro hgone
    have hlive : s'.heap.Live (.pin p) := Option.isSome_iff_exists.mpr ⟨q, hq⟩
    have hinner : Ref.pin p ∈ s'.heap.inner := by
      refine (hb.mem_of_live hlive).resolve_left fun hm => ?_
      rcases List.mem_append.mp hm with hm | hm
      · exact hs.pinless p hm
      · obtain ⟨_, _, v, -, -, -, hvr⟩ := hbound hm
        cases v <;> simp [Value.ref?] at hvr
    obtain ⟨t, ht, hmt⟩ := Heap.mem_inner.mp hinner
    cases t with
    | list id => exact absurd hmt (Value.pin_not_mem_refs _ p)
    | function f =>
      obtain ⟨fn, hf⟩ := Option.isSome_iff_exists.mp ht
      have hpin : p = fn.pin := by simpa [Heap.links, hf] using hmt
      obtain ⟨k, hk, hks⟩ := hr.defined f fn (he.function hf)
      have hkq : k = q := by
        rw [← hpin] at hk
        exact Option.some.inj (hk.symm.trans (he.shrinks.pin p q hq))
      exact hfunction hf (hks ▸ hkq ▸ hgone)
    | pin k =>
      obtain ⟨kn, hk⟩ := Option.isSome_iff_exists.mp ht
      have hup : kn.parent = some p := by simpa [Heap.links, hk, Pin.refs] using hmt
      obtain ⟨hd, hh, -, hfit⟩ := hr.pinned k kn (he.shrinks.pin k kn hk)
      rcases hfit with ⟨-, hnone⟩ | ⟨a, b, ha, hb', hpar⟩
      · simp [hup] at hnone
      have hap : a = p := Option.some.inj (ha.symm.trans hup)
      have hbq : b = q := by
        rw [hap] at hb'
        exact Option.some.inj (hb'.symm.trans (he.shrinks.pin p q hq))
      rw [hbq] at hpar
      have hnq : ¬ s.Needed (s.Root outer) q.scope := by simpa using (hs.mem_decided.mp hgone).2
      obtain ⟨sc, hsc, rfl⟩ := Option.map_eq_some_iff.mp hh.1
      by_cases hdet : kn.scope ∈ s.detached.toList
      · by_cases hneed : s.Needed (s.Root outer) kn.scope
        · exact hnq (.around hneed hsc hpar)
        · have hser := hr.parent_lt _ _ _ hh.1 hpar
          have hlt := hr.serial_lt _ _ hh.1
          have hks := hh.2
          exact ih _ (by omega) hk rfl (hs.mem_decided.mpr ⟨hdet, by simpa using hneed⟩)
      · obtain ⟨f, fn, hroot, hf, he'⟩ := hs.around_root hh hdet hpar
        exact hnq (he' ▸ .root hroot hf)

theorem Sweepable.swept (hs : s.Sweepable outer calls) : s.Swept outer s.sweep := by
  have hr := hs.sound.regular
  have hgone (id : ScopeId) (h : id ∈ s.decided false) : ∃ hd, s.Holds id hd :=
    hs.tiled.detached id (hs.mem_decided.mp h).1
  have hnodup : ((s.decided false).map ScopeId.slot).Nodup :=
    hs.nodup_slots.sublist ((s.decided_sublist false).map _)
  have hspec := freeAll_spec (s := { s with
      detached := (s.decided true).toArray,
      nextSweep := max (2 * (s.decided true).length) leastSweep }) hnodup
    (fun id h => by
      obtain ⟨hd, hh⟩ := hgone id h
      obtain ⟨sc, hsc, -⟩ := Option.map_eq_some_iff.mp hh.1
      exact ⟨sc, hsc⟩) hs.sound.balanced
  rw [← hs.sweep_eq] at hspec
  obtain ⟨he', hb⟩ := hspec
  have he : s.Emptied ((s.decided false).map ScopeId.slot) s.sweep :=
    ⟨he'.scopeAt?, he'.shrinks, he'.free, he'.created⟩
  have hdetached : s.sweep.detached.toList = s.decided true := by
    rw [hs.sweep_eq, freeAll_detached]
  have hslots (i : Nat) : i ∉ (s.decided false).map ScopeId.slot ↔
      ∀ id ∈ s.detached.toList, id.slot = i → s.Needed (s.Root outer) id := by
    simp only [List.mem_map, not_exists, not_and, hs.mem_decided]
    refine ⟨fun h id hid hi => ?_, fun h id hid hi => ?_⟩
    · by_contra hn
      exact h id ⟨hid, by simpa using hn⟩ hi
    · simp [h id hid.1 hi] at hid
  refine ⟨hs.sound.emptied he hb (fun h0 => ?_) fun p q hq hm => ?_, fun id => ?_, ?_,
    fun i sc => ?_, he.shrinks, he.created⟩
  · have := (List.nodup_cons.mp hs.tiled.nodup).1
    rw [List.map_append] at this
    exact this (List.mem_append_right _ (((s.decided_sublist false).map _).subset h0))
  · obtain ⟨d, hd, hslot⟩ := List.mem_map.mp hm
    obtain ⟨_, hh⟩ := hgone d hd
    obtain ⟨_, hh', -⟩ := hr.pinned p q (he.shrinks.pin p q hq)
    exact hs.unpinned he hb hq (hh.eq hh' hslot ▸ hd)
  · rw [hdetached, hs.mem_decided]
    simp
  · rw [hdetached]
    exact s.decided_sublist true
  · rw [he.scopeAt?, ← hslots]
    by_cases hi : i ∈ (s.decided false).map ScopeId.slot <;> simp [hi]

theorem Swept.holds_iff (h : s.Swept outer s') {id : ScopeId} {hd : Head} :
    s'.Holds id hd ↔ s.Holds id hd ∧
      ∀ d ∈ s.detached.toList, d.slot = id.slot → s.Needed (s.Root outer) d := by
  simp only [Holds, Store.head?, Option.map_eq_some_iff, h.scopeAt?]
  constructor
  · rintro ⟨⟨sc, ⟨hsc, hn⟩, rfl⟩, hser⟩
    exact ⟨⟨⟨sc, hsc, rfl⟩, hser⟩, hn⟩
  · rintro ⟨⟨⟨sc, hsc, rfl⟩, hser⟩, hn⟩
    exact ⟨⟨sc, ⟨hsc, hn⟩, rfl⟩, hser⟩

/-- The active calls do not notice a sweep. -/
theorem Swept.sweepable (h : s.Swept outer s') (hs : s.Sweepable outer calls) :
    s'.Sweepable outer calls := by
  have hnodup := List.nodup_cons.mp hs.tiled.nodup
  refine ⟨h.sound, hs.pinless, fun c hc => ?_, hs.held, ⟨fun id hid => ?_, ?_, ?_⟩⟩
  · obtain ⟨f, fn, hd, hval, hfn, hh, hp⟩ := hs.called c hc
    obtain ⟨fn', hfn'⟩ := Option.isSome_iff_exists.mp
      (h.sound.live_outer (hs.held c hc (.function f) (by simp [hval, Value.ref?])))
    obtain rfl : fn' = fn := Option.some.inj ((h.shrinks.function f fn' hfn').symm.trans hfn)
    refine ⟨f, fn', hd, hval, hfn', h.holds_iff.mpr ⟨hh, fun d hd' hslot => ?_⟩, hp⟩
    -- The slot of an active call is none of a detached scope.
    have hdisjoint := (List.nodup_append.mp (List.map_append ▸ hnodup.2)).2.2
    exact absurd hslot.symm (hdisjoint _ (List.mem_map_of_mem (List.mem_map_of_mem hc)) _
      (List.mem_map_of_mem hd'))
  · obtain ⟨hid, hn⟩ := (h.detached id).mp hid
    obtain ⟨hd, hh⟩ := hs.tiled.detached id hid
    refine ⟨hd, h.holds_iff.mpr ⟨hh, fun d hd' hslot => ?_⟩⟩
    obtain ⟨_, hh'⟩ := hs.tiled.detached d hd'
    exact hh'.eq hh hslot ▸ hn
  · refine hs.tiled.nodup.sublist (List.Sublist.cons_cons 0 ?_)
    exact ((List.Sublist.refl _).append h.sublist).map _
  · intro slot hd hh
    obtain ⟨sc, hsc, -⟩ := Option.map_eq_some_iff.mp hh
    obtain ⟨hsc', hn⟩ := (h.scopeAt? slot sc).mp hsc
    refine (hs.tiled.covered slot _ (head?_of_scopeAt? hsc')).imp_right fun hm => ?_
    obtain ⟨d, hd', rfl⟩ := List.mem_map.mp hm
    refine List.mem_map_of_mem (List.mem_append.mpr ?_)
    exact (List.mem_append.mp hd').imp_right fun hdet =>
      (h.detached d).mpr ⟨hdet, hn d hdet rfl⟩

/-! ## The end of a call -/

/-- A store with no scope, and nothing in the heap, that another does not have. -/
structure Within (s' s : Store) : Prop where
  scopeAt? : ∀ i sc, s'.scopeAt? i = some sc → s.scopeAt? i = some sc
  shrinks : s.heap.Shrinks s'.heap
  created : s'.created = s.created

theorem Within.refl (s : Store) : s.Within s := ⟨fun _ _ h => h, .refl _, rfl⟩

/-- The innermost call has ended and its scope is detached. -/
theorem Sweepable.detach {c : Call} (hs : s.Sweepable outer (c :: calls)) :
    ({ s with detached := s.detached.push c.2 } : Store).Sweepable outer calls := by
  have hsplit : (calls.map Prod.snd ++ (s.detached.push c.2).toList).Perm
      ((c :: calls).map Prod.snd ++ s.detached.toList) := by
    simp only [Array.toList_push, List.map_cons, List.cons_append, ← List.append_assoc]
    exact List.perm_append_singleton ..
  refine ⟨⟨⟨hs.sound.regular.outermost, hs.sound.regular.parentless, hs.sound.regular.serial_lt,
      hs.sound.regular.serial_inj, hs.sound.regular.parent_lt, hs.sound.regular.free,
      hs.sound.regular.pinned, hs.sound.regular.defined, hs.sound.regular.latest⟩,
      hs.sound.balanced⟩, hs.pinless, fun d hd => hs.called d (by simp [hd]),
    fun d hd => hs.held d (by simp [hd]), ⟨fun id hid => ?_, ?_, fun slot hd hh => ?_⟩⟩
  · have hm : id ∈ s.detached.toList ∨ id = c.2 := by simpa using hid
    rcases hm with hid | rfl
    · exact hs.tiled.detached id hid
    · obtain ⟨_, _, hd, -, -, hh, -⟩ := hs.called c (by simp)
      exact ⟨hd, hh⟩
  · exact ((hsplit.map ScopeId.slot).cons 0).nodup_iff.mpr hs.tiled.nodup
  · exact (hs.tiled.covered slot hd hh).imp_right ((hsplit.map ScopeId.slot).mem_iff.mpr ·)

theorem Sweepable.release {c : Call} (hs : s.Sweepable outer (c :: calls)) :
    (s.release c.2).Sweepable outer calls ∧ (s.release c.2).Within s := by
  have hnodup := List.nodup_cons.mp hs.tiled.nodup
  have h0 : c.2.slot ≠ 0 := fun h => hnodup.1 (by simp [← h])
  obtain ⟨f, fn, hd, -, -, hh, hp⟩ := hs.called c (by simp)
  obtain ⟨sc, hsc, rfl⟩ := Option.map_eq_some_iff.mp hh.1
  have hsc' : s.scope? c.2 = some sc := hsc
  simp only [Store.release, if_neg (show c.2.slot ≠ global.slot from h0), hsc']
  have hmem : c.2.slot ∉ (calls.map Prod.snd ++ s.detached.toList).map ScopeId.slot :=
    (List.nodup_cons.mp hnodup.2).1
  cases hpin : s.livePin? c.2 with
  | none =>
    obtain ⟨he, hb⟩ := freeSlot_spec hsc' hs.sound.balanced
    have hdet : (s.freeSlot c.2).detached = s.detached := rfl
    have hsound : (s.freeSlot c.2).Sound outer := by
      refine hs.sound.emptied he hb (by simpa using h0.symm) fun p q hq => ?_
      simpa using hs.sound.regular.not_pinned hpin (he.shrinks.pin p q hq)
    have hother {id : ScopeId} {hd : Head} (hm : id ∈ calls.map Prod.snd ++ s.detached.toList)
        (hh : s.Holds id hd) : (s.freeSlot c.2).Holds id hd :=
      he.holds_iff.mpr ⟨hh, fun h => hmem ((List.mem_singleton.mp h) ▸ List.mem_map_of_mem hm)⟩
    refine ⟨⟨hsound, hs.pinless, fun d hd => ?_, fun d hd => hs.held d (by simp [hd]),
      ⟨fun id hid => ?_, ?_, fun slot hd hh' => ?_⟩⟩, fun i sc hi => ?_, he.shrinks, he.created⟩
    · obtain ⟨g, gn, hd', hval, hgn, hh', hp'⟩ := hs.called d (by simp [hd])
      obtain ⟨gn', hgn'⟩ := Option.isSome_iff_exists.mp
        (hsound.live_outer (hs.held d (by simp [hd]) (.function g) (by simp [hval, Value.ref?])))
      obtain rfl : gn' = gn := Option.some.inj ((he.function hgn').symm.trans hgn)
      exact ⟨g, gn', hd', hval, hgn',
        hother (List.mem_append_left _ (List.mem_map_of_mem hd)) hh', hp'⟩
    · rw [hdet] at hid
      obtain ⟨hd, hh'⟩ := hs.tiled.detached id hid
      exact ⟨hd, hother (List.mem_append_right _ hid) hh'⟩
    · rw [hdet]
      exact hs.tiled.nodup.sublist (by simp)
    · obtain ⟨hi, hh'⟩ := he.of_head? hh'
      refine (hs.tiled.covered slot hd hh').imp_right fun hm => ?_
      rw [hdet]
      simpa [show slot ≠ c.2.slot by simpa using hi] using hm
    · rw [he.scopeAt?] at hi
      split at hi
      · simp at hi
      · exact hi
  | some p =>
    have hdet := hs.detach
    simp only
    split
    · have hsw := hdet.swept
      exact ⟨hsw.sweepable hdet, fun i sc hi => ((hsw.scopeAt? i sc).mp hi).1, hsw.shrinks,
        hsw.created⟩
    · exact ⟨hdet, fun _ _ hi => hi, .refl _, rfl⟩

end Store

end Scriptlet
