import Scriptlet.Proofs.Store.Need
import Scriptlet.Proofs.Store.Tally

/-!
# What the counts tell

A sweep never looks for what holds a function. It compares the counts with
what the detached scopes account for, and the counts of their pins fall short
of that exactly for the scopes of functions that are held otherwise.
-/

set_option autoImplicit false

namespace Scriptlet

theorem count_filterMap_eq {α β : Type} [DecidableEq β] (g : α → Option β) (l : List α) (b : β) :
    (l.filterMap g).count b = (l.filter fun a => g a = some b).length := by
  induction l with
  | nil => rfl
  | cons a l ih =>
    cases hg : g a with
    | none => simp [hg, ih]
    | some c =>
      by_cases hc : c = b <;> simp [hg, hc, ih]

namespace Heap

variable {h : Heap} {outer : List Ref}

/-- The functions that refer to a pin. -/
def holders (h : Heap) (p : PinId) : List FunctionId :=
  (List.range h.functions.size).filter fun f => (h.function? f).map Function.pin = some p

/-- The pins that have a pin above them. -/
def under (h : Heap) (p : PinId) : List PinId :=
  (List.range h.pins.size).filter fun q => (h.pin? q).bind Pin.parent = some p

theorem mem_holders {p : PinId} {f : FunctionId} :
    f ∈ h.holders p ↔ ∃ fn, h.function? f = some fn ∧ fn.pin = p := by
  simp only [holders, List.mem_filter, List.mem_range, decide_eq_true_eq, Option.map_eq_some_iff]
  exact ⟨And.right, fun hf => ⟨Table.lt_size hf.choose_spec.1, hf⟩⟩

theorem mem_under {p q : PinId} :
    q ∈ h.under p ↔ ∃ pn, h.pin? q = some pn ∧ pn.parent = some p := by
  simp only [under, List.mem_filter, List.mem_range, decide_eq_true_eq, Option.bind_eq_some_iff]
  exact ⟨And.right, fun hf => ⟨Table.lt_size hf.choose_spec.1, hf⟩⟩

theorem nodup_holders (h : Heap) (p : PinId) : (h.holders p).Nodup := List.nodup_range.filter _

theorem nodup_under (h : Heap) (p : PinId) : (h.under p).Nodup := List.nodup_range.filter _

theorem inner_count_pin (h : Heap) (p : PinId) :
    h.inner.count (.pin p) = (h.holders p).length + (h.under p).length := by
  have hlists : (((List.range h.lists.size).map Ref.list).flatMap h.links).count (.pin p) = 0 := by
    refine List.count_eq_zero.mpr fun hm => ?_
    simp only [List.mem_flatMap, List.mem_map] at hm
    obtain ⟨_, ⟨id, -, rfl⟩, hp⟩ := hm
    exact Value.pin_not_mem_refs _ p hp
  have hfunctions : (((List.range h.functions.size).map Ref.function).flatMap h.links).count
      (.pin p) = (h.holders p).length := by
    rw [List.flatMap_map]
    have : (fun f => h.links (.function f)) =
        fun f => ((h.function? f).map fun fn => Ref.pin fn.pin).toList := rfl
    rw [this, ← List.filterMap_eq_flatMap_toList, count_filterMap_eq, holders]
    congr 1
    apply List.filter_congr
    intro f _
    cases h.function? f <;> simp
  have hpins : (((List.range h.pins.size).map Ref.pin).flatMap h.links).count (.pin p) =
      (h.under p).length := by
    rw [List.flatMap_map]
    have : (fun q => h.links (.pin q)) =
        fun q => ((h.pin? q).bind fun pn => pn.parent.map Ref.pin).toList := by
      funext q
      cases hq : h.pin? q <;> simp [links, hq, Pin.refs]
    rw [this, ← List.filterMap_eq_flatMap_toList, count_filterMap_eq, under]
    congr 1
    apply List.filter_congr
    intro q _
    cases h.pin? q <;> simp
  simp only [inner, things, List.flatMap_append, List.count_append]
  omega

end Heap

namespace Store

variable {s : Store} {outer : List Ref} {calls : List Call}

theorem Regular.livePin?_iff (hr : s.Regular) {id : ScopeId} {hd : Head} (hh : s.Holds id hd)
    {p : PinId} : s.livePin? id = some p ↔ ∃ q, s.heap.pin? p = some q ∧ q.scope = id := by
  refine ⟨fun hp => (hr.livePin? hh hp).2, fun ⟨q, hq, he⟩ => ?_⟩
  obtain ⟨hd', hh', hpin, -⟩ := hr.pinned p q hq
  rw [he] at hh'
  obtain ⟨sc, hsc, rfl⟩ := Option.map_eq_some_iff.mp hh'.1
  rw [Store.livePin?, scope?_eq, hsc, Option.filter_eq_some_iff]
  exact ⟨hpin, by simp [hq]⟩

/-! ## The field of a sweep -/

theorem Sweepable.holds_detached (hs : s.Sweepable outer calls) {i : Nat} {id : ScopeId}
    (hi : s.detached[i]? = some id) : ∃ hd, s.Holds id hd :=
  hs.tiled.detached id (Array.mem_toList_iff.mpr (Array.mem_of_getElem? hi))

theorem Sweepable.nodup_slots (hs : s.Sweepable outer calls) :
    (s.detached.toList.map ScopeId.slot).Nodup := by
  have h := (List.nodup_cons.mp hs.tiled.nodup).2
  rw [List.map_append] at h
  exact (List.nodup_append.mp h).2.1

theorem Sweepable.field_ids (hs : s.Sweepable outer calls) :
    (Sweep.field s).ids = s.detached := by
  refine Array.filter_eq_self.mpr fun id hid => ?_
  obtain ⟨hd, hh⟩ := hs.tiled.detached id (Array.mem_toList_iff.mpr hid)
  obtain ⟨sc, hsc, -⟩ := Option.map_eq_some_iff.mp hh.1
  simp [occupied, scope?_eq, hsc]

theorem Sweepable.place?_iff (hs : s.Sweepable outer calls) {slot i : Nat} :
    (Sweep.field s).place? slot = some i ↔ ∃ id, s.detached[i]? = some id ∧ id.slot = slot := by
  have hids : s.detached.filter s.occupied = s.detached := hs.field_ids
  have hslots : (s.detached.toList.zipIdx.map fun p => p.1.slot) =
      s.detached.toList.map ScopeId.slot := by
    have : (fun p : ScopeId × Nat => p.1.slot) = ScopeId.slot ∘ Prod.fst := rfl
    rw [this, ← List.map_map, List.zipIdx_map_fst]
  simp only [Sweep.field, Sweep.Field.place?, hids]
  rw [Sweep.place_foldl (by rw [hslots]; exact hs.nodup_slots)]
  · have hnone : ¬ ((Array.replicate s.scopes.size (none : Option Nat))[slot]?.join = some i) := by
      rw [Array.getElem?_replicate]
      split <;> simp
    rw [or_iff_left fun h => hnone h.2]
    constructor
    · rintro ⟨⟨id, j⟩, hp, hslot, rfl⟩
      exact ⟨id, by simpa using List.mem_zipIdx_iff_getElem?.mp hp, hslot⟩
    · rintro ⟨id, hid, hslot⟩
      exact ⟨(id, i), List.mem_zipIdx_iff_getElem?.mpr (by simpa using hid), hslot, rfl⟩
  · rintro ⟨id, j⟩ hp
    have hj : s.detached[j]? = some id := by simpa using List.mem_zipIdx_iff_getElem?.mp hp
    obtain ⟨hd, hh⟩ := hs.holds_detached hj
    obtain ⟨sc, hsc, -⟩ := Option.map_eq_some_iff.mp hh.1
    simpa using lt_size hsc

/-- A scope that is there is found in its place. -/
theorem Sweepable.place?_holds (hs : s.Sweepable outer calls) {id : ScopeId} {hd : Head}
    (hh : s.Holds id hd) {i : Nat} :
    (Sweep.field s).place? id.slot = some i ↔ s.detached[i]? = some id := by
  refine hs.place?_iff.trans ⟨fun ⟨id', hid, hslot⟩ => ?_, fun hid => ⟨id, hid, rfl⟩⟩
  obtain ⟨hd', hh'⟩ := hs.holds_detached hid
  rw [hid, hh'.eq hh hslot]

theorem Sweepable.pinPlace?_iff (hs : s.Sweepable outer calls) {p : PinId} {i : Nat} :
    Sweep.pinPlace? s (Sweep.field s) p = some i ↔
      ∃ q, s.heap.pin? p = some q ∧ s.detached[i]? = some q.scope := by
  unfold Sweep.pinPlace?
  cases hq : s.heap.pin? p with
  | none => simp
  | some q =>
    obtain ⟨hd, hh, -⟩ := hs.sound.regular.pinned p q hq
    have hlive : s.livePin? q.scope = some p :=
      (hs.sound.regular.livePin?_iff hh).mpr ⟨q, hq, rfl⟩
    simp [hlive, hs.place?_holds hh]

/-- The pin at a place is the one that is there for its scope. -/
theorem Sweepable.pinPlace?_eq (hs : s.Sweepable outer calls) {i : Nat} {id : ScopeId}
    (hi : s.detached[i]? = some id) {p q : PinId} (hp : s.livePin? id = some p) :
    Sweep.pinPlace? s (Sweep.field s) q = some i ↔ q = p := by
  obtain ⟨hd, hh⟩ := hs.holds_detached hi
  have hr := hs.sound.regular
  rw [hs.pinPlace?_iff, hi]
  constructor
  · rintro ⟨pn, hpn, he⟩
    have hq := (hr.livePin?_iff hh).mpr ⟨pn, hpn, (Option.some.inj he).symm⟩
    exact Option.some.inj (hq.symm.trans hp)
  · rintro rfl
    obtain ⟨pn, hpn, he⟩ := (hr.livePin?_iff hh).mp hp
    exact ⟨pn, hpn, by rw [he]⟩

/-! ## The references to a function -/

theorem count_functionsOf (b : Bindings) (f : FunctionId) :
    (Sweep.functionsOf b).count f = (Value.refs (Bindings.values b)).count (.function f) := by
  induction b with
  | nil => rfl
  | cons p b ih =>
    obtain ⟨n, v⟩ := p
    have ih' : (Sweep.functionsOf b).count f = (Value.refs (b.map Prod.snd)).count (.function f) :=
      ih
    cases v <;> simp_all [Sweep.functionsOf, Bindings.values, Value.ref?, List.count_cons]

theorem count_boundIn (s : Store) (id : ScopeId) (f : FunctionId) :
    (Sweep.boundIn s id).count f = (Value.refs (s.valuesAt id.slot)).count (.function f) := by
  unfold Sweep.boundIn
  rw [count_functionsOf, valuesAt, scope?_eq]
  cases s.scopeAt? id.slot <;> rfl

/-- The references that bindings hold, those of the detached scopes apart. -/
theorem Sweepable.boundRefs_perm (hs : s.Sweepable outer calls) :
    s.boundRefs.Perm
      ((s.detached.toList.map ScopeId.slot).flatMap (fun slot => Value.refs (s.valuesAt slot)) ++
        ((List.range s.scopes.size).filter fun slot =>
          slot ∉ s.detached.toList.map ScopeId.slot).flatMap
            fun slot => Value.refs (s.valuesAt slot)) := by
  rw [← List.flatMap_append, boundRefs]
  refine List.Perm.flatMap_right _ (List.Perm.symm ?_)
  have hin : (s.detached.toList.map ScopeId.slot).Perm
      ((List.range s.scopes.size).filter fun slot =>
        slot ∈ s.detached.toList.map ScopeId.slot) := by
    apply (List.perm_ext_iff_of_nodup hs.nodup_slots (List.nodup_range.filter _)).mpr
    intro slot
    simp only [List.mem_filter, List.mem_range, decide_eq_true_eq]
    refine ⟨fun hm => ⟨?_, hm⟩, And.right⟩
    obtain ⟨id, hid, rfl⟩ := List.mem_map.mp hm
    obtain ⟨hd, hh⟩ := hs.tiled.detached id hid
    obtain ⟨sc, hsc, -⟩ := Option.map_eq_some_iff.mp hh.1
    exact lt_size hsc
  have hfilter := List.filter_append_perm
    (fun slot => decide (slot ∈ s.detached.toList.map ScopeId.slot)) (List.range s.scopes.size)
  simp only [← decide_not] at hfilter
  exact (hin.append_right _).trans hfilter

theorem Sweepable.root_iff (hs : s.Sweepable outer calls) {f : FunctionId} :
    s.Root outer f ↔ s.heap.refs (.function f) ≠
      (s.detached.toList.flatMap (Sweep.boundIn s)).count f := by
  have hbound : (s.detached.toList.flatMap (Sweep.boundIn s)).count f =
      ((s.detached.toList.map ScopeId.slot).flatMap
        (fun slot => Value.refs (s.valuesAt slot))).count (.function f) := by
    simp only [List.flatMap_map, List.count_flatMap, Function.comp_def, count_boundIn]
  have hc := hs.sound.balanced.counted (.function f)
  rw [List.count_append, hs.boundRefs_perm.count_eq, List.count_append, ← hbound] at hc
  have hlist : 0 < s.heap.inner.count (.function f) ↔
      ∃ id xs, s.heap.list? id = some xs ∧ Value.function f ∈ xs.toList := by
    rw [List.count_pos_iff, Heap.mem_inner]
    constructor
    · rintro ⟨t, ht, hm⟩
      cases t with
      | list id =>
        obtain ⟨xs, hx⟩ := Option.isSome_iff_exists.mp ht
        obtain ⟨v, hv, hr⟩ := Value.mem_refs.mp hm
        refine ⟨id, xs, hx, ?_⟩
        cases v <;> simp_all [Value.ref?, Heap.items]
      | function g => simp [Heap.links] at hm
      | pin q =>
        obtain ⟨pn, hpn⟩ := Option.isSome_iff_exists.mp ht
        simp [Heap.links, hpn, Pin.refs] at hm
    · rintro ⟨id, xs, hx, hf⟩
      refine ⟨.list id, Option.isSome_iff_exists.mpr ⟨xs, hx⟩,
        Value.mem_refs.mpr ⟨.function f, ?_, rfl⟩⟩
      simpa [Heap.items, hx] using hf
  have hrest : 0 < (((List.range s.scopes.size).filter fun slot =>
      slot ∉ s.detached.toList.map ScopeId.slot).flatMap
        fun slot => Value.refs (s.valuesAt slot)).count (.function f) ↔
      ∃ slot sc, s.scopeAt? slot = some sc ∧ ¬ s.IsDetached slot ∧
        Value.function f ∈ Bindings.values sc.bindings := by
    simp only [List.count_pos_iff, List.mem_flatMap, List.mem_filter, List.mem_range,
      decide_eq_true_eq, Value.mem_refs]
    constructor
    · rintro ⟨slot, ⟨-, hn⟩, v, hv, hr⟩
      cases hsc : s.scopeAt? slot with
      | none => simp [valuesAt, hsc] at hv
      | some sc =>
        have hattached : ¬ s.IsDetached slot := by
          rintro ⟨id, hid, he⟩
          exact hn (List.mem_map.mpr ⟨id, hid, he⟩)
        refine ⟨slot, sc, hsc, hattached, ?_⟩
        rw [valuesAt_of_some hsc] at hv
        cases v <;> simp_all [Value.ref?]
    · rintro ⟨slot, sc, hsc, hn, hf⟩
      refine ⟨slot, ⟨lt_size hsc, fun hm => hn ?_⟩, .function f, by rwa [valuesAt_of_some hsc],
        rfl⟩
      obtain ⟨id, hid, he⟩ := List.mem_map.mp hm
      exact ⟨id, hid, he⟩
  rw [Root, ← hlist, ← hrest, ← List.count_pos_iff]
  omega

/-! ## The references to a pin -/

/-- Functions that detached scopes account for are those that are no roots. -/
theorem Sweepable.functionPlaces_spec (hs : s.Sweepable outer calls) {i : Nat} {id : ScopeId}
    (hi : s.detached[i]? = some id) {p : PinId} (hp : s.livePin? id = some p) :
    (Sweep.functionPlaces s (Sweep.field s)).count i ≤ (s.heap.holders p).length ∧
    ((Sweep.functionPlaces s (Sweep.field s)).count i < (s.heap.holders p).length ↔
      ∃ f ∈ s.heap.holders p, s.Root outer f) := by
  obtain ⟨hnodup, hmem⟩ := Sweep.tally_mergeSort (s.detached.toList.flatMap (Sweep.boundIn s))
  simp only [Sweep.functionPlaces, hs.field_ids, count_filterMap_eq]
  rw [← List.length_map (f := Prod.fst)]
  have haccount (f : FunctionId) : f ∈ (((Sweep.tally
      (s.detached.toList.flatMap (Sweep.boundIn s)).mergeSort).filter fun b =>
        (if s.heap.refs (.function b.1) = b.2 then
          (s.heap.function? b.1).bind fun fn => Sweep.pinPlace? s (Sweep.field s) fn.pin
        else none) = some i).map Prod.fst) ↔ f ∈ s.heap.holders p ∧ ¬ s.Root outer f := by
    rw [hs.root_iff, not_ne_iff, Heap.mem_holders]
    simp only [List.mem_map, List.mem_filter, decide_eq_true_eq, Option.ite_none_right_eq_some,
      Option.bind_eq_some_iff, hs.pinPlace?_eq hi hp, Prod.exists, hmem]
    constructor
    · rintro ⟨g, c, ⟨⟨-, rfl⟩, hrefs, hfn⟩, rfl⟩
      exact ⟨hfn, hrefs⟩
    · rintro ⟨⟨fn, hfn, hpin⟩, hrefs⟩
      have hused := hs.sound.balanced.used (.function f)
        (Option.isSome_iff_exists.mpr ⟨fn, hfn⟩)
      exact ⟨f, _, ⟨⟨hrefs ▸ hused, rfl⟩, hrefs, fn, hfn, hpin⟩, rfl⟩
  obtain ⟨hle, hlt⟩ := Sweep.length_lt_iff (hnodup.sublist (List.filter_sublist.map _))
    (s.heap.nodup_holders p) fun f hf => ((haccount f).mp hf).1
  refine ⟨hle, hlt.trans (exists_congr fun f => and_congr_right fun hf => ?_)⟩
  rw [haccount, and_iff_right hf, not_not]

/-- A pin right below that of a detached scope belongs to a detached scope, or to the scope of an
active call, whose function is held. -/
theorem Sweepable.under_cases (hs : s.Sweepable outer calls) {id : ScopeId} {p q : PinId}
    (hp : s.livePin? id = some p) {hd : Head} (hh : s.Holds id hd) {pn : Pin}
    (hpn : s.heap.pin? q = some pn) (hup : pn.parent = some p) :
    pn.scope ∈ s.detached.toList ∨ ∃ f ∈ s.heap.holders p, s.Root outer f := by
  have hr := hs.sound.regular
  obtain ⟨hd', hh', -, hfit⟩ := hr.pinned q pn hpn
  rcases hfit with ⟨-, hnone⟩ | ⟨a, b, ha, hb, hpar⟩
  · simp [hup] at hnone
  obtain rfl : a = p := Option.some.inj (ha.symm.trans hup)
  rcases hs.tiled.covered _ _ hh'.1 with h0 | hm
  · rw [(hr.parentless _ _ hh'.1).mpr h0] at hpar
    simp at hpar
  obtain ⟨id', hid', hslot⟩ := List.mem_map.mp hm
  rcases List.mem_append.mp hid' with hact | hdet
  · right
    obtain ⟨c, hc, rfl⟩ := List.mem_map.mp hact
    obtain ⟨f, fn, hdc, hval, hfn, hhc, hparc⟩ := hs.called c hc
    have hheld : Ref.function f ∈ outer := hs.held c hc _ (by simp [hval, Value.ref?])
    refine ⟨f, Heap.mem_holders.mpr ⟨fn, hfn, ?_⟩, .inl hheld⟩
    have : hdc = hd' := Option.some.inj (hhc.1.symm.trans (hslot ▸ hh'.1))
    obtain ⟨k, hk, hks⟩ := hr.defined f fn hfn
    obtain ⟨-, b', hb', hb's⟩ := hr.livePin? hh hp
    have hsame : b = b' := Option.some.inj (hb.symm.trans hb')
    have hscope : fn.scope = id := by
      rw [this, hpar] at hparc
      rw [← Option.some.inj hparc, hsame, hb's]
    have hlive := (hr.livePin?_iff hh).mpr ⟨k, hk, hks.trans hscope⟩
    exact Option.some.inj (hlive.symm.trans hp)
  · left
    obtain ⟨hd'', hh''⟩ := hs.tiled.detached id' hdet
    exact hh''.eq hh' hslot ▸ hdet

theorem Sweepable.parentPlaces_spec (hs : s.Sweepable outer calls) {i : Nat} {id : ScopeId}
    (hi : s.detached[i]? = some id) {p : PinId} (hp : s.livePin? id = some p) :
    (Sweep.parentPlaces s (Sweep.field s)).count i ≤ (s.heap.under p).length ∧
    ((Sweep.parentPlaces s (Sweep.field s)).count i < (s.heap.under p).length →
      ∃ f ∈ s.heap.holders p, s.Root outer f) := by
  have hr := hs.sound.regular
  obtain ⟨hd, hh⟩ := hs.holds_detached hi
  simp only [Sweep.parentPlaces, hs.field_ids, count_filterMap_eq]
  rw [← List.length_map (f := fun d => (s.livePin? d).getD 0)]
  have hmem (d : ScopeId) : d ∈ s.detached.toList.filter (fun d => ((s.livePin? d).bind
      s.heap.pin?).bind (fun q => q.parent.bind (Sweep.pinPlace? s (Sweep.field s))) = some i) ↔
      d ∈ s.detached.toList ∧ ∃ q pn, s.livePin? d = some q ∧ s.heap.pin? q = some pn ∧
        pn.parent = some p ∧ pn.scope = d := by
    simp only [List.mem_filter, decide_eq_true_eq, Option.bind_eq_some_iff, hs.pinPlace?_eq hi hp]
    refine and_congr_right fun hd => ⟨?_, ?_⟩
    · rintro ⟨pn, ⟨q, hq, hpn⟩, a, ha, rfl⟩
      obtain ⟨hd', hh'⟩ := hs.tiled.detached d hd
      obtain ⟨-, pn', hpn', he⟩ := hr.livePin? hh' hq
      exact ⟨q, pn, hq, hpn, ha, Option.some.inj (hpn.symm.trans hpn') ▸ he⟩
    · rintro ⟨q, pn, hq, hpn, hup, -⟩
      exact ⟨pn, ⟨q, hq, hpn⟩, p, hup, rfl⟩
  have hnodup : ((s.detached.toList.filter fun d => ((s.livePin? d).bind s.heap.pin?).bind
      (fun q => q.parent.bind (Sweep.pinPlace? s (Sweep.field s))) = some i).map
        fun d => (s.livePin? d).getD 0).Nodup := by
    refine List.Nodup.map_on ?_ (hs.nodup_slots.of_map.filter _)
    intro d hd e he heq
    obtain ⟨-, q, pn, hq, hpn, -, rfl⟩ := (hmem d).mp hd
    obtain ⟨-, q', pn', hq', hpn', -, rfl⟩ := (hmem e).mp he
    simp only [hq, hq', Option.getD_some] at heq
    subst heq
    rw [Option.some.inj (hpn.symm.trans hpn')]
  obtain ⟨hle, hlt⟩ := Sweep.length_lt_iff hnodup (s.heap.nodup_under p) fun q hq => by
    obtain ⟨d, hd, rfl⟩ := List.mem_map.mp hq
    obtain ⟨-, q, pn, hq, hpn, hup, -⟩ := (hmem d).mp hd
    rw [hq]
    exact Heap.mem_under.mpr ⟨pn, hpn, hup⟩
  refine ⟨hle, fun h => ?_⟩
  obtain ⟨q, hq, hn⟩ := hlt.mp h
  obtain ⟨pn, hpn, hup⟩ := Heap.mem_under.mp hq
  refine (hs.under_cases hp hh hpn hup).resolve_left fun hdet => hn ?_
  obtain ⟨hd', hh', -⟩ := hr.pinned q pn hpn
  have hlive := (hr.livePin?_iff hh').mpr ⟨pn, hpn, rfl⟩
  exact List.mem_map.mpr ⟨pn.scope, (hmem _).mpr ⟨hdet, q, pn, hlive, hpn, hup, rfl⟩, by
    rw [hlive]; rfl⟩

theorem Sweepable.pinCounts_get (hs : s.Sweepable outer calls) {i : Nat} {id : ScopeId}
    (hi : s.detached[i]? = some id) : (Sweep.pinCounts s (Sweep.field s))[i]? =
      some (((s.livePin? id).map fun p => s.heap.refs (.pin p)).getD 0) := by
  obtain ⟨hd, hh⟩ := hs.holds_detached hi
  obtain ⟨sc, hsc, -⟩ := Option.map_eq_some_iff.mp hh.1
  have hlt := lt_size hsc
  -- Every slot is there once, so nothing is added.
  have htimes : (s.detached.toList.foldl (fun a d => a.modify d.slot (· + 1))
      (Array.replicate s.scopes.size 0)).getD id.slot 0 = 1 := by
    rw [← List.foldl_map (f := ScopeId.slot) (g := fun a j => Array.modify a j (· + 1)),
      Array.getD_eq_getD_getElem?, Sweep.getElem?_foldl_modify, Array.getElem?_replicate,
      if_pos hlt, Option.map_some, Sweep.iterate_add_one, List.count_eq_one_of_mem hs.nodup_slots]
    · rfl
    · exact List.mem_map_of_mem (Array.mem_toList_iff.mpr (Array.mem_of_getElem? hi))
  simp only [Sweep.pinCounts, hs.field_ids, Array.getElem?_map, hi, Option.map_some,
    ← Array.foldl_toList, htimes]
  cases s.livePin? id <;> simp

/-- The counts find the scopes of the roots. -/
theorem Sweepable.outside_pos_iff (hs : s.Sweepable outer calls) {i : Nat} {id : ScopeId}
    (hi : s.detached[i]? = some id) :
    0 < (Sweep.outside s (Sweep.field s)).getD i 0 ↔
      ∃ f fn, s.Root outer f ∧ s.heap.function? f = some fn ∧ fn.scope = id := by
  have hr := hs.sound.regular
  obtain ⟨hd, hh⟩ := hs.holds_detached hi
  rw [Sweep.outside, Array.getD_eq_getD_getElem?, Sweep.getElem?_foldl_modify, hs.pinCounts_get hi,
    Option.map_some, Option.getD_some, Sweep.iterate_sub_one, List.count_append]
  have hholder {p : PinId} (hp : s.livePin? id = some p) {f : FunctionId} {fn : Function}
      (hf : s.heap.function? f = some fn) : fn.pin = p ↔ fn.scope = id := by
    obtain ⟨q, hq, he⟩ := hr.defined f fn hf
    rw [← he]
    constructor
    · rintro rfl
      obtain ⟨q', hq', he'⟩ := (hr.livePin?_iff hh).mp hp
      exact Option.some.inj (hq.symm.trans hq') ▸ he'
    · intro hid
      exact Option.some.inj (((hr.livePin?_iff hh).mpr ⟨q, hq, hid⟩).symm.trans hp)
  cases hp : s.livePin? id with
  | none =>
    refine iff_of_false (by simp) ?_
    rintro ⟨f, fn, -, hf, hfn⟩
    obtain ⟨q, hq, he⟩ := hr.defined f fn hf
    have := (hr.livePin?_iff hh).mpr ⟨q, hq, he.trans hfn⟩
    simp [hp] at this
  | some p =>
    obtain ⟨hfle, hflt⟩ := hs.functionPlaces_spec hi hp
    obtain ⟨hple, hplt⟩ := hs.parentPlaces_spec hi hp
    have hcount : s.heap.refs (.pin p) = (s.heap.holders p).length + (s.heap.under p).length := by
      have hbound : Ref.pin p ∉ s.boundRefs := fun hm => by
        obtain ⟨slot, sc, v, -, -, hv⟩ := mem_boundRefs.mp hm
        cases v <;> simp [Value.ref?] at hv
      rw [hs.sound.balanced.counted, List.count_append, List.count_eq_zero.mpr (hs.pinless p),
        List.count_eq_zero.mpr hbound, Heap.inner_count_pin]
      omega
    have hroot : (∃ f ∈ s.heap.holders p, s.Root outer f) ↔
        ∃ f fn, s.Root outer f ∧ s.heap.function? f = some fn ∧ fn.scope = id := by
      constructor
      · rintro ⟨f, hf, hroot⟩
        obtain ⟨fn, hfn, hpin⟩ := Heap.mem_holders.mp hf
        exact ⟨f, fn, hroot, hfn, (hholder hp hfn).mp hpin⟩
      · rintro ⟨f, fn, hroot, hfn, hscope⟩
        exact ⟨f, Heap.mem_holders.mpr ⟨fn, hfn, (hholder hp hfn).mpr hscope⟩, hroot⟩
    rw [← hroot]
    simp only [Option.map_some, Option.getD_some, hcount]
    constructor
    · intro hpos
      by_cases hf : (Sweep.functionPlaces s (Sweep.field s)).count i < (s.heap.holders p).length
      · exact hflt.mp hf
      · exact hplt (by omega)
    · intro hex
      have := hflt.mpr hex
      omega

end Store

end Scriptlet
