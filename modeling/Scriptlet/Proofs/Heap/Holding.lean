import Scriptlet.Proofs.Heap.Release

/-!
# Holding values

What holders of values do to a balanced heap: keep a value once more, drop
values, make lists, functions and pins, and change the items of a list.
-/

set_option autoImplicit false

namespace Scriptlet

namespace Value

@[simp] theorem refs_nil : Value.refs [] = [] := rfl

@[simp] theorem refs_cons (v : Value) (vs : List Value) :
    Value.refs (v :: vs) = v.ref?.toList ++ Value.refs vs := by
  cases h : v.ref? <;> simp [Value.refs, h]

@[simp] theorem refs_append (vs ws : List Value) :
    Value.refs (vs ++ ws) = Value.refs vs ++ Value.refs ws := by
  simp [Value.refs]

@[simp] theorem refs_reverse (vs : List Value) :
    Value.refs vs.reverse = (Value.refs vs).reverse := by
  simp [Value.refs]

theorem mem_refs {r : Ref} {vs : List Value} : r ∈ Value.refs vs ↔ ∃ v ∈ vs, v.ref? = some r := by
  simp [Value.refs]

theorem pin_not_mem_refs (vs : List Value) (p : PinId) : Ref.pin p ∉ Value.refs vs := by
  rw [mem_refs]
  rintro ⟨v, -, hv⟩
  cases v <;> simp [Value.ref?] at hv

theorem refs_perm {vs ws : List Value} (hp : vs.Perm ws) : (Value.refs vs).Perm (Value.refs ws) :=
  hp.filterMap _

end Value

namespace Heap

variable {h : Heap} {outer : List Ref}

theorem keep_shrinks (h : Heap) (v : Value) : h.Shrinks (h.keep v) := by
  cases hv : v.ref? with
  | none => simpa [keep, hv] using Shrinks.refl h
  | some r => simpa [keep, hv] using retain_shrinks h r

theorem keep_live (h : Heap) (v : Value) (t : Ref) : (h.keep v).Live t ↔ h.Live t := by
  cases hv : v.ref? with
  | none => simp [keep, hv]
  | some r => simp [keep, hv, retain_live]

theorem Balanced.keep (hb : h.Balanced outer) {v : Value} (hv : ∀ r ∈ v.ref?, h.Live r) :
    (h.keep v).Balanced (v.ref?.toList ++ outer) := by
  cases hr : v.ref? with
  | none => simpa [Heap.keep, hr] using hb
  | some r => simpa [Heap.keep, hr] using hb.retain (hv r (by simp [hr]))

theorem keepAll_live (h : Heap) (vs : List Value) (t : Ref) :
    (h.keepAll vs).Live t ↔ h.Live t := by
  induction vs generalizing h with
  | nil => rfl
  | cons v vs ih => exact (ih (h.keep v)).trans (keep_live h v t)

theorem keepAll_shrinks (h : Heap) (vs : List Value) : h.Shrinks (h.keepAll vs) := by
  induction vs generalizing h with
  | nil => exact Shrinks.refl h
  | cons v vs ih => exact (keep_shrinks h v).trans (ih (h.keep v))

theorem Balanced.keepAll (hb : h.Balanced outer) {vs : List Value}
    (hv : ∀ r ∈ Value.refs vs, h.Live r) :
    (h.keepAll vs).Balanced (Value.refs vs ++ outer) := by
  induction vs generalizing h outer with
  | nil => exact hb
  | cons v vs ih =>
    have hone := hb.keep (v := v) fun r hr => hv r (by simp [Option.mem_def.mp hr])
    refine (ih hone fun r hr => (keep_live h v r).mpr (hv r (by simp [hr]))).congr fun t => ?_
    simp
    omega

theorem dropAll_eq_release (h : Heap) (vs : List Value) :
    h.dropAll vs = h ∧ Value.refs vs = [] ∨ h.dropAll vs = h.release (Value.refs vs) := by
  cases hr : Value.refs vs with
  | nil => exact .inl ⟨by simp [dropAll, hr], rfl⟩
  | cons r rs => exact .inr (by simp [dropAll, hr])

theorem drop_eq_dropAll (h : Heap) (v : Value) : h.drop v = h.dropAll [v] := by
  cases hr : v.ref? <;> simp [drop, dropAll, hr]

theorem Balanced.dropAll {vs : List Value} (hb : h.Balanced (Value.refs vs ++ outer)) :
    (h.dropAll vs).Balanced outer := by
  rcases dropAll_eq_release h vs with ⟨he, hn⟩ | he
  · rw [he]
    simpa [hn] using hb
  · rw [he]
    exact hb.release

theorem Balanced.dropAll_shrinks {vs : List Value} (hb : h.Balanced (Value.refs vs ++ outer)) :
    h.Shrinks (h.dropAll vs) := by
  rcases dropAll_eq_release h vs with ⟨he, -⟩ | he
  · rw [he]
    exact Shrinks.refl h
  · rw [he]
    exact hb.release_shrinks

theorem Supported.dropAll {K : Ref → Prop} {vs : List Value}
    (hb : h.Balanced (Value.refs vs ++ outer)) (hk : h.Supported outer K) :
    (h.dropAll vs).Supported outer K := by
  rcases dropAll_eq_release h vs with ⟨he, -⟩ | he
  · rwa [he]
  · rw [he]
    exact hk.release hb

/-- A new thing that is referred to once, from outside, and takes over references that were held
from outside. -/
theorem Balanced.add {h' : Heap} {r : Ref} (hb : h.Balanced (h'.links r ++ outer))
    (hn : ¬ h.Live r) (ht : h'.things.Perm (r :: h.things))
    (hl : ∀ t, t ≠ r → h'.links t = h.links t)
    (hr : ∀ t, h'.refs t = if t = r then 1 else h.refs t)
    (hlive : ∀ t, h'.Live t → t ≠ r → h.Live t) : h'.Balanced (r :: outer) := by
  have hm : r ∉ h.things := by
    have := ht.nodup_iff.mp (nodup_things h')
    exact (List.nodup_cons.mp this).1
  refine ⟨fun t => ?_, fun t htl => ?_⟩
  · have hi : h'.inner.count t = (h'.links r).count t + h.inner.count t := by
      rw [inner, (ht.flatMap_right _).count_eq, List.flatMap_cons, List.count_append]
      congr 2
      apply List.flatMap_congr
      intro u hu
      exact hl u fun he => hm (he ▸ hu)
    have hc := hb.counted t
    rw [hr, hi, List.count_cons]
    rw [List.count_append] at hc
    by_cases htr : t = r
    · subst htr
      rw [refs_of_gone hn] at hc
      simp
      omega
    · simp [htr, Ne.symm htr]
      omega
  · rw [hr]
    by_cases htr : t = r
    · simp [htr]
    · simpa [htr] using hb.used t (hlive t htl htr)

theorem newList_list? (h : Heap) (items : Array Value) (id : ListId) :
    (h.newList items).2.list? id = if id = h.lists.size then some items else h.list? id :=
  Table.get?_add ..

theorem Balanced.newList {items : Array Value}
    (hb : h.Balanced (Value.refs items.toList ++ outer)) :
    (h.newList items).2.Balanced (.list h.lists.size :: outer) := by
  have hi : (h.newList items).2.links (.list h.lists.size) = Value.refs items.toList := by
    simp [links, Heap.items, newList_list?]
  refine Balanced.add (by rwa [hi]) (by simp [Live, list?, Table.get?_size]) ?_ ?_ ?_ ?_
  · simp only [things, Heap.newList, Table.size_add, List.range_succ, List.map_append,
      List.append_assoc, List.map_cons, List.map_nil, List.singleton_append]
    exact List.perm_middle
  · intro t ht
    cases t with
    | list id =>
      have : id ≠ h.lists.size := fun hc => ht (hc ▸ rfl)
      simp [links, Heap.items, newList_list?, this]
    | function id => rfl
    | pin id => rfl
  · intro t
    cases t <;> simp [Heap.newList, refs, Table.refs_add]
  · intro t htl ht
    cases t with
    | list id =>
      have : id ≠ h.lists.size := fun hc => ht (hc ▸ rfl)
      simpa [Live, newList_list?, this] using htl
    | function id => exact htl
    | pin id => exact htl

theorem newFunction_function? (h : Heap) (f : Function) (id : FunctionId) :
    (h.newFunction f).2.function? id =
      if id = h.functions.size then some f else h.function? id :=
  Table.get?_add ..

theorem Balanced.newFunction {f : Function} (hb : h.Balanced (.pin f.pin :: outer)) :
    (h.newFunction f).2.Balanced (.function h.functions.size :: outer) := by
  have hi : (h.newFunction f).2.links (.function h.functions.size) = [.pin f.pin] := by
    simp [links, newFunction_function?]
  refine Balanced.add (by rwa [hi]) (by simp [Live, function?, Table.get?_size]) ?_ ?_ ?_ ?_
  · simp only [things, Heap.newFunction, Table.size_add, List.range_succ, List.map_append,
      List.append_assoc, List.map_cons, List.map_nil, List.singleton_append]
    exact (List.Perm.append_left _ List.perm_middle).trans List.perm_middle
  · intro t ht
    cases t with
    | list id => rfl
    | function id =>
      have : id ≠ h.functions.size := fun hc => ht (hc ▸ rfl)
      simp [links, newFunction_function?, this]
    | pin id => rfl
  · intro t
    cases t <;> simp [Heap.newFunction, refs, Table.refs_add]
  · intro t htl ht
    cases t with
    | list id => exact htl
    | function id =>
      have : id ≠ h.functions.size := fun hc => ht (hc ▸ rfl)
      simpa [Live, newFunction_function?, this] using htl
    | pin id => exact htl

theorem newPin_pin? (h : Heap) (p : Pin) (id : PinId) :
    (h.newPin p).2.pin? id = if id = h.pins.size then some p else h.pin? id :=
  Table.get?_add ..

theorem Balanced.newPin {p : Pin} (hb : h.Balanced (p.refs ++ outer)) :
    (h.newPin p).2.Balanced (.pin h.pins.size :: outer) := by
  have hi : (h.newPin p).2.links (.pin h.pins.size) = p.refs := by
    simp [links, newPin_pin?]
  refine Balanced.add (by rwa [hi]) (by simp [Live, pin?, Table.get?_size]) ?_ ?_ ?_ ?_
  · simp only [things, Heap.newPin, Table.size_add, List.range_succ, List.map_append,
      List.map_cons, List.map_nil, ← List.append_assoc]
    exact List.perm_append_comm
  · intro t ht
    cases t with
    | list id => rfl
    | function id => rfl
    | pin id =>
      have : id ≠ h.pins.size := fun hc => ht (hc ▸ rfl)
      simp [links, newPin_pin?, this]
  · intro t
    cases t <;> simp [Heap.newPin, refs, Table.refs_add]
  · intro t htl ht
    cases t with
    | list id => exact htl
    | function id => exact htl
    | pin id =>
      have : id ≠ h.pins.size := fun hc => ht (hc ▸ rfl)
      simpa [Live, newPin_pin?, this] using htl

/-- The heap with other items in a list. -/
def change (h : Heap) (id : ListId) (f : Array Value → Array Value) : Heap :=
  { h with lists := h.lists.modify id f }

theorem change_list? (h : Heap) (id j : ListId) (f : Array Value → Array Value) :
    (h.change id f).list? j = if id = j then (h.list? j).map f else h.list? j :=
  Table.get?_modify ..

theorem change_live (h : Heap) (id : ListId) (f : Array Value → Array Value) (t : Ref) :
    (h.change id f).Live t ↔ h.Live t := by
  cases t with
  | list j =>
    simp only [Live, change_list?]
    split <;> simp
  | function j => rfl
  | pin j => rfl

theorem Balanced.change (hb : h.Balanced outer) {id : ListId} {xs : Array Value}
    (hx : h.list? id = some xs) {f : Array Value → Array Value} {outer' : List Ref}
    (he : ∀ r, outer'.count r + (Value.refs (f xs).toList).count r =
      outer.count r + (Value.refs xs.toList).count r) :
    (h.change id f).Balanced outer' := by
  have hrefs (t : Ref) : (h.change id f).refs t = h.refs t := by
    cases t <;> simp [Heap.change, refs, Table.refs_modify]
  refine hb.of_count (fun t => ?_) fun t ht => ?_
  · have hlive : h.Live (.list id) := Option.isSome_iff_exists.mpr ⟨xs, hx⟩
    have hc := count_flatMap_change (nodup_things h) (mem_things hlive) (f := h.links)
      (g := (h.change id f).links) (fun u _ hu => ?_) t
    · have hold : h.links (.list id) = Value.refs xs.toList := by simp [links, Heap.items, hx]
      have hnew : (h.change id f).links (.list id) = Value.refs (f xs).toList := by
        simp [links, Heap.items, change_list?, hx]
      have hthings : (h.change id f).things = h.things := by
        simp [things, Heap.change, Table.size_modify]
      have := he t
      rw [hold, hnew] at hc
      simp only [hrefs, inner, hthings]
      omega
    · cases u with
      | list j =>
        have : id ≠ j := fun hc => hu (hc ▸ rfl)
        simp [links, Heap.items, change_list?, this]
      | function j => rfl
      | pin j => rfl
  · rw [hrefs]
    exact hb.used t ((change_live h id f t).mp ht)

end Heap

end Scriptlet
