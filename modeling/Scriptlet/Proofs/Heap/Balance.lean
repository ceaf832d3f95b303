import Scriptlet.Proofs.Heap.Table
import Scriptlet.Store.Heap

/-!
# Counts of references

A heap is balanced against a list of references from outside when every count
is the number of references there are, from outside and from the things that
are still there, and nothing stays without one. Each operation on the heap
moves references between the heap and the outside, and keeps the balance.
-/

set_option autoImplicit false

namespace Scriptlet

theorem count_flatMap_change {α β : Type} [DecidableEq β] {l : List α} (hn : l.Nodup) {a : α}
    (ha : a ∈ l) {f g : α → List β} (hfg : ∀ t ∈ l, t ≠ a → g t = f t) (x : β) :
    (l.flatMap g).count x + (f a).count x = (l.flatMap f).count x + (g a).count x := by
  induction l with
  | nil => simp at ha
  | cons b l ih =>
    obtain ⟨hb, hl⟩ := List.nodup_cons.mp hn
    simp only [List.flatMap_cons, List.count_append]
    by_cases hab : a = b
    · subst hab
      have : l.flatMap g = l.flatMap f := by
        apply List.flatMap_congr
        intro t ht
        exact hfg t (by simp [ht]) (fun h => hb (h ▸ ht))
      rw [this]
      omega
    · have hm : a ∈ l := by simpa [hab] using ha
      have := ih hl hm (fun t ht => hfg t (by simp [ht]))
      rw [hfg b (by simp) (Ne.symm hab)]
      omega

namespace Heap

/-- Whether a thing is still there. -/
def Live (h : Heap) : Ref → Prop
  | .list id => (h.list? id).isSome
  | .function id => (h.function? id).isSome
  | .pin id => (h.pin? id).isSome

/-- The references that a thing holds; none if it is gone. -/
def links (h : Heap) : Ref → List Ref
  | .list id => Value.refs (h.items id).toList
  | .function id => ((h.function? id).map fun f => Ref.pin f.pin).toList
  | .pin id => ((h.pin? id).map Pin.refs).getD []

/-- All things there have ever been. -/
def things (h : Heap) : List Ref :=
  (List.range h.lists.size).map Ref.list ++ ((List.range h.functions.size).map Ref.function ++
    (List.range h.pins.size).map Ref.pin)

/-- All references that the things in the heap hold. -/
def inner (h : Heap) : List Ref := h.things.flatMap h.links

structure Balanced (h : Heap) (outer : List Ref) : Prop where
  counted : ∀ r, h.refs r = outer.count r + h.inner.count r
  used : ∀ r, h.Live r → 0 < h.refs r

/-- Nothing is new and nothing has changed, though things may be gone. -/
structure Shrinks (h h' : Heap) : Prop where
  lists_size : h'.lists.size = h.lists.size
  functions_size : h'.functions.size = h.functions.size
  pins_size : h'.pins.size = h.pins.size
  list : ∀ id xs, h'.list? id = some xs → h.list? id = some xs
  function : ∀ id f, h'.function? id = some f → h.function? id = some f
  pin : ∀ id p, h'.pin? id = some p → h.pin? id = some p

theorem Shrinks.refl (h : Heap) : h.Shrinks h :=
  ⟨rfl, rfl, rfl, fun _ _ => id, fun _ _ => id, fun _ _ => id⟩

theorem Shrinks.trans {h h' h'' : Heap} (a : h.Shrinks h') (b : h'.Shrinks h'') :
    h.Shrinks h'' :=
  ⟨b.lists_size.trans a.lists_size, b.functions_size.trans a.functions_size,
    b.pins_size.trans a.pins_size, fun id xs h => a.list id xs (b.list id xs h),
    fun id f h => a.function id f (b.function id f h), fun id p h => a.pin id p (b.pin id p h)⟩

theorem refs_of_gone {h : Heap} {r : Ref} (hr : ¬ h.Live r) : h.refs r = 0 := by
  cases r <;> exact Table.refs_eq_zero (by simpa [Live, list?, function?, pin?] using hr)

theorem links_of_gone {h : Heap} {r : Ref} (hr : ¬ h.Live r) : h.links r = [] := by
  cases r <;> simp_all [Live, links, items, Value.refs]

theorem mem_things {h : Heap} {r : Ref} (hr : h.Live r) : r ∈ h.things := by
  cases r <;> obtain ⟨x, hx⟩ := Option.isSome_iff_exists.mp hr <;>
    simpa [things] using Table.lt_size hx

theorem nodup_things (h : Heap) : h.things.Nodup := by
  refine List.Nodup.append (List.nodup_range.map fun a b h => by simpa using h)
    (List.Nodup.append (List.nodup_range.map fun a b h => by simpa using h)
      (List.nodup_range.map fun a b h => by simpa using h) ?_) ?_ <;>
    simp [List.disjoint_left]

theorem mem_inner {h : Heap} {r : Ref} : r ∈ h.inner ↔ ∃ t, h.Live t ∧ r ∈ h.links t := by
  constructor
  · intro hr
    obtain ⟨t, -, ht⟩ := List.mem_flatMap.mp hr
    by_contra hn
    have : ¬ h.Live t := fun hl => hn ⟨t, hl, ht⟩
    simp [links_of_gone this] at ht
  · rintro ⟨t, hl, ht⟩
    exact List.mem_flatMap.mpr ⟨t, mem_things hl, ht⟩

namespace Shrinks

variable {h h' : Heap}

theorem things_eq (hs : h.Shrinks h') : h'.things = h.things := by
  simp [things, hs.lists_size, hs.functions_size, hs.pins_size]

theorem live (hs : h.Shrinks h') {r : Ref} (hr : h'.Live r) : h.Live r := by
  cases r <;> obtain ⟨x, hx⟩ := Option.isSome_iff_exists.mp hr
  · exact Option.isSome_iff_exists.mpr ⟨x, hs.list _ _ hx⟩
  · exact Option.isSome_iff_exists.mpr ⟨x, hs.function _ _ hx⟩
  · exact Option.isSome_iff_exists.mpr ⟨x, hs.pin _ _ hx⟩

theorem links_eq (hs : h.Shrinks h') {r : Ref} (hr : h'.Live r) : h'.links r = h.links r := by
  cases r <;> obtain ⟨x, hx⟩ := Option.isSome_iff_exists.mp hr
  · simp [links, items, hx, hs.list _ _ hx]
  · simp [links, hx, hs.function _ _ hx]
  · simp [links, hx, hs.pin _ _ hx]

end Shrinks

namespace Balanced

variable {h : Heap} {outer : List Ref}

theorem live_of_outer (hb : h.Balanced outer) {r : Ref} (hr : r ∈ outer) : h.Live r := by
  by_contra hn
  have hc := hb.counted r
  rw [refs_of_gone hn] at hc
  have := List.count_pos_iff.mpr hr
  omega

theorem live_of_inner (hb : h.Balanced outer) {r : Ref} (hr : r ∈ h.inner) : h.Live r := by
  by_contra hn
  have hc := hb.counted r
  rw [refs_of_gone hn] at hc
  have := List.count_pos_iff.mpr hr
  omega

/-- Whatever is still there is referred to from outside or by something that is still there. -/
theorem mem_of_live (hb : h.Balanced outer) {r : Ref} (hr : h.Live r) :
    r ∈ outer ∨ r ∈ h.inner := by
  have hu := hb.used r hr
  rw [hb.counted r] at hu
  rcases Nat.eq_zero_or_pos (outer.count r) with ho | ho
  · exact .inr (List.count_pos_iff.mp (by omega))
  · exact .inl (List.count_pos_iff.mp ho)

theorem congr (hb : h.Balanced outer) {outer' : List Ref}
    (he : ∀ r, outer'.count r = outer.count r) : h.Balanced outer' :=
  ⟨fun r => by rw [hb.counted r, he r], hb.used⟩

end Balanced

end Heap

end Scriptlet
