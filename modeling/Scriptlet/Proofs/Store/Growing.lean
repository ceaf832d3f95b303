import Scriptlet.Proofs.Value.Effects

/-!
# Stores that only grow

What is computed from values changes nothing that is there. All scopes and
their bindings stay, and so does every list with its items, every function and
every pin; what comes is lists under new numbers. What is let go of again is
only what has been held since.
-/

set_option autoImplicit false

namespace Scriptlet

namespace Operator

theorem lists_fresh {h : Heap} {op : BinaryOp} {id : ListId} {b : Value} {c : Computed}
    (hop : op = .add ∨ op = .mul ∨ op = .sub) (hc : lists h op id b = .ok c) :
    ∃ items, c = .fresh items := by
  rcases hop with rfl | rfl | rfl
  · exact ⟨_, (Except.ok.inj hc).symm⟩
  · cases b with
    | list other => exact ⟨_, (Except.ok.inj hc).symm⟩
    | _ => cases hc
  · cases b with
    | number n =>
      cases n with
      | int i =>
        simp only [lists] at hc
        split at hc
        · exact ⟨_, (Except.ok.inj hc).symm⟩
        · cases hc
      | float x => cases hc
    | _ => cases hc

/-- What `+`, `*` and `-` hand out as it is refers to nothing. -/
theorem binary_plain {h : Heap} {op : BinaryOp} {a b v : Value}
    (hop : op = .add ∨ op = .mul ∨ op = .sub) (hv : binary h op a b = .ok (.value v)) :
    v.ref? = none := by
  have hmem : v ∈ (Computed.value v).values := List.mem_singleton_self v
  unfold binary at hv
  split at hv
  · exact numbers_known hv v hmem
  · exact texts_known hv v hmem
  · obtain ⟨items, he⟩ := lists_fresh hop hv
    cases he
  · split at hv
    · exact repeatText_known hv v hmem
    · cases hv
      rfl
    · cases hv
      rfl
    · cases hv

end Operator

namespace Heap

/-- Nothing has gone or changed, and nothing is new but lists. -/
structure Grows (h k : Heap) : Prop where
  lists_size : h.lists.size ≤ k.lists.size
  functions_size : k.functions.size = h.functions.size
  pins_size : k.pins.size = h.pins.size
  list : ∀ id < h.lists.size, k.list? id = h.list? id
  function : ∀ f, k.function? f = h.function? f
  pin : ∀ p, k.pin? p = h.pin? p

variable {h k l : Heap}

namespace Grows

theorem refl (h : Heap) : h.Grows h :=
  ⟨le_rfl, rfl, rfl, fun _ _ => rfl, fun _ => rfl, fun _ => rfl⟩

theorem trans (a : h.Grows k) (b : k.Grows l) : h.Grows l :=
  ⟨a.lists_size.trans b.lists_size, b.functions_size.trans a.functions_size,
    b.pins_size.trans a.pins_size,
    fun id hlt => (b.list id (hlt.trans_le a.lists_size)).trans (a.list id hlt),
    fun f => (b.function f).trans (a.function f), fun p => (b.pin p).trans (a.pin p)⟩

theorem live (hg : h.Grows k) {r : Ref} (hr : h.Live r) : k.Live r := by
  cases r with
  | list id =>
    obtain ⟨xs, hx⟩ := Option.isSome_iff_exists.mp hr
    exact Option.isSome_iff_exists.mpr ⟨xs, (hg.list id (Table.lt_size hx)).trans hx⟩
  | function f =>
    obtain ⟨fn, hf⟩ := Option.isSome_iff_exists.mp hr
    exact Option.isSome_iff_exists.mpr ⟨fn, (hg.function f).trans hf⟩
  | pin p =>
    obtain ⟨q, hq⟩ := Option.isSome_iff_exists.mp hr
    exact Option.isSome_iff_exists.mpr ⟨q, (hg.pin p).trans hq⟩

theorem links_eq (hg : h.Grows k) {r : Ref} (hr : h.Live r) : k.links r = h.links r := by
  cases r with
  | list id =>
    obtain ⟨xs, hx⟩ := Option.isSome_iff_exists.mp hr
    simp only [links, items, hg.list id (Table.lt_size hx)]
  | function f => simp only [links, hg.function f]
  | pin p => simp only [links, hg.pin p]

/-- More may go, as long as all that was there at first stays. -/
theorem of_shrinks (hg : h.Grows k) (hs : k.Shrinks l) (hl : ∀ r, h.Live r → l.Live r) :
    h.Grows l := by
  refine ⟨hs.lists_size ▸ hg.lists_size, hs.functions_size.trans hg.functions_size,
    hs.pins_size.trans hg.pins_size, fun id hlt => ?_, fun f => ?_, fun p => ?_⟩
  · cases hx : l.list? id with
    | some xs => rw [← hg.list id hlt, hs.list id xs hx]
    | none =>
      by_contra hne
      have hlive := hl (.list id) (Option.isSome_iff_ne_none.mpr (Ne.symm hne))
      simp [Live, hx] at hlive
  · cases hf : l.function? f with
    | some fn => rw [← hg.function f, hs.function f fn hf]
    | none =>
      by_contra hne
      have hlive := hl (.function f) (Option.isSome_iff_ne_none.mpr (Ne.symm hne))
      simp [Live, hf] at hlive
  · cases hp : l.pin? p with
    | some q => rw [← hg.pin p, hs.pin p q hp]
    | none =>
      by_contra hne
      have hlive := hl (.pin p) (Option.isSome_iff_ne_none.mpr (Ne.symm hne))
      simp [Live, hp] at hlive

end Grows

theorem grows_keep (h : Heap) (v : Value) : h.Grows (h.keep v) :=
  (Grows.refl h).of_shrinks (h.keep_shrinks v) fun r => (keep_live h v r).mpr

theorem grows_keepAll (h : Heap) (vs : List Value) : h.Grows (h.keepAll vs) :=
  (Grows.refl h).of_shrinks (h.keepAll_shrinks vs) fun r => (keepAll_live h vs r).mpr

theorem grows_newList (h : Heap) (items : Array Value) : h.Grows (h.newList items).2 := by
  refine ⟨?_, rfl, rfl, fun id hlt => ?_, fun _ => rfl, fun _ => rfl⟩
  · exact (Nat.le_succ _).trans_eq (Table.size_add ..).symm
  · rw [newList_list?, if_neg hlt.ne]

/-- No result changes an operand, or anything else that is there. -/
theorem grows_make (h : Heap) (c : Computed) : h.Grows (h.make c).2 := by
  cases c with
  | value v => exact h.grows_keep v
  | fresh items => exact (h.grows_keepAll items.toList).trans (grows_newList _ items)

/-- A list that is the result of `+`, `*` or `-` is a new one. -/
theorem make_fresh {op : BinaryOp} {a b : Value} {c : Computed} {id : ListId}
    (hop : op = .add ∨ op = .mul ∨ op = .sub) (hc : Operator.binary h op a b = .ok c)
    (hv : (h.make c).1 = .list id) : id = h.lists.size := by
  cases c with
  | fresh items =>
    have hnext : (h.keepAll items.toList).lists.size = id := Value.list.inj hv
    rw [← hnext, (h.keepAll_shrinks items.toList).lists_size]
  | value v =>
    obtain rfl : v = .list id := hv
    cases Operator.binary_plain hop hc

/-! ## What goes -/

/-- Lists that are still there hold what they held. -/
def SparesItems (h k : Heap) : Prop :=
  ∀ id < h.lists.size, ∀ xs, k.list? id = some xs → h.list? id = some xs

theorem SparesItems.of_grows_shrinks (hg : h.Grows k) (hs : k.Shrinks l) : h.SparesItems l :=
  fun id hlt xs hx => hg.list id hlt ▸ hs.list id xs hx

theorem shrinks_releaseFor (rounds : Nat) (rs : List Ref) (h : Heap) :
    h.Shrinks (releaseFor rounds rs h) := by
  induction rounds generalizing rs h with
  | zero => cases rs <;> exact .refl h
  | succ rounds ih =>
    cases rs with
    | nil => exact .refl h
    | cons r rs => exact (unlinkAll_shrinks (r :: rs) h).trans (ih _ _)

/-- Whatever is let go of, what stays is as it was. -/
theorem shrinks_dropAll (h : Heap) (vs : List Value) : h.Shrinks (h.dropAll vs) := by
  rcases dropAll_eq_release h vs with ⟨he, -⟩ | he
  · rw [he]
    exact .refl h
  · rw [he]
    exact shrinks_releaseFor ..

end Heap

namespace Store

/-- The scopes, with their bindings and all that is told about them, are the same, and of what they
could refer to nothing has gone or changed. -/
structure Grows (s t : Store) : Prop where
  same : t = { s with heap := t.heap }
  heap : s.heap.Grows t.heap

variable {b s t u : Store} {outer : List Ref} {vs : List Value}

namespace Grows

theorem of_heap {k : Heap} (hk : s.heap.Grows k) : s.Grows { s with heap := k } := ⟨rfl, hk⟩

theorem refl (s : Store) : s.Grows s := .of_heap (.refl _)

theorem trans (a : s.Grows t) (b : t.Grows u) : s.Grows u := by
  obtain ⟨he, hg⟩ := b
  have hsame : { t with heap := u.heap } = { s with heap := u.heap } := by rw [a.same]
  exact ⟨he.trans hsame, a.heap.trans hg⟩

theorem boundRefs (hg : s.Grows t) : t.boundRefs = s.boundRefs := by
  rw [hg.same]
  rfl

theorem get? (hg : s.Grows t) (id : ScopeId) (name : String) : t.get? id name = s.get? id name := by
  have hfor (reach : Nat) (id : ScopeId) : t.getFor name reach id = s.getFor name reach id := by
    rw [hg.same]
    induction reach generalizing id with
    | zero => rfl
    | succ reach ih => simp only [getFor, scope?, ih]
  rw [Store.get?, Store.get?, hfor, hg.same]

/-- All that was there stays when values are let go of, if what held it is still counted. -/
theorem dropAll {kept : List Ref} (hg : b.Grows s) (hb : b.Sound outer) (ho : outer ⊆ kept)
    (hs : s.Sound (Value.refs vs ++ kept)) : b.Grows (s.dropAll vs) := by
  have hbalanced : s.heap.Balanced (Value.refs vs ++ (kept ++ s.boundRefs)) := by
    simpa using hs.balanced
  have hsupported : s.heap.Supported (kept ++ s.boundRefs) b.heap.Live := by
    intro r hr
    refine ⟨hg.heap.live hr, (hb.balanced.mem_of_live hr).imp (fun hr => ?_) fun hr => ?_⟩
    · rw [hg.boundRefs]
      exact List.mem_append.mpr ((List.mem_append.mp hr).imp_left fun hr => ho hr)
    · obtain ⟨t, ht, htr⟩ := Heap.mem_inner.mp hr
      exact ⟨t, ht, hg.heap.links_eq ht ▸ htr⟩
  have hstays := hsupported.dropAll hbalanced
  refine ⟨?_, hg.heap.of_shrinks (s.heap.shrinks_dropAll vs) fun r hr => (hstays r hr).1⟩
  rw [Store.dropAll, hg.same]

end Grows

end Store

end Scriptlet
