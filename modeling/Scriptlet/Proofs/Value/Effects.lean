import Scriptlet.Proofs.Store.Operations
import Scriptlet.Value.Builtin

/-!
# What operators and built-in functions hand out

A result is a number, a text, or a value that an operand gave access to: the
operand itself or an item of a list. So it refers to nothing that is gone, and
making it keeps a store sound.
-/

set_option autoImplicit false

namespace Scriptlet

/-- A value that refers to nothing, is one of these, or is an item of a list among these. -/
def Known (h : Heap) (vs : List Value) (v : Value) : Prop :=
  v.ref? = none ∨ v ∈ vs ∨ ∃ id, Value.list id ∈ vs ∧ v ∈ (h.items id).toList

def Computed.values : Computed → List Value
  | .value v => [v]
  | .fresh items => items.toList

variable {h : Heap} {s : Store} {outer : List Ref} {vs : List Value}

theorem Store.Sound.live_known (hs : s.Sound outer) (hvs : ∀ r ∈ Value.refs vs, s.heap.Live r)
    {v : Value} (hv : Known s.heap vs v) : ∀ r ∈ v.ref?, s.heap.Live r := by
  intro r hr
  rcases hv with hn | hm | ⟨id, -, hm⟩
  · simp [hn] at hr
  · exact hvs r (Value.mem_refs.mpr ⟨v, hm, hr⟩)
  · exact hs.live_item hm hr

theorem resolveIndex_lt {index : Int64} {n i : Nat} (h : resolveIndex index n = .ok i) :
    i < n := by
  simp only [resolveIndex] at h
  generalize (if index < 0 then index.toInt + n else index.toInt) = k at h
  by_cases hk : 0 ≤ k ∧ k < n
  · rw [if_pos hk] at h
    have := Except.ok.inj h
    omega
  · simp [if_neg hk] at h

theorem resolveIndex_error {index : Int64} {n : Nat} {fault : Fault}
    (h : resolveIndex index n = .error fault) : fault = .indexOutOfRange index n := by
  simp only [resolveIndex] at h
  generalize (if index < 0 then index.toInt + n else index.toInt) = k at h
  by_cases hk : 0 ≤ k ∧ k < n
  · simp [if_pos hk] at h
  · rw [if_neg hk] at h
    exact (Except.error.inj h).symm

theorem known_itemAt {id : ListId} (hid : Value.list id ∈ vs) (i : Nat) :
    Known h vs (Operator.itemAt (h.items id) i) := by
  by_cases hi : i < (h.items id).size
  · exact .inr (.inr ⟨id, hid, by simp [Operator.itemAt, hi]⟩)
  · exact .inl (by simp [Operator.itemAt, hi, Value.ref?])

namespace Operator

theorem numbers_known {op : BinaryOp} {m n : Number} {c : Computed} (hc : numbers op m n = .ok c) :
    ∀ v ∈ c.values, v.ref? = none := by
  simp only [numbers] at hc
  split at hc
  · rename_i o _
    obtain rfl := Except.ok.inj hc
    cases o <;> simp [Computed.values, Outcome.value, Value.truth, Value.int, Value.ref?]
  · simp at hc

theorem texts_known {op : BinaryOp} {x y : String} {c : Computed} (hc : texts op x y = .ok c) :
    ∀ v ∈ c.values, v.ref? = none := by
  unfold texts at hc
  split at hc
  · obtain rfl := Except.ok.inj hc
    simp [Computed.values, Value.ref?]
  · split at hc
    · obtain rfl := Except.ok.inj hc
      simp [Computed.values, Value.truth, Value.int, Value.ref?]
    · simp at hc

theorem repeatText_known {x : String} {n : Int64} {c : Computed} (hc : repeatText x n = .ok c) :
    ∀ v ∈ c.values, v.ref? = none := by
  simp only [repeatText] at hc
  split at hc
  · obtain rfl := Except.ok.inj hc
    simp [Computed.values, Value.ref?]
  · simp at hc

theorem lists_known {op : BinaryOp} {id : ListId} {b : Value} {c : Computed}
    (hc : lists h op id b = .ok c) : ∀ v ∈ c.values, Known h [.list id, b] v := by
  have hitem {v : Value} (hv : v ∈ (h.items id).toList) : Known h [.list id, b] v :=
    .inr (.inr ⟨id, by simp, hv⟩)
  have htruth (t : Bool) : ∀ v ∈ (Computed.value (.truth t)).values, Known h [.list id, b] v := by
    intro v hv
    obtain rfl := List.mem_singleton.mp hv
    exact .inl rfl
  unfold lists at hc
  split at hc
  · obtain rfl := Except.ok.inj hc
    intro v hv
    have hv' : v ∈ (h.items id).toList ∨ v = b := by simpa [Computed.values] using hv
    rcases hv' with hv | rfl
    · exact hitem hv
    · exact .inr (.inl (by simp))
  · obtain rfl := Except.ok.inj hc
    intro v hv
    rcases List.mem_append.mp (by simpa only [Computed.values, Array.toList_append] using hv)
      with hv | hv
    · exact hitem hv
    · exact .inr (.inr ⟨_, by simp, hv⟩)
  · simp only at hc
    split at hc
    · obtain rfl := Except.ok.inj hc
      intro v hv
      simp only [Computed.values, Array.toList_eraseIdxIfInBounds] at hv
      exact hitem (List.mem_of_mem_eraseIdx hv)
    · simp at hc
  · simp only at hc
    split at hc
    · obtain rfl := Except.ok.inj hc
      intro v hv
      obtain rfl := List.mem_singleton.mp hv
      exact known_itemAt (by simp) _
    · simp at hc
  · obtain rfl := Except.ok.inj hc
    exact htruth _
  · obtain rfl := Except.ok.inj hc
    exact htruth _
  · simp at hc

theorem binary_known {op : BinaryOp} {a b : Value} {c : Computed} (hc : binary h op a b = .ok c) :
    ∀ v ∈ c.values, Known h [a, b] v := by
  have htruth (t : Bool) : ∀ v ∈ (Computed.value (.truth t)).values, Known h [a, b] v := by
    intro v hv
    obtain rfl := List.mem_singleton.mp hv
    exact .inl rfl
  unfold binary at hc
  split at hc
  · exact fun v hv => .inl (numbers_known hc v hv)
  · exact fun v hv => .inl (texts_known hc v hv)
  · exact lists_known hc
  · split at hc
    · exact fun v hv => .inl (repeatText_known hc v hv)
    · obtain rfl := Except.ok.inj hc
      exact htruth _
    · obtain rfl := Except.ok.inj hc
      exact htruth _
    · simp at hc

theorem unary_known {op : UnaryOp} {v w : Value} (hw : unary h op v = .ok w) : w.ref? = none := by
  unfold unary at hw
  split at hw
  · obtain rfl := Except.ok.inj hw
    simp [Value.truth, Value.int, Value.ref?]
  · obtain rfl := Except.ok.inj hw
    rfl
  · obtain rfl := Except.ok.inj hw
    rfl
  · simp at hw

theorem index_known {target place v : Value} (hv : index h target place = .ok v) :
    Known h [target, place] v := by
  unfold index at hv
  split at hv
  · simp only at hv
    split at hv
    · obtain rfl := Except.ok.inj hv
      exact known_itemAt (by simp) _
    · simp at hv
  · simp only at hv
    split at hv
    · obtain rfl := Except.ok.inj hv
      exact .inl rfl
    · simp at hv
  · simp at hv

end Operator

namespace Store

/-! ## Making results -/

theorem Sound.keepAll (hs : s.Sound outer) (hv : ∀ r ∈ Value.refs vs, s.heap.Live r) :
    (s.keepAll vs).Sound (Value.refs vs ++ outer) :=
  hs.of_shrinks (s.heap.keepAll_shrinks vs) ((hs.balanced.keepAll hv).congr fun r => by simp)

theorem keepAll_steady (s : Store) (vs : List Value) : s.Steady (s.keepAll vs) :=
  s.steady_of_shrinks (s.heap.keepAll_shrinks vs)

theorem Sound.make (hs : s.Sound outer) {c : Computed}
    (hc : ∀ r ∈ Value.refs c.values, s.heap.Live r) :
    ({ s with heap := (s.heap.make c).2 } : Store).Sound ((s.heap.make c).1.ref?.toList ++ outer) ∧
      s.Steady { s with heap := (s.heap.make c).2 } := by
  cases c with
  | value v =>
    refine ⟨hs.keep fun r hr => hc r ?_, keep_steady s v⟩
    simpa [Computed.values] using hr
  | fresh items =>
    have hk := hs.keepAll hc
    refine ⟨?_, (keepAll_steady s items.toList).trans (newList_steady _ items)⟩
    exact (hk.newList).congr fun r => by simp [Heap.make, Heap.newList, Value.ref?]; rfl

/-! ## Built-in functions -/

def resultRefs (e : Effect) : List Ref :=
  match e.result with
  | .ok v => v.ref?.toList
  | .error _ => []

theorem Sound.appendAll (hs : s.Sound outer) {id : ListId} (hid : s.heap.Live (.list id))
    {vs : Array Value} (hv : ∀ r ∈ Value.refs vs.toList, s.heap.Live r) :
    ({ s with heap := Builtin.appendAll s.heap id vs } : Store).Sound outer ∧
      s.Steady { s with heap := Builtin.appendAll s.heap id vs } := by
  have hk := hs.keepAll hv
  obtain ⟨xs, hx⟩ := Option.isSome_iff_exists.mp ((Heap.keepAll_live s.heap vs.toList _).mpr hid)
  exact ⟨hk.change hx fun r => by simp; omega,
    (keepAll_steady s vs.toList).trans (change_steady _ id _)⟩

theorem Sound.popAt (hs : s.Sound outer) {id : ListId} (hid : s.heap.Live (.list id))
    (index : Int64) :
    ({ s with heap := (Builtin.popAt s.heap id index).heap } : Store).Sound
        (resultRefs (Builtin.popAt s.heap id index) ++ outer) ∧
      s.Steady { s with heap := (Builtin.popAt s.heap id index).heap } := by
  obtain ⟨xs, hx⟩ := Option.isSome_iff_exists.mp hid
  have hitems : s.heap.items id = xs := by
    have : s.heap.list? id = some xs := hx
    simp [Heap.items, this]
  unfold Builtin.popAt
  rw [hitems]
  simp only
  split
  · exact ⟨hs, .refl s⟩
  · rename_i i hi
    have hlt : i < xs.toList.length := resolveIndex_lt hi
    refine ⟨hs.change hx fun r => ?_, change_steady s id _⟩
    have hperm := Value.refs_perm (List.getElem_cons_eraseIdx_perm hlt)
    have hcount := hperm.count_eq r
    simp only [Value.refs_cons, List.count_append, Array.getElem_toList] at hcount
    simp only [resultRefs, Builtin.give, Operator.itemAt, Array.getD_eq_getD_getElem?,
      Array.getElem?_eq_getElem hlt, Option.getD_some, List.count_append,
      Array.toList_eraseIdxIfInBounds]
    omega

theorem Sound.builtin (hs : s.Sound outer) (b : Builtin) {args : List Value}
    (ha : ∀ r ∈ Value.refs args, s.heap.Live r) :
    ({ s with heap := (b.apply s.heap args).heap } : Store).Sound
        (resultRefs (b.apply s.heap args) ++ outer) ∧
      s.Steady { s with heap := (b.apply s.heap args).heap } := by
  unfold Builtin.apply
  split
  case h_7 id v =>
    exact hs.appendAll (ha _ (by simp [Value.ref?])) fun r hr => ha r (by simp at hr; simp [hr])
  case h_9 id other =>
    refine hs.appendAll (ha _ (by simp [Value.ref?])) fun r hr => ?_
    obtain ⟨v, hv, hvr⟩ := Value.mem_refs.mp hr
    exact hs.live_item hv hvr
  case h_11 id i => exact hs.popAt (ha _ (by simp [Value.ref?])) i
  all_goals exact ⟨hs, .refl s⟩

end Store

end Scriptlet
