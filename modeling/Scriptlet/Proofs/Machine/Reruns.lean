import Scriptlet.Proofs.Machine.Evaluation
import Scriptlet.Proofs.Store.Growing
import Scriptlet.Proofs.Value.Shifted

/-!
# Doing the same again

Something is done twice, the second time in a state where nothing has gone or
changed since the first, though there may be more lists. Both times go side by
side, from stores whose new lists are fellows, and come to fellows again.
-/

set_option autoImplicit false

namespace Scriptlet

/-! ## Stores with values in hand -/

/-- A store that has all that another has, and counts exactly if some values are held besides what
holds the other. -/
structure Store.Ahead (b : Store) (outer : List Ref) (vs : List Value) (s : Store) : Prop where
  grows : b.Grows s
  sound : s.Sound (Value.refs vs ++ outer)

namespace Store.Ahead

variable {b s : Store} {outer : List Ref} {v : Value} {vs ws : List Value}

theorem base (hb : b.Sound outer) : b.Ahead outer [] b := ⟨.refl b, hb⟩

theorem perm (h : b.Ahead outer vs s) (hp : vs.Perm ws) : b.Ahead outer ws s :=
  ⟨h.grows, h.sound.congr fun r => by simp [(Value.refs_perm hp).count_eq r]⟩

theorem there (h : b.Ahead outer vs s) (hv : v ∈ vs) : There s.heap v := fun _ hr =>
  h.sound.live_outer (List.mem_append_left _ (Value.mem_refs.mpr ⟨v, hv, hr⟩))

theorem plain (h : b.Ahead outer vs s) (hv : v.ref? = none) : b.Ahead outer (v :: vs) s :=
  ⟨h.grows, h.sound.congr fun r => by simp [hv]⟩

theorem keep (h : b.Ahead outer vs s) (hv : There s.heap v) : b.Ahead outer (v :: vs) (s.keep v) :=
  ⟨h.grows.trans (.of_heap (s.heap.grows_keep v)),
    (h.sound.keep hv).congr fun r => by simp⟩

theorem dropAll (hb : b.Sound outer) (h : b.Ahead outer (vs ++ ws) s) :
    b.Ahead outer ws (s.dropAll vs) := by
  have hs : s.Sound (Value.refs vs ++ (Value.refs ws ++ outer)) := by
    simpa using h.sound
  exact ⟨h.grows.dropAll hb (List.subset_append_right ..) hs, hs.dropAll⟩

theorem newList {items : Array Value} (h : b.Ahead outer (items.toList ++ vs) s) :
    b.Ahead outer ((s.newList items).1 :: vs) (s.newList items).2 := by
  refine ⟨h.grows.trans (.of_heap (s.heap.grows_newList items)), ?_⟩
  have hs : s.Sound (Value.refs items.toList ++ (Value.refs vs ++ outer)) := by
    simpa using h.sound
  exact hs.newList.congr fun r => by simp [Store.newList, Heap.newList, Value.ref?]

theorem make {c : Computed} (h : b.Ahead outer vs s) (hc : ∀ v ∈ c.values, There s.heap v) :
    b.Ahead outer ((s.heap.make c).1 :: vs) { s with heap := (s.heap.make c).2 } := by
  refine ⟨h.grows.trans (.of_heap (s.heap.grows_make c)), ?_⟩
  have hlive : ∀ r ∈ Value.refs c.values, s.heap.Live r := fun r hr => by
    obtain ⟨v, hv, hvr⟩ := Value.mem_refs.mp hr
    exact hc v hv r hvr
  exact (h.sound.make hlive).1.congr fun r => by simp

end Store.Ahead

namespace Machine

/-- The same calls, and the same printed text, with other things to be done. -/
def now (m : Machine) (c : Control) (stack : List Frame) (s : Store) : Machine :=
  ⟨c, stack, s, m.active, m.depth, m.printed⟩

/-- A frame that passes an error on lets go of what it holds. -/
theorem reaches_unwound {frame : Frame} (hc : frame.call? = none) (settings : Settings)
    (m : Machine) (d : Diagnostic) (stack : List Frame) (s : Store) :
    Reaches settings stack (step settings (m.now (.failed d) (frame :: stack) s))
      (m.now (.failed d) stack (s.dropAll frame.held)) := by
  change Reaches settings stack (unwind settings (m.now (.failed d) stack s) frame) _
  rw [unwind_frame hc]
  exact .here (.of_failed rfl rfl)

end Machine

/-- A state, and one in which nothing has gone or changed since, with the same active calls. What
holds references from outside of the two stores is for each its own. -/
structure Rerun where
  first : Machine
  again : Machine
  outer : List Ref
  outer' : List Ref
  sound : first.store.Sound outer
  sound' : again.store.Sound outer'
  grows : first.store.Grows again.store
  active : again.active = first.active

namespace Rerun

/-- Lists that are made from now on have numbers further apart. -/
def shift (p : Rerun) : Shift :=
  ⟨p.first.store.heap.lists.size, p.again.store.heap.lists.size - p.first.store.heap.lists.size⟩

/-- The stores of the two, as far as they have come, with fellow values in hand. -/
structure At (p : Rerun) (vs : List Value) (s s' : Store) : Prop where
  left : p.first.store.Ahead p.outer vs s
  right : p.again.store.Ahead p.outer' (vs.map p.shift.value) s'
  parallel : s.heap.Parallel p.shift s'.heap

variable {p : Rerun} {s s' : Store} {v w : Value} {vs ws : List Value}

/-- Values that were there at first are their own fellows. -/
theorem shift_value (p : Rerun) (hv : There p.first.store.heap v) : p.shift.value v = v := by
  cases v with
  | list id =>
    obtain ⟨xs, hx⟩ := Option.isSome_iff_exists.mp (hv (.list id) rfl)
    exact congrArg Value.list (p.shift.list_fixed (Table.lt_size hx))
  | _ => rfl

theorem diagnostic (p : Rerun) (fault : Fault) (span : Span) :
    p.again.diagnostic fault span = p.first.diagnostic fault span := by
  simp only [Machine.diagnostic, Machine.source, p.active]

namespace At

theorem start (p : Rerun) : p.At [] p.first.store p.again.store := by
  have hg := p.grows.heap
  refine ⟨.base p.sound, .base p.sound', le_rfl, ?_, fun id xs ys hx hy => ?_,
    fun f fn gn hf hgn => ?_⟩
  · exact (Nat.add_sub_cancel' hg.lists_size).symm
  · have hlt : id < p.first.store.heap.lists.size := Table.lt_size hx
    rw [p.shift.list_fixed hlt, hg.list id hlt, hx] at hy
    obtain rfl := Option.some.inj hy
    have hxs : p.first.store.heap.items id = xs := by simp [Heap.items, hx]
    have hitems : ∀ v ∈ xs.toList, p.shift.value v = v := fun v hv =>
      p.shift_value (there_item p.sound.balanced (hxs ▸ hv))
    apply Array.toList_inj.mp
    rw [Array.toList_map, List.map_congr_left hitems, List.map_id']
  · rw [hg.function, hf] at hgn
    exact (Option.some.inj hgn).symm

theorem common (h : p.At vs s s') (hv : v ∈ vs) : Common p.shift s.heap s'.heap v :=
  ⟨h.left.there hv, h.right.there (List.mem_map_of_mem hv)⟩

theorem common_first (h : p.At vs s s') (hv : There p.first.store.heap v) :
    Common p.shift s.heap s'.heap v := by
  refine ⟨fun r hr => h.left.grows.heap.live (hv r hr), ?_⟩
  rw [p.shift_value hv]
  exact fun r hr => h.right.grows.heap.live (p.grows.heap.live (hv r hr))

theorem perm (h : p.At vs s s') (hp : vs.Perm ws) : p.At ws s s' :=
  ⟨h.left.perm hp, h.right.perm (hp.map _), h.parallel⟩

theorem plain (h : p.At vs s s') (hv : v.ref? = none) : p.At (v :: vs) s s' := by
  refine ⟨h.left.plain hv, h.right.plain ?_, h.parallel⟩
  rwa [p.shift.value_of_plain hv]

theorem keep (h : p.At vs s s') (hv : Common p.shift s.heap s'.heap v) :
    p.At (v :: vs) (s.keep v) (s'.keep (p.shift.value v)) :=
  ⟨h.left.keep hv.here, h.right.keep hv.fellow,
    h.parallel.of_shrinks (s.heap.keep_shrinks v) (s'.heap.keep_shrinks _)⟩

theorem dropAll (h : p.At (vs ++ ws) s s') :
    p.At ws (s.dropAll vs) (s'.dropAll (vs.map p.shift.value)) := by
  have hright := h.right
  rw [List.map_append] at hright
  exact ⟨.dropAll p.sound h.left, .dropAll p.sound' hright,
    h.parallel.of_shrinks (s.heap.shrinks_dropAll vs) (s'.heap.shrinks_dropAll _)⟩

theorem newList {items : Array Value} (h : p.At (items.toList ++ vs) s s') :
    p.At (.list s.heap.lists.size :: vs) (s.newList items).2
        (s'.newList (items.map p.shift.value)).2 ∧
      p.shift.value (.list s.heap.lists.size) = .list s'.heap.lists.size := by
  have hnext : p.shift.value (.list s.heap.lists.size) = .list s'.heap.lists.size :=
    congrArg Value.list h.parallel.next
  have hright : p.again.store.Ahead p.outer'
      ((items.map p.shift.value).toList ++ vs.map p.shift.value) s' := by
    simpa using h.right
  refine ⟨⟨h.left.newList, ?_, h.parallel.newList items⟩, hnext⟩
  rw [List.map_cons, hnext]
  exact hright.newList

/-- What values in hand give access to is there in both stores. -/
theorem known (h : p.At vs s s') (hw : ws ⊆ vs) (hv : Known s.heap ws v) :
    Common p.shift s.heap s'.heap v := by
  rcases hv with hplain | hmem | ⟨id, hid, hmem⟩
  · refine ⟨by simp [There, hplain], ?_⟩
    rw [p.shift.value_of_plain hplain]
    simp [There, hplain]
  · exact h.common (hw hmem)
  · exact h.parallel.common_item h.left.sound.balanced h.right.sound.balanced (h.common (hw hid))
      hmem

theorem make {c : Computed} (h : p.At vs s s')
    (hc : ∀ v ∈ c.values, Common p.shift s.heap s'.heap v) :
    p.At ((s.heap.make c).1 :: vs) { s with heap := (s.heap.make c).2 }
        { s' with heap := (s'.heap.make (p.shift.computed c)).2 } ∧
      p.shift.value (s.heap.make c).1 = (s'.heap.make (p.shift.computed c)).1 := by
  obtain ⟨hvalue, hparallel⟩ := h.parallel.make c
  have hfellows : ∀ v ∈ (p.shift.computed c).values, There s'.heap v := by
    intro v hv
    have hvalues : (p.shift.computed c).values = c.values.map p.shift.value := by
      cases c <;> simp [Computed.values, Shift.computed]
    obtain ⟨w, hw, rfl⟩ := List.mem_map.mp (hvalues ▸ hv)
    exact (hc w hw).fellow
  refine ⟨⟨h.left.make fun v hv => (hc v hv).here, ?_, hparallel⟩, hvalue.symm⟩
  rw [List.map_cons, ← hvalue]
  exact h.right.make hfellows

end At

/-! ## Coming to an end together -/

/-- Two states come to the end of what is to be done above their stacks, both with values that are
fellows, or with the same error. -/
inductive Meets (settings : Settings) (p : Rerun) (vs : List Value) (stack stack' : List Frame)
    (m m' : Machine) : Prop where
  | value {v : Value} {s s' : Store} (h : p.At (v :: vs) s s')
      (first : m.Reaches settings stack (p.first.now (.flow (.value v)) stack s))
      (again : m'.Reaches settings stack'
        (p.again.now (.flow (.value (p.shift.value v))) stack' s'))
  | error {d : Diagnostic} {s s' : Store} (h : p.At vs s s')
      (first : m.Reaches settings stack (p.first.now (.failed d) stack s))
      (again : m'.Reaches settings stack' (p.again.now (.failed d) stack' s'))

variable {settings : Settings} {stack stack' : List Frame} {m m' : Machine} {node : Node}
  {scope : ScopeId} {frame frame' : Frame}

/-- Evaluating a node comes to the same end both times, whatever is held meanwhile. -/
def Repeats (settings : Settings) (node : Node) : Prop :=
  ∀ (p : Rerun) (scope : ScopeId) (vs : List Value) (stack stack' : List Frame) (s s' : Store),
    p.At vs s s' → p.Meets settings vs stack stack' (p.first.now (.eval node scope) stack s)
      (p.again.now (.eval node scope) stack' s')

namespace Meets

theorem give (h : p.At (v :: vs) s s') :
    p.Meets settings vs stack stack' (p.first.now (.flow (.value v)) stack s)
      (p.again.now (.flow (.value (p.shift.value v))) stack' s') :=
  .value h (.here (.of_flow rfl rfl)) (.here (.of_flow rfl rfl))

theorem fail (h : p.At vs s s') (d : Diagnostic) :
    p.Meets settings vs stack stack' (p.first.now (.failed d) stack s)
      (p.again.now (.failed d) stack' s') :=
  .error h (.here (.of_failed rfl rfl)) (.here (.of_failed rfl rfl))

/-- Both fail with the same fault at the same place. -/
theorem fault (h : p.At vs s s') (fault : Fault) (span : Span) (c c' : Control) :
    p.Meets settings vs stack stack' ((p.first.now c stack s).fail fault span)
      ((p.again.now c' stack' s').fail fault span) := by
  have hagain : (p.again.now c' stack' s').fail fault span =
      p.again.now (.failed (p.first.diagnostic fault span)) stack' s' := by
    rw [← p.diagnostic]
    rfl
  rw [hagain]
  exact fail h _

theorem begin (h : p.Meets settings vs stack stack'
      ((p.first.now (.flow .continue) stack s).begin node scope)
      ((p.again.now (.flow .continue) stack' s').begin node scope)) :
    p.Meets settings vs stack stack' (p.first.now (.eval node scope) stack s)
      (p.again.now (.eval node scope) stack' s') := by
  cases h with
  | value h first again =>
    exact .value h (.next (Machine.not_finished_eval rfl) first)
      (.next (Machine.not_finished_eval rfl) again)
  | error h first again =>
    exact .error h (.next (Machine.not_finished_eval rfl) first)
      (.next (Machine.not_finished_eval rfl) again)

/-- A part that is evaluated above a frame: an error lets go of what the frame holds, and with a
value the frame goes on. -/
theorem part (hn : Repeats settings node) (hc : frame.call? = none) (hc' : frame'.call? = none)
    (hheld : frame'.held = frame.held.map p.shift.value) (h : p.At (frame.held ++ vs) s s')
    (hnext : ∀ v s s', p.At (v :: (frame.held ++ vs)) s s' →
      p.Meets settings vs stack stack'
        (Machine.resume settings (p.first.now (.flow .continue) stack s) frame (.value v))
        (Machine.resume settings (p.again.now (.flow .continue) stack' s') frame'
          (.value (p.shift.value v)))) :
    p.Meets settings vs stack stack' (p.first.now (.eval node scope) (frame :: stack) s)
      (p.again.now (.eval node scope) (frame' :: stack') s') := by
  cases hn p scope (frame.held ++ vs) (frame :: stack) (frame' :: stack') s s' h with
  | value h first again =>
    cases hnext _ _ _ h with
    | value h first' again' => exact .value h (first.andThen rfl first') (again.andThen rfl again')
    | error h first' again' => exact .error h (first.andThen rfl first') (again.andThen rfl again')
  | error h first again =>
    exact .error h.dropAll (first.andThen rfl (Machine.reaches_unwound hc ..))
      (again.andThen rfl (hheld ▸ Machine.reaches_unwound hc' ..))

/-! ## Results -/

/-- A value that refers to nothing is the same both times. -/
theorem givePlain (h : p.At vs s s') (hv : v.ref? = none) (c c' : Control) :
    p.Meets settings vs stack stack' ((p.first.now c stack s).give v)
      ((p.again.now c' stack' s').give v) := by
  have hmeets : p.Meets settings vs stack stack' _ _ := give (h.plain hv)
  rwa [p.shift.value_of_plain hv] at hmeets

theorem giveList {results : List Value} (h : p.At (results ++ vs) s s') (c c' : Control) :
    p.Meets settings vs stack stack' ((p.first.now c stack s).giveList results)
      ((p.again.now c' stack' s').giveList (results.map p.shift.value)) := by
  have hperm : results.Perm results.toArray.reverse.toList := by simp
  obtain ⟨hmade, hfellow⟩ := (h.perm (hperm.append_right vs)).newList
  have hmeets : p.Meets settings vs stack stack' _ _ := give hmade
  have hitems : (results.map p.shift.value).toArray.reverse =
      results.toArray.reverse.map p.shift.value := by simp
  rw [hfellow, ← hitems] at hmeets
  exact hmeets

/-- Refused operands are let go of. -/
theorem refuse (h : p.At (ws ++ vs) s s') (fault : Fault) (span : Span) (c c' : Control) :
    p.Meets settings vs stack stack' (((p.first.now c stack s).dropAll ws).fail fault span)
      (((p.again.now c' stack' s').dropAll (ws.map p.shift.value)).fail fault span) :=
  .fault h.dropAll fault span c c'

theorem applyBinary (h : p.At ([v, w] ++ vs) s s') (op : BinaryOp) (rightSpan span : Span)
    (c c' : Control) :
    p.Meets settings vs stack stack' ((p.first.now c stack s).applyBinary op v w rightSpan span)
      ((p.again.now c' stack' s').applyBinary op (p.shift.value v) (p.shift.value w) rightSpan
        span) := by
  have hbinary := h.parallel.binary h.left.sound.balanced h.right.sound.balanced op
    (h.common (v := v) (by simp)) (h.common (v := w) (by simp))
  simp only [Machine.applyBinary, Machine.now, p.shift.divisorFault_value, hbinary]
  cases Operator.divisorFault? op v w with
  | some fault => exact refuse h fault rightSpan c c'
  | none =>
    cases hresult : Operator.binary s.heap op v w with
    | error fault => exact refuse h fault span c c'
    | ok r =>
      obtain ⟨hmade, hfellow⟩ := h.make fun x hx =>
        h.known (List.subset_append_left ..) (Operator.binary_known hresult x hx)
      have hmeets : p.Meets settings vs stack stack' _ _ :=
        give (hmade.perm List.perm_middle.symm).dropAll
      rw [hfellow] at hmeets
      exact hmeets

theorem applyUnary (h : p.At ([v] ++ vs) s s') (op : UnaryOp) (span : Span) (c c' : Control) :
    p.Meets settings vs stack stack' ((p.first.now c stack s).applyUnary op v span)
      ((p.again.now c' stack' s').applyUnary op (p.shift.value v) span) := by
  have hunary := h.parallel.unary op (h.common (v := v) (by simp))
  simp only [Machine.applyUnary, Machine.now, hunary]
  cases hresult : Operator.unary s.heap op v with
  | error fault => exact refuse h fault span c c'
  | ok r =>
    have hplain := Operator.unary_known hresult
    simp only [Except.map, p.shift.value_of_plain hplain]
    exact givePlain h.dropAll hplain c c'

theorem applyIndex (h : p.At ([v, w] ++ vs) s s') (span : Span) (c c' : Control) :
    p.Meets settings vs stack stack' ((p.first.now c stack s).applyIndex v w span)
      ((p.again.now c' stack' s').applyIndex (p.shift.value v) (p.shift.value w) span) := by
  have hindex := h.parallel.index (w := w) (h.common (v := v) (by simp))
  simp only [Machine.applyIndex, Machine.now, hindex]
  cases hresult : Operator.index s.heap v w with
  | error fault => exact refuse h fault span c c'
  | ok r =>
    have hkept := h.keep (h.known (List.subset_append_left ..) (Operator.index_known hresult))
    exact give (hkept.perm List.perm_middle.symm).dropAll

end Meets

end Rerun

end Scriptlet
