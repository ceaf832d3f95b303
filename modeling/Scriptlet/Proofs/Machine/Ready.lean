import Scriptlet.Proofs.Store.Reclaim
import Scriptlet.Proofs.Value.Effects
import Scriptlet.Machine.Step

/-!
# Sound states of a run

In a sound state the store is sound for the values that the control, the
stack and the host hold, the functions of the active calls lie around their
scopes, and all code is run in the scope of the call that it belongs to. A
machine is ready with some values if it would be in a sound state with a
control that holds these.
-/

set_option autoImplicit false

namespace Scriptlet

namespace Frame

/-- The call that a frame ends. -/
def call? : Frame → Option Call
  | .call f scope => some (f, scope)
  | _ => none

/-- The scope that a frame goes on in. -/
def scope? : Frame → Option ScopeId
  | .listItem _ _ scope => some scope
  | .assign _ _ scope => some scope
  | .leftOperand _ _ scope _ => some scope
  | .condition _ _ _ scope => some scope
  | .whileTest loop _ => some loop.scope
  | .whileBody loop _ _ => some loop.scope
  | .forStart loop => some loop.scope
  | .forStop loop _ => some loop.scope
  | .forStep loop _ _ => some loop.scope
  | .forBody loop _ _ => some loop.scope
  | .callee _ scope _ => some scope
  | .argument _ _ _ scope _ => some scope
  | .indexTarget _ scope _ => some scope
  | .block _ scope => some scope
  | .program _ _ => some Store.global
  | _ => none

/-- The body of a loop, and its results so far. -/
def loop? : Frame → Option (Node × List Value)
  | .whileTest loop results => some (loop.body, results)
  | .whileBody loop results _ => some (loop.body, results)
  | .forBody loop _ results => some (loop.body, results)
  | _ => none

/-- A frame that goes on in this scope; a loop over a block has no results. -/
def FitsIn (frame : Frame) (scope : ScopeId) : Prop :=
  (∀ s ∈ frame.scope?, s = scope) ∧ ∀ l ∈ frame.loop?, l.1.isBlock = true → l.2 = []

theorem fitsIn_of_scope {frame : Frame} {s scope : ScopeId} (hf : frame.scope? = some s)
    (hl : frame.loop? = none) (hs : s = scope) : frame.FitsIn scope := by
  simp [FitsIn, hf, hl, hs]

theorem fitsIn_anywhere {frame : Frame} {scope : ScopeId} (hf : frame.scope? = none)
    (hl : frame.loop? = none) : frame.FitsIn scope := by
  simp [FitsIn, hf, hl]

theorem fitsIn_loop {frame : Frame} {s scope : ScopeId} {body : Node} {results : List Value}
    (hf : frame.scope? = some s) (hl : frame.loop? = some (body, results)) (hs : s = scope)
    (hb : body.isBlock = true → results = []) : frame.FitsIn scope := by
  simpa [FitsIn, hf, hl, hs] using hb

end Frame

namespace Machine

/-- The active calls of a stack, the innermost first. -/
def calls (stack : List Frame) : List Call := stack.filterMap Frame.call?

/-- The scope that the innermost call runs in, and a program outside of calls. -/
def here (stack : List Frame) : ScopeId := ((calls stack).head?.map Prod.snd).getD Store.global

/-- Every frame goes on in the scope of the call around it. -/
def Placed : List Frame → Prop
  | [] => True
  | frame :: rest => frame.FitsIn (here rest) ∧ Placed rest

/-- All values that a state holds. -/
def held (m : Machine) : List Value := m.control.held ++ m.stack.flatMap Frame.held

structure Ready (reclaim : Bool) (host vs : List Value) (m : Machine) : Prop where
  sound : m.store.Sound (Value.refs (vs ++ (m.stack.flatMap Frame.held ++ host)))
  called : ∀ c ∈ calls m.stack, m.store.Called c
  tiled : reclaim = true → m.store.Tiled ((calls m.stack).map Prod.snd)
  placed : Placed m.stack

structure Sound (reclaim : Bool) (host : List Value) (m : Machine) : Prop where
  ready : m.Ready reclaim host m.control.held
  inPlace : ∀ node scope, m.control = .eval node scope → scope = here m.stack

variable {reclaim : Bool} {host vs ws : List Value} {m m' : Machine}

theorem calls_cons {frame : Frame} (hc : frame.call? = none) (stack : List Frame) :
    calls (frame :: stack) = calls stack := by
  simp [calls, hc]

theorem here_cons {frame : Frame} (hc : frame.call? = none) (stack : List Frame) :
    here (frame :: stack) = here stack := by
  simp [here, calls_cons hc]

theorem mem_held_of_call {stack : List Frame} {c : Call} (hc : c ∈ calls stack) :
    c.1 ∈ stack.flatMap Frame.held := by
  obtain ⟨frame, hf, he⟩ := List.mem_filterMap.mp hc
  refine List.mem_flatMap.mpr ⟨frame, hf, ?_⟩
  cases frame <;> simp [Frame.call?] at he
  simp [Frame.held, ← he]

end Machine

namespace Store

variable {s s' : Store} {outer : List Ref}

theorem Keeps.called (hk : s.Keeps s') (hs : s'.Sound outer) {c : Call} (hc : s.Called c)
    (hheld : ∀ r ∈ c.1.ref?, r ∈ outer) : s'.Called c := by
  obtain ⟨f, fn, hd, hval, hfn, hh, hp⟩ := hc
  obtain ⟨fn', hfn'⟩ := Option.isSome_iff_exists.mp
    (hs.live_outer (hheld (.function f) (by simp [hval, Value.ref?])))
  obtain rfl : fn' = fn := hk.function f fn fn' hfn hfn'
  obtain ⟨hd', hh', hpar⟩ := hk.holds _ _ hh
  exact ⟨f, fn', hd', hval, hfn', hh', hpar.trans hp⟩

theorem Steady.tiled (hst : s.Steady s') {active : List ScopeId} (ht : s.Tiled active) :
    s'.Tiled active := by
  refine ⟨fun id hid => ?_, by rw [hst.detached]; exact ht.nodup, fun slot hd hh => ?_⟩
  · rw [hst.detached] at hid
    obtain ⟨hd, hh⟩ := ht.detached id hid
    obtain ⟨hd', hh', -⟩ := hst.keeps.holds _ _ hh
    exact ⟨hd', hh'⟩
  · rw [hst.detached]
    have hl := hst.links slot
    rw [hh] at hl
    obtain ⟨hd', hh', -⟩ := Option.map_eq_some_iff.mp hl.symm
    exact ht.covered slot hd' hh'

/-- A new scope becomes active. -/
theorem Sound.child_tiled (hs : s.Sound outer) {active : List ScopeId} (ht : s.Tiled active)
    (ha : ∀ id ∈ active, ∃ hd, s.Holds id hd) (parent : ScopeId) :
    (s.child parent).2.Tiled ((s.child parent).1 :: active) := by
  have hf := hs.regular.free
  have hkeep := hs.child_keeps parent
  have hthere : ∀ id ∈ active ++ s.detached.toList, ∃ hd, s.Holds id hd := fun id hid =>
    (List.mem_append.mp hid).elim (ha id) (ht.detached id)
  have hnodup := List.nodup_cons.mp ht.nodup
  refine ⟨fun id hid => ?_, ?_, fun slot hd hh => ?_⟩
  · rw [child_detached] at hid
    obtain ⟨hd, hh⟩ := ht.detached id hid
    obtain ⟨hd', hh', -⟩ := hkeep.holds _ _ hh
    exact ⟨hd', hh'⟩
  · rw [child_detached, List.cons_append, List.map_cons]
    refine List.nodup_cons.mpr ⟨?_, List.nodup_cons.mpr ⟨fun hm => ?_, hnodup.2⟩⟩
    · obtain ⟨g, hg⟩ := hs.regular.outermost
      intro hm
      rcases List.mem_cons.mp hm with h0 | hm
      · exact child_slot_ne hf parent hg.1 h0
      · exact hnodup.1 hm
    · obtain ⟨id, hid, hslot⟩ := List.mem_map.mp hm
      obtain ⟨hd, hh⟩ := hthere id hid
      exact child_slot_ne hf parent hh.1 hslot
  · rw [child_detached, List.cons_append, List.map_cons, List.mem_cons]
    rw [head?_child hf] at hh
    split at hh
    · exact .inr (.inl ‹_›)
    · exact (ht.covered slot hd hh).imp_right .inr

end Store

namespace Machine

variable {reclaim : Bool} {host vs ws : List Value} {m m' : Machine}

namespace Ready

theorem sweepable (h : m.Ready true host vs) :
    m.store.Sweepable (Value.refs (vs ++ (m.stack.flatMap Frame.held ++ host)))
      (calls m.stack) := by
  refine ⟨h.sound, Value.pin_not_mem_refs _, h.called, fun c hc r hr => ?_, h.tiled rfl⟩
  exact Value.mem_refs.mpr ⟨c.1, by simp [mem_held_of_call hc], hr⟩

theorem perm (h : m.Ready reclaim host vs) (hp : vs.Perm ws) : m.Ready reclaim host ws :=
  ⟨h.sound.congr fun r => (Value.refs_perm (hp.append_right _)).count_eq r |>.symm, h.called,
    h.tiled, h.placed⟩

/-- Another store with the same scopes and functions. -/
theorem restore (h : m.Ready reclaim host vs) (c : Control) (ws : List Value) {s : Store}
    {out : String} (hs : s.Sound (Value.refs (ws ++ (m.stack.flatMap Frame.held ++ host))))
    (hst : m.store.Steady s) :
    Ready reclaim host ws ⟨c, m.stack, s, m.active, m.depth, out⟩ := by
  refine ⟨hs, fun d hd => ?_, fun hr => hst.tiled (h.tiled hr), h.placed⟩
  refine hst.keeps.called hs (h.called d hd) fun r hr => ?_
  exact Value.mem_refs.mpr ⟨d.1, by simp [mem_held_of_call hd], hr⟩

theorem live (h : m.Ready reclaim host vs) : ∀ r ∈ Value.refs vs, m.store.heap.Live r :=
  fun r hr => h.sound.live_outer (by simp [hr])

/-- The control takes over what is in hand. -/
theorem signal (h : m.Ready reclaim host vs) {f : Flow} (hf : f.held = vs) :
    (m.signal f).Sound reclaim host := by
  subst hf
  exact ⟨⟨h.sound, h.called, h.tiled, h.placed⟩, fun _ _ hc => by simp [Machine.signal] at hc⟩

theorem give {v : Value} (h : m.Ready reclaim host [v]) : (m.give v).Sound reclaim host :=
  h.signal rfl

/-- A value that refers to nothing is held for free. -/
theorem plain (h : m.Ready reclaim host vs) {v : Value} (hv : v.ref? = none) :
    m.Ready reclaim host (v :: vs) :=
  ⟨h.sound.congr fun r => by simp [hv], h.called, h.tiled, h.placed⟩

theorem givePlain (h : m.Ready reclaim host []) {v : Value} (hv : v.ref? = none) :
    (m.give v).Sound reclaim host :=
  (h.plain hv).give

theorem fail (h : m.Ready reclaim host []) (fault : Fault) (span : Span) :
    (m.fail fault span).Sound reclaim host :=
  ⟨⟨h.sound, h.called, h.tiled, h.placed⟩, fun node scope hc => by simp [Machine.fail] at hc⟩

theorem eval (h : m.Ready reclaim host []) (node : Node) {scope : ScopeId}
    (hs : scope = here m.stack) :
    Sound reclaim host { m with control := .eval node scope } :=
  ⟨⟨h.sound, h.called, h.tiled, h.placed⟩, fun _ _ hc => by
    obtain ⟨-, rfl⟩ := Control.eval.inj hc
    exact hs⟩

/-- A frame takes over what is in hand. -/
theorem enter (h : m.Ready reclaim host vs) {f : Frame} (hv : f.held = vs)
    (hc : f.call? = none) (hf : f.FitsIn (here m.stack)) (node : Node) {scope : ScopeId}
    (hs : scope = here m.stack) :
    (m.enter f node scope).Sound reclaim host := by
  subst hv
  have hcalls := calls_cons hc m.stack
  refine ⟨⟨h.sound.congr fun r => ?_, ?_, ?_, hf, h.placed⟩, fun _ _ he => ?_⟩
  · simp [Machine.enter, Control.held]
  · exact hcalls ▸ h.called
  · exact hcalls ▸ h.tiled
  · obtain ⟨-, rfl⟩ := Control.eval.inj he
    exact hs.trans (here_cons hc m.stack).symm

theorem dropAll (vs : List Value) (h : m.Ready reclaim host (vs ++ ws)) :
    (m.dropAll vs).Ready reclaim host ws := by
  have hs : m.store.Sound (Value.refs vs ++
      Value.refs (ws ++ (m.stack.flatMap Frame.held ++ host))) := by
    simpa using h.sound
  exact h.restore _ ws hs.dropAll hs.dropAll_steady

theorem giveList (h : m.Ready reclaim host vs) : (m.giveList vs).Sound reclaim host := by
  have hs : m.store.Sound (Value.refs vs.toArray.reverse.toList ++
      Value.refs (m.stack.flatMap Frame.held ++ host)) := by
    refine h.sound.congr fun r => ?_
    simp
  have hnew : (m.store.newList vs.toArray.reverse).2.Sound
      (Value.refs ([(m.store.newList vs.toArray.reverse).1] ++
        (m.stack.flatMap Frame.held ++ host))) :=
    hs.newList.congr fun r => by simp [Store.newList, Heap.newList, Value.ref?]
  exact ⟨h.restore _ [_] hnew (Store.newList_steady _ _),
    fun _ _ hc => by simp [Machine.giveList] at hc⟩

/-! ## Choices and loops -/

theorem choose (h : m.Ready reclaim host []) (branches : List (Node × Node))
    (otherwise : Option Node) {scope : ScopeId} (hs : scope = here m.stack) :
    (m.choose branches otherwise scope).Sound reclaim host := by
  cases branches with
  | cons b rest =>
    obtain ⟨test, body⟩ := b
    exact h.enter rfl rfl (Frame.fitsIn_of_scope rfl rfl hs) _ hs
  | nil =>
    cases otherwise with
    | some node => exact h.eval node hs
    | none => exact h.givePlain rfl

theorem statements (h : m.Ready reclaim host []) (nodes : List Node) {scope : ScopeId}
    (hs : scope = here m.stack) : (m.statements nodes scope).Sound reclaim host := by
  cases nodes with
  | nil => exact h.givePlain rfl
  | cons node rest => exact h.enter rfl rfl (Frame.fitsIn_of_scope rfl rfl hs) _ hs

end Ready

end Machine

end Scriptlet
