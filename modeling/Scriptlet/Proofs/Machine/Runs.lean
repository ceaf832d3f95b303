import Scriptlet.Proofs.Machine.Steps

/-!
# Runs keep a state sound

What one step keeps, every run keeps: a sound state leads to sound states
only. The states that runs begin with are sound.
-/

set_option autoImplicit false

namespace Scriptlet

theorem Frame.call?_eq_none {frame : Frame} (h : ∀ callee scope, frame ≠ .call callee scope) :
    frame.call? = none := by
  cases frame with
  | call callee scope => exact absurd rfl (h callee scope)
  | _ => rfl

namespace Machine

variable {reclaim : Bool} {host vs : List Value} {m : Machine} {settings : Settings}

/-! ## Taking a frame off -/

theorem unwind_frame {frame : Frame} (hc : frame.call? = none) (settings : Settings)
    (m : Machine) : Machine.unwind settings m frame = m.dropAll frame.held := by
  cases frame with
  | call callee scope => simp [Frame.call?] at hc
  | _ => rfl

theorem Sound.pop {c : Control} {frame : Frame} {stack : List Frame} {store : Store}
    {active : List Activation} {depth : Nat} {out : String}
    (h : Sound reclaim host ⟨c, frame :: stack, store, active, depth, out⟩)
    (hc : frame.call? = none) (c' : Control) :
    Ready reclaim host (c.held ++ frame.held) ⟨c', stack, store, active, depth, out⟩ ∧
      frame.FitsIn (here stack) := by
  have hr := h.ready
  have hcalls := calls_cons hc stack
  exact ⟨⟨hr.sound.congr fun r => by simp, fun d hd => hr.called d (hcalls ▸ hd),
    fun ht => hcalls ▸ hr.tiled ht, hr.placed.2⟩, hr.placed.1⟩

theorem Ready.giveResult {f : Flow} (h : m.Ready reclaim host f.held) :
    (m.give (callResult f)).Sound reclaim host := by
  cases f with
  | value v => exact Ready.give h
  | «return» v => exact Ready.give h
  | «break» => exact Ready.givePlain h rfl
  | «continue» => exact Ready.givePlain h rfl

theorem Sound.resume {f : Flow} {frame : Frame} {stack : List Frame} {store : Store}
    {active : List Activation} {depth : Nat} {out : String}
    (h : Sound settings.reclaim host ⟨.flow f, frame :: stack, store, active, depth, out⟩) :
    (Machine.resume settings ⟨.flow .continue, stack, store, active, depth, out⟩ frame f).Sound
      settings.reclaim host := by
  unfold Machine.resume
  split
  · exact h.ready.endCall.giveResult
  · have hc := Frame.call?_eq_none ‹_›
    obtain ⟨hr, hf⟩ := h.pop hc (.flow .continue)
    exact hr.resumeValue hc hf _
  · rename_i loop results test
    obtain ⟨hr, hf⟩ := h.pop rfl (.flow .continue)
    have hs : loop.scope = here stack := hf.1 _ rfl
    exact Ready.enter (Ready.dropAll [test] hr) rfl rfl (Frame.fitsIn_loop rfl rfl hs (hf.2 _ rfl))
      loop.test hs
  · rename_i loop results test
    obtain ⟨hr, -⟩ := h.pop rfl (.flow .continue)
    have hin : Ready settings.reclaim host (test :: results ++ [])
        ⟨.flow .continue, stack, store, active, depth, out⟩ :=
      hr.perm (by simp [Control.held, Flow.held, Frame.held])
    exact (Ready.dropAll _ hin).givePlain rfl
  · rename_i loop pace results
    obtain ⟨hr, hf⟩ := h.pop rfl (.flow .continue)
    exact Ready.turn hr loop _ (hf.1 _ rfl) (hf.2 _ rfl)
  · rename_i loop pace results
    obtain ⟨hr, -⟩ := h.pop rfl (.flow .continue)
    have hin : Ready settings.reclaim host (results ++ [])
        ⟨.flow .continue, stack, store, active, depth, out⟩ :=
      hr.perm (by simp [Control.held, Flow.held, Frame.held])
    exact (Ready.dropAll _ hin).givePlain rfl
  · rename_i rest last _
    obtain ⟨hr, -⟩ := h.pop rfl (.flow .continue)
    exact (Ready.dropAll [last] (hr.perm List.perm_append_comm)).giveResult
  · obtain ⟨hr, -⟩ := h.pop (Frame.call?_eq_none ‹_›) (.flow .continue)
    exact (Ready.dropAll frame.held (hr.perm List.perm_append_comm)).signal rfl

theorem Sound.unwind {d : Diagnostic} {frame : Frame} {stack : List Frame} {store : Store}
    {active : List Activation} {depth : Nat} {out : String}
    (h : Sound settings.reclaim host ⟨.failed d, frame :: stack, store, active, depth, out⟩) :
    (Machine.unwind settings ⟨.failed d, stack, store, active, depth, out⟩ frame).Sound
      settings.reclaim host := by
  unfold Machine.unwind
  split
  · exact ⟨h.ready.endCall, fun _ _ he => by simp [Machine.endCall] at he⟩
  · obtain ⟨hr, -⟩ := h.pop (Frame.call?_eq_none ‹_›) (.failed d)
    have hin : Ready settings.reclaim host (frame.held ++ [])
        ⟨.failed d, stack, store, active, depth, out⟩ := hr.perm (by simp [Control.held])
    exact ⟨Ready.dropAll frame.held hin, fun _ _ he => by simp [Machine.dropAll] at he⟩

theorem Sound.step (h : m.Sound settings.reclaim host) :
    (Machine.step settings m).Sound settings.reclaim host := by
  obtain ⟨control, stack, store, active, depth, out⟩ := m
  cases control with
  | eval node scope =>
    have hs : scope = here stack := h.inPlace node scope rfl
    have hr : Ready settings.reclaim host [] ⟨.flow .continue, stack, store, active, depth, out⟩ :=
      ⟨h.ready.sound, h.ready.called, h.ready.tiled, h.ready.placed⟩
    exact hr.begin node hs
  | flow f =>
    cases stack with
    | nil => exact h
    | cons frame stack => exact h.resume
  | failed d =>
    cases stack with
    | nil => exact h
    | cons frame stack => exact h.unwind

theorem Sound.steps (h : m.Sound settings.reclaim host) (count : Nat) :
    (Machine.steps settings count m).Sound settings.reclaim host := by
  induction count generalizing m with
  | zero => exact h
  | succ count ih => exact ih h.step

/-- The last state of a run that ends is one of its states. -/
theorem runFor_eq_steps {count : Nat} {m' : Machine}
    (h : Machine.runFor settings count m = some m') :
    (∃ n, m' = Machine.steps settings n m) ∧ m'.outcome?.isSome := by
  induction count generalizing m with
  | zero => simp [Machine.runFor] at h
  | succ count ih =>
    simp only [Machine.runFor] at h
    split at h
    · obtain rfl := Option.some.inj h
      exact ⟨⟨0, rfl⟩, ‹_›⟩
    · obtain ⟨⟨n, hn⟩, ho⟩ := ih h
      exact ⟨⟨n + 1, hn⟩, ho⟩

/-- Two runs whose states are related stay so: both end within as many steps, or neither does. -/
theorem runFor_rel {settings' : Settings} {related : Machine → Machine → Prop}
    (hends : ∀ m k, related m k → m.outcome?.isSome = k.outcome?.isSome)
    (hstep : ∀ m k, related m k → related (step settings m) (step settings' k)) {k : Machine}
    (h : related m k) (count : Nat) :
    Option.Rel related (runFor settings count m) (runFor settings' count k) := by
  induction count generalizing m k with
  | zero => exact .none
  | succ count ih =>
    simp only [runFor, hends m k h]
    split
    · exact .some h
    · exact ih (hstep m k h)

/-! ## First states -/

/-- What a store keeps while no program runs. -/
structure Idle (reclaim : Bool) (host : List Value) (s : Store) : Prop where
  sound : s.Sound (Value.refs host)
  tiled : reclaim = true → s.Tiled []

theorem Idle.ofProgram {s : Store} (h : Idle reclaim host s) (source : Source)
    (program : Program) : (ofProgram s source program).Sound reclaim host := by
  have hs : s.Sound (Value.refs ([.nothing] ++ ([.nothing] ++ host))) :=
    h.sound.congr fun r => by simp [Value.ref?]
  exact ⟨⟨hs, by simp [Machine.ofProgram, calls, Frame.call?], h.tiled,
    Frame.fitsIn_of_scope rfl rfl rfl, trivial⟩, fun _ _ he => by simp [Machine.ofProgram] at he⟩

/-- Outside of programs a machine is ready with what the host hands over. -/
theorem Idle.ready {s : Store} (h : Idle reclaim (vs ++ host) s) (c : Control) :
    Ready reclaim host vs ⟨c, [], s, [], 0, ""⟩ :=
  ⟨h.sound, by simp [calls], h.tiled, trivial⟩

theorem Idle.ofCall {s : Store} {callee : Value} {args : List Value}
    (h : Idle reclaim (callee :: args ++ host) s) (limit : Nat) (span : Span) :
    (ofCall limit s callee args span).Sound reclaim host :=
  (h.ready (.flow .continue)).apply limit span

/-- A run that has ended leaves its result to the host. -/
theorem Sound.idle (h : m.Sound reclaim host) (hstack : m.stack = []) :
    Idle reclaim (m.control.held ++ host) m.store := by
  have hr := h.ready
  refine ⟨hr.sound.congr fun r => by simp [hstack], fun ht => ?_⟩
  simpa [hstack, calls] using hr.tiled ht

theorem Idle.sweepable {s : Store} (h : Idle true host s) : s.Sweepable (Value.refs host) [] :=
  ⟨h.sound, Value.pin_not_mem_refs _, by simp, by simp, h.tiled rfl⟩

theorem Idle.tidy {s : Store} (h : Idle reclaim host s) : Idle reclaim host (s.tidy reclaim) := by
  cases reclaim with
  | true =>
    have hs := h.sweepable
    have hswept := hs.swept
    exact ⟨hswept.sound, fun _ => (hswept.sweepable hs).tiled⟩
  | false => exact h

theorem bare_head? (slot : Nat) :
    Store.bare.head? slot = if slot = 0 then some ⟨0, none, none⟩ else none := by
  cases slot with
  | zero => rfl
  | succ slot => simp [Store.head?, Store.scopeAt?, Store.bare]

theorem Idle.bare : Idle reclaim [] Store.bare := by
  have hnone (f : FunctionId) : Store.bare.heap.function? f = none := rfl
  have hpin (p : PinId) : Store.bare.heap.pin? p = none := rfl
  have hhead {slot : Nat} {hd : Head} (h : Store.bare.head? slot = some hd) :
      slot = 0 ∧ hd = ⟨0, none, none⟩ := by
    rw [bare_head?] at h
    split at h
    · exact ⟨‹_›, (Option.some.inj h).symm⟩
    · simp at h
  refine ⟨⟨⟨⟨_, rfl, rfl⟩, fun slot hd h => ?_, fun slot hd h => ?_, fun i j a b ha hb _ => ?_,
    fun slot hd p h hp => ?_, ⟨List.nodup_nil, fun slot => ?_⟩, fun p q hq => ?_, fun f fn hf => ?_,
    fun slot hd p h hp => ?_⟩, ⟨fun r => ?_, fun r hr => ?_⟩⟩,
    fun _ => ⟨fun id hid => ?_, ?_, fun slot hd h => .inl (hhead h).1⟩⟩
  · obtain ⟨rfl, rfl⟩ := hhead h
    simp
  · obtain ⟨-, rfl⟩ := hhead h
    exact Nat.zero_lt_one
  · exact (hhead ha).1.trans (hhead hb).1.symm
  · obtain ⟨-, rfl⟩ := hhead h
    simp at hp
  · cases slot with
    | zero => simp [Store.bare, Store.scopeAt?]
    | succ slot => simp [Store.bare]
  · simp [hpin] at hq
  · simp [hnone] at hf
  · obtain ⟨-, rfl⟩ := hhead h
    simp at hp
  · cases r <;> rfl
  · cases r <;> exact absurd hr (by simp [Heap.Live, Heap.list?, Heap.function?, Heap.pin?,
      Store.bare, Heap.empty, Table.get?, Table.cell?, Table.empty])
  · simp [Store.bare] at hid
  · simp [Store.bare]

/-- Names bound in the global scope to values that refer to nothing. -/
theorem Idle.define {s : Store} (h : Idle reclaim host s) {v : Value} (hv : v.ref? = none)
    (id : ScopeId) (name : String) : Idle reclaim host (s.define id name v) := by
  have hs : s.Sound (v.ref?.toList ++ Value.refs host) := by simpa [hv] using h.sound
  exact ⟨hs.define, fun hr => hs.define_steady.tiled (h.tiled hr)⟩

theorem Idle.defineAll {s : Store} (h : Idle reclaim host s) {bindings : Bindings}
    (hv : ∀ b ∈ bindings, b.2.ref? = none) :
    Idle reclaim host (bindings.foldl (fun s b => s.define Store.global b.1 b.2) s) := by
  induction bindings generalizing s with
  | nil => exact h
  | cons b bindings ih =>
    exact ih (h.define (hv b (by simp)) Store.global b.1) fun c hc => hv c (by simp [hc])

/-- What the global scope is seeded with refers to nothing. -/
theorem seeds_plain : ∀ b ∈ [("NULL", Value.int 0), ("TRUE", .int 1), ("FALSE", .int 0)] ++
    Builtin.all.map fun b => (b.name, Value.builtin b), b.2.ref? = none := by
  intro b hb
  rcases List.mem_append.mp hb with hb | hb
  · simp only [List.mem_cons, List.not_mem_nil, or_false] at hb
    rcases hb with rfl | rfl | rfl <;> rfl
  · obtain ⟨c, -, rfl⟩ := List.mem_map.mp hb
    rfl

theorem Idle.seeded : Idle reclaim [] Store.seeded := Idle.defineAll .bare seeds_plain

end Machine

end Scriptlet
