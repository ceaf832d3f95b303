import Scriptlet.Proofs.Host.Sweeps
import Scriptlet.Proofs.Machine.Levels

/-!
# Slots and exits

At every moment of a session each slot is that of the global scope, of an
active call, of a detached scope, or free, and only one of these. Whatever a
run starts, the evaluation of a node or a call, leaves the active calls as it
found them, and a run that ends leaves none.
-/

set_option autoImplicit false

namespace Scriptlet

namespace Store

variable {s : Store} {outer : List Ref} {calls : List Call}

/-- All slots that are in use with these active scopes, and then the free ones. -/
def allotted (s : Store) (active : List ScopeId) : List Nat :=
  (global :: (active ++ s.detached.toList)).map ScopeId.slot ++ s.free

/-- Every slot is allotted once, to the scope that is in it or to be used again. -/
structure Accounted (s : Store) (active : List ScopeId) : Prop where
  slots : (s.allotted active).Perm (List.range s.scopes.size)
  there : ∀ id ∈ global :: (active ++ s.detached.toList),
    ∃ sc, s.scopeAt? id.slot = some sc ∧ sc.serial = id.serial
  empty : ∀ slot ∈ s.free, s.scopeAt? slot = none

theorem Accounted.live {active : List ScopeId} (h : s.Accounted active) :
    s.live = 1 + active.length + s.detached.size := by
  have hused : ((global :: (active ++ s.detached.toList)).map ScopeId.slot).countP
      (fun slot => (s.scopeAt? slot).isSome) = 1 + active.length + s.detached.size := by
    rw [List.countP_eq_length.mpr]
    · simp only [List.length_map, List.length_cons, List.length_append, Array.length_toList]
      omega
    · intro slot hslot
      obtain ⟨id, hid, rfl⟩ := List.mem_map.mp hslot
      obtain ⟨sc, hsc, -⟩ := h.there id hid
      simp [hsc]
  have hfree : s.free.countP (fun slot => (s.scopeAt? slot).isSome) = 0 :=
    List.countP_eq_zero.mpr fun slot hslot => by simp [h.empty slot hslot]
  rw [live_eq_countP, ← h.slots.countP_eq, allotted, List.countP_append, hused, hfree,
    Nat.add_zero]

theorem Sweepable.accounted (hs : s.Sweepable outer calls) :
    s.Accounted (calls.map Prod.snd) := by
  have hthere : ∀ id ∈ global :: (calls.map Prod.snd ++ s.detached.toList),
      ∃ hd, s.Holds id hd := by
    intro id hid
    rcases List.mem_cons.mp hid with rfl | hid
    · exact hs.sound.regular.outermost
    · rcases List.mem_append.mp hid with hid | hid
      · obtain ⟨c, hc, rfl⟩ := List.mem_map.mp hid
        obtain ⟨_, _, hd, -, -, hh, -⟩ := hs.called c hc
        exact ⟨hd, hh⟩
      · exact hs.tiled.detached id hid
  have hscope : ∀ id ∈ global :: (calls.map Prod.snd ++ s.detached.toList),
      ∃ sc, s.scopeAt? id.slot = some sc ∧ sc.serial = id.serial := by
    intro id hid
    obtain ⟨hd, hh, hserial⟩ := hthere id hid
    obtain ⟨sc, hsc, rfl⟩ := Option.map_eq_some_iff.mp hh
    exact ⟨sc, hsc, hserial⟩
  obtain ⟨hfree, hempty⟩ := hs.sound.regular.free
  refine ⟨?_, hscope, fun slot hslot => ((hempty slot).mp hslot).2⟩
  have hnodup : (s.allotted (calls.map Prod.snd)).Nodup := by
    refine List.nodup_append.mpr ⟨hs.tiled.nodup, hfree, fun slot hused other hother he => ?_⟩
    obtain ⟨id, hid, rfl⟩ := List.mem_map.mp hused
    obtain ⟨sc, hsc, -⟩ := hscope id hid
    have hnone := ((hempty other).mp hother).2
    simp [← he, hsc] at hnone
  refine (List.perm_ext_iff_of_nodup hnodup List.nodup_range).mpr fun slot => ?_
  rw [List.mem_range, allotted, List.mem_append]
  constructor
  · rintro (hused | hslot)
    · obtain ⟨id, hid, rfl⟩ := List.mem_map.mp hused
      obtain ⟨sc, hsc, -⟩ := hscope id hid
      exact lt_size hsc
    · exact ((hempty slot).mp hslot).1
  · intro hlt
    cases hsc : s.scopeAt? slot with
    | none => exact .inr ((hempty slot).mpr ⟨hlt, hsc⟩)
    | some sc =>
      refine .inl (List.mem_cons.mpr ?_)
      exact hs.tiled.covered slot _ (head?_of_scopeAt? hsc)

end Store

namespace Machine

variable {settings : Settings} {m : Machine} {rest : List Frame}

/-- A node is about to be evaluated or a value to be called, above this stack. -/
inductive Starts (m : Machine) : List Frame → Prop where
  | node {node : Node} {scope : ScopeId} (hc : m.control = .eval node scope) : m.Starts m.stack
  | call {v : Value} {scope : ScopeId} {span : Span} {rest : List Frame}
      (hc : m.control = .flow (.value v)) (hs : m.stack = .callee [] scope span :: rest) :
      m.Starts rest
  | callWith {v callee : Value} {done : List Value} {scope : ScopeId} {span : Span}
      {rest : List Frame} (hc : m.control = .flow (.value v))
      (hs : m.stack = .argument callee done [] scope span :: rest) : m.Starts rest

theorem Starts.over (h : m.Starts rest) : m.Over rest m.depth m.active := by
  cases h with
  | node _ => exact .refl m
  | call _ hs => exact ⟨[_], [], hs, rfl, rfl, rfl⟩
  | callWith _ hs => exact ⟨[_], [], hs, rfl, rfl, rfl⟩

/-- What holds of the slots and the active calls of a state, with these activations around them. -/
structure InOrder (limit : Nat) (around : List Activation) (m : Machine) : Prop where
  accounted : m.store.Accounted ((calls m.stack).map Prod.snd)
  depth : m.depth = (calls m.stack).length
  live : m.store.live = 1 + m.depth + m.store.detached.size
  calm : m.store.detached.size < m.store.nextSweep
  bounded : m.depth ≤ limit
  active : ∃ inner, m.active = inner ++ around ∧ inner.length = m.depth

/-- Until all that is above a stack is done, the state is above it, and then all calls above it
have ended. -/
def Balanced (settings : Settings) (rest : List Frame) (m : Machine) : Prop :=
  ∀ k, (∀ j < k, ¬ (steps settings j m).Finished rest) →
    (steps settings k m).Over rest m.depth m.active ∧
    ((steps settings k m).Finished rest →
      (steps settings k m).depth = m.depth ∧ (steps settings k m).active = m.active)

theorem Starts.balanced (h : m.Starts rest) : m.Balanced settings rest := fun _ hk =>
  have hover := h.over.steps hk
  ⟨hover, hover.finished⟩

end Machine

namespace Act

/-- The activation of a program is around its calls; nothing is around a call by the host. -/
def around : Act → List Activation
  | .run source => [⟨Activation.programName, source, none⟩]
  | .execute source _ => [⟨Activation.programName, source, none⟩]
  | _ => []

end Act

namespace Host

variable {settings : Settings} {limit : Nat} {h next : Host} {a : Act} {first : Machine}

theorem calm_ofCall {s : Store} (hs : s.Calm) (limit : Nat) (callee : Value) (args : List Value)
    (span : Span) : (Machine.ofCall limit s callee args span).store.Calm := by
  rcases Machine.apply_levels limit ⟨.flow .continue, [], s, [], 0, ""⟩ callee args span with h | h
  · exact hs.congr h.backlog
  · exact hs.congr h.backlog

/-- The first state of a run is above nothing but what is around it. -/
theorem firstState_over (hf : h.firstState? a = some first) :
    first.Over [] 0 a.around ∧ first.depth ≤ h.session.settings.limit ∧
      (h.session.store.Calm → first.store.Calm) := by
  have hprogram (source : Source) (program : Program) :
      (Machine.ofProgram h.session.store source program).Over [] 0
        [⟨Activation.programName, source, none⟩] :=
    ⟨[.program program.statements .nothing], [], rfl, rfl, rfl, rfl⟩
  cases a with
  | run source =>
    obtain ⟨program, -, rfl⟩ := Option.map_eq_some_iff.mp hf
    exact ⟨hprogram source program, Nat.zero_le _, id⟩
  | execute source program =>
    obtain rfl := Option.some.inj hf
    exact ⟨hprogram source program, Nat.zero_le _, id⟩
  | call callee args span =>
    obtain rfl := Option.some.inj hf
    refine ⟨?_, ?_, fun hc => calm_ofCall (hc.congr (Store.backlog_keepAll _ _)) _ _ _ _⟩
    · rcases Machine.apply_levels h.session.settings.limit ⟨.flow .continue, [],
        (h.keeping (h.value callee :: args.map h.value)).store, [], 0, ""⟩ (h.value callee)
        (args.map h.value) span with hl | hi
      · exact (Machine.Over.refl _).level hl
      · exact (Machine.Over.refl _).inward hi
    · rcases Machine.apply_levels h.session.settings.limit ⟨.flow .continue, [],
        (h.keeping (h.value callee :: args.map h.value)).store, [], 0, ""⟩ (h.value callee)
        (args.map h.value) span with hl | hi
      · exact hl.depth.trans_le (Nat.zero_le _)
      · exact hi.depth.trans_le hi.allowed
  | _ => simp [firstState?] at hf

theorem calm_act {count : Nat} {r : Option Report} (hc : h.session.store.Calm)
    (ha : h.actFor count a = some (r, next)) : next.session.store.Calm := by
  cases leaves_of_actFor ha with
  | ran hf _ hstore =>
    have hlast := Machine.calm_steps ((firstState_over hf).2.2 hc) h.session.settings
    rcases hstore with rfl | rfl
    · exact hlast _
    · exact (hlast _).tidy _
  | _ => exact hc

theorem Reached.calm (hr : Reached settings h) : h.session.store.Calm := by
  induction hr with
  | start seeded =>
    cases seeded
    · exact Store.calm_bare
    · exact Store.calm_seeded
  | act _ ha ih => exact calm_act ih ha

theorem inOrder_steps (hr : Reached ⟨limit, true⟩ h) (hf : h.firstState? a = some first)
    (n : Nat) : (Machine.steps ⟨limit, true⟩ n first).InOrder limit a.around := by
  obtain ⟨hover, hdepth, hcalm⟩ := firstState_over hf
  obtain ⟨frames, inner, hs, ha, hl, hd⟩ :=
    hover.steps_nil ⟨limit, true⟩ n
  rw [List.append_nil] at hs
  rw [Nat.zero_add] at hd
  have hlimit : first.depth ≤ limit := by simpa [hr.settled.same] using hdepth
  have hsweep := ((firstState_sound hr.settled hf).steps n).ready.sweepable
  have hlen : (Machine.steps ⟨limit, true⟩ n first).depth =
      (Machine.calls (Machine.steps ⟨limit, true⟩ n first).stack).length := by rw [hd, hs]
  refine ⟨hsweep.accounted, hlen, ?_, Machine.calm_steps (hcalm hr.calm) _ n,
    Machine.depth_steps ⟨limit, true⟩ hlimit n, inner, ha, hl.trans hd.symm⟩
  rw [hsweep.accounted.live, List.length_map, hlen]

/-- Slots are accounted for between acts and in every state of a run. What a run starts, it ends
with the same calls active, whether with a value, a signal or an error, and when all is done only
what was around the first call is left. -/
theorem slots_accounted (hr : Reached ⟨limit, true⟩ h) :
    (h.session.store.Accounted [] ∧
      h.session.store.live = 1 + h.session.store.detached.size ∧
      h.session.store.detached.size < h.session.store.nextSweep) ∧
    ∀ a first, h.firstState? a = some first →
      (∀ n, (Machine.steps ⟨limit, true⟩ n first).InOrder limit a.around ∧
        ∀ rest, (Machine.steps ⟨limit, true⟩ n first).Starts rest →
          (Machine.steps ⟨limit, true⟩ n first).Balanced ⟨limit, true⟩ rest) ∧
      ∀ count last, Machine.runFor ⟨limit, true⟩ count first = some last →
        last.stack = [] ∧ last.depth = 0 ∧ last.active = a.around := by
  have hidle := hr.settled.idle.sweepable.accounted
  refine ⟨⟨hidle, hidle.live, hr.calm⟩, fun a first hf => ⟨fun n => ⟨inOrder_steps hr hf n,
    fun rest hstarts => hstarts.balanced⟩, fun count last hlast => ?_⟩⟩
  obtain ⟨⟨n, rfl⟩, ho⟩ := Machine.runFor_eq_steps hlast
  have hover := (firstState_over hf).1.steps_nil ⟨limit, true⟩ n
  have hdone : (Machine.steps ⟨limit, true⟩ n first).Finished [] := by
    generalize Machine.steps ⟨limit, true⟩ n first = m at ho
    obtain ⟨control, stack, store, active, depth, out⟩ := m
    cases stack with
    | cons frame stack => cases control <;> simp [Machine.outcome?] at ho
    | nil => cases control <;> simp [Machine.outcome?, Machine.Finished, Machine.Evaluates] at ho ⊢
  exact ⟨hdone.1, hover.finished hdone⟩

/-- A function that calls itself, called. -/
def runaway : Program :=
  let at0 : Expr → Node := fun e => .mk e default
  let self : Node := at0 (.call (at0 (.var "f")) [])
  ⟨[at0 (.function (some "f") [] self), self], default⟩

/-- With two calls allowed, the second of them fails at a third, and both of their scopes are given
back. The failed call has begun after five steps and has ended after nine more. -/
theorem slots_accounted_runaway : ∃ first last : Machine,
    (Host.start false ⟨2, true⟩).firstState? (.execute default runaway) = some first ∧
    Machine.runFor ⟨2, true⟩ 20 first = some last ∧
    (Machine.steps ⟨2, true⟩ 10 first).depth = 2 ∧
    (Machine.steps ⟨2, true⟩ 10 first).InOrder 2 [⟨Activation.programName, default, none⟩] ∧
    (Machine.steps ⟨2, true⟩ 14 first).Finished [.program [] (.function 0)] ∧
    (Machine.steps ⟨2, true⟩ 14 first).depth = (Machine.steps ⟨2, true⟩ 5 first).depth ∧
    last.store.free = [1, 2] ∧ last.store.live = 1 ∧
    last.active = [⟨Activation.programName, default, none⟩] := by
  have hmain := (slots_accounted (.start false : Reached ⟨2, true⟩ _)).2
    (.execute default runaway) _ rfl
  have hrun : Machine.runFor ⟨2, true⟩ 20 (.ofProgram .bare default runaway) =
    some (Machine.steps ⟨2, true⟩ 15 (.ofProgram .bare default runaway)) := rfl
  have hlonger : ∀ j < 9, (Machine.steps ⟨2, true⟩ j (Machine.steps ⟨2, true⟩ 5
      (.ofProgram .bare default runaway))).stack.length ≠ 1 := by decide +kernel
  have hbalanced := (hmain.1 5).2 _ (.call rfl rfl) 9 fun j hj hf =>
    hlonger j hj (congrArg List.length hf.1)
  have hfinished : (Machine.steps ⟨2, true⟩ 14 (.ofProgram .bare default runaway)).Finished
    [.program [] (.function 0)] := ⟨rfl, fun ⟨_, _, h⟩ => nomatch h⟩
  exact ⟨_, _, rfl, hrun, rfl, (hmain.1 10).1, hfinished, (hbalanced.2 hfinished).1, rfl,
    by decide +kernel, (hmain.2 20 _ hrun).2.2⟩

end Host

end Scriptlet
