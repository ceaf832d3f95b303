import Scriptlet.Proofs.Machine.Runs
import Scriptlet.Host

/-!
# What a host can reach

The hosts that acts lead to, and the states of the runs that they bring about.
Between acts the store of a session is sound for the values that the host
holds, and during an act the state of the run is.
-/

set_option autoImplicit false

namespace Scriptlet

namespace Host

inductive Reached (settings : Settings) : Host → Prop where
  | start (seeded : Bool) : Reached settings (Host.start seeded settings)
  | act {h next : Host} {a : Act} {count : Nat} {r : Option Report} (hr : Reached settings h)
      (ha : h.actFor count a = some (r, next)) : Reached settings next

/-- A state of the run that some act of the host brings about. -/
def Passes (settings : Settings) (h : Host) (m : Machine) : Prop :=
  Reached settings h ∧
    ∃ a first n, h.firstState? a = some first ∧ m = Machine.steps settings n first

/-- What holds of a host between acts. -/
structure Settled (settings : Settings) (h : Host) : Prop where
  same : h.session.settings = settings
  idle : Machine.Idle settings.reclaim h.held h.session.store

/-- What an act leaves. A source that is no program changes nothing. A run that an act brings about
ends, and its report is taken over, with its store or, after a program, the swept one. -/
inductive Leaves (h : Host) : Act → Host → Prop where
  | refused {source : Source} {d : Diagnostic} (hd : source.program = .error d) :
      Leaves h (.run source) ⟨h.session, h.held⟩
  | ran {a : Act} {first : Machine} {n : Nat} {store : Store} (hf : h.firstState? a = some first)
      (ho : (Machine.steps h.session.settings n first).outcome?.isSome)
      (hs : store = (Machine.steps h.session.settings n first).store ∨
        store = (Machine.steps h.session.settings n first).store.tidy h.session.settings.reclaim) :
      Leaves h a ⟨⟨store, h.session.settings⟩,
        (Session.report (Machine.steps h.session.settings n first)).values ++ h.held⟩
  | plain {a : Act} {v : Value} (hv : v.ref? = none) : Leaves h a (h.hold v h.session)
  | list (items : List Nat) : Leaves h (.list items) (h.makeList items)
  | global (name : String) : Leaves h (.global name) (h.takeGlobal name)
  | drop (place : Nat) : Leaves h (.drop place) (h.dropAt place)

/-- A source is run as the program that it reads as. -/
theorem firstState_of_run {h : Host} {source : Source} {first : Machine}
    (hf : h.firstState? (.run source) = some first) :
    ∃ program, source.program = .ok program ∧
      first = .ofProgram h.session.store source program := by
  obtain ⟨program, hprogram, rfl⟩ := Option.map_eq_some_iff.mp hf
  refine ⟨program, ?_, rfl⟩
  cases hs : source.program with
  | error d => simp [hs, Except.toOption] at hprogram
  | ok p => simpa [hs, Except.toOption] using hprogram

theorem leaves_runProgram {h next : Host} {a : Act} {source : Source} {program : Program}
    {count : Nat} {r : Option Report}
    (hf : h.firstState? a = some (.ofProgram h.session.store source program))
    (ha : (h.session.runProgramFor count source program).map h.receive = some (r, next)) :
    h.Leaves a next := by
  obtain ⟨⟨report, session⟩, hrun, he⟩ := Option.map_eq_some_iff.mp ha
  obtain ⟨m, hm, he'⟩ := Option.map_eq_some_iff.mp hrun
  obtain ⟨⟨n, rfl⟩, ho⟩ := Machine.runFor_eq_steps hm
  obtain ⟨-, rfl⟩ := Prod.mk.inj he
  obtain ⟨rfl, rfl⟩ := Prod.mk.inj he'
  exact .ran hf ho (.inr rfl)

theorem leaves_of_actFor {h next : Host} {a : Act} {count : Nat} {r : Option Report}
    (ha : h.actFor count a = some (r, next)) : h.Leaves a next := by
  cases a with
  | run source =>
    simp only [actFor, Session.runFor] at ha
    split at ha
    · next d hd =>
      obtain ⟨-, rfl⟩ := Prod.mk.inj (Option.some.inj ha)
      exact .refused hd
    · next program hp => exact leaves_runProgram (by simp [firstState?, hp, Except.toOption]) ha
  | execute source program => exact leaves_runProgram rfl ha
  | call callee args span =>
    obtain ⟨⟨report, session⟩, hrun, he⟩ := Option.map_eq_some_iff.mp ha
    obtain ⟨m, hm, he'⟩ := Option.map_eq_some_iff.mp hrun
    obtain ⟨⟨n, rfl⟩, ho⟩ := Machine.runFor_eq_steps hm
    obtain ⟨-, rfl⟩ := Prod.mk.inj he
    obtain ⟨rfl, rfl⟩ := Prod.mk.inj he'
    exact .ran (a := .call callee args span) rfl ho (.inl rfl)
  | number n =>
    obtain ⟨-, rfl⟩ := Prod.mk.inj (Option.some.inj ha)
    exact .plain rfl
  | text t =>
    obtain ⟨-, rfl⟩ := Prod.mk.inj (Option.some.inj ha)
    exact .plain rfl
  | builtin b =>
    obtain ⟨-, rfl⟩ := Prod.mk.inj (Option.some.inj ha)
    exact .plain rfl
  | list items =>
    obtain ⟨-, rfl⟩ := Prod.mk.inj (Option.some.inj ha)
    exact .list items
  | global name =>
    obtain ⟨-, rfl⟩ := Prod.mk.inj (Option.some.inj ha)
    exact .global name
  | drop place =>
    obtain ⟨-, rfl⟩ := Prod.mk.inj (Option.some.inj ha)
    exact .drop place

end Host

namespace Machine

variable {reclaim : Bool} {host vs ws : List Value} {s : Store}

theorem Idle.perm (h : Idle reclaim vs s) (hp : vs.Perm ws) : Idle reclaim ws s :=
  ⟨h.sound.congr fun r => ((Value.refs_perm hp).count_eq r).symm, h.tiled⟩

theorem Idle.keepAll (h : Idle reclaim host s) (hv : ∀ r ∈ Value.refs vs, s.heap.Live r) :
    Idle reclaim (vs ++ host) (s.keepAll vs) :=
  ⟨(h.sound.keepAll hv).congr fun r => by simp,
    fun hr => (Store.keepAll_steady s vs).tiled (h.tiled hr)⟩

theorem Idle.plain (h : Idle reclaim host s) {v : Value} (hv : v.ref? = none) :
    Idle reclaim (v :: host) s :=
  ⟨h.sound.congr fun r => by simp [hv], h.tiled⟩

theorem Idle.dropAll (h : Idle reclaim (vs ++ host) s) : Idle reclaim host (s.dropAll vs) := by
  have hs : s.Sound (Value.refs vs ++ Value.refs host) := by simpa using h.sound
  exact ⟨hs.dropAll, fun hr => hs.dropAll_steady.tiled (h.tiled hr)⟩

theorem Idle.newList {items : Array Value} (h : Idle reclaim (items.toList ++ host) s) :
    Idle reclaim ((s.newList items).1 :: host) (s.newList items).2 := by
  have hs : s.Sound (Value.refs items.toList ++ Value.refs host) := by simpa using h.sound
  exact ⟨hs.newList.congr fun r => by simp [Store.newList, Heap.newList, Value.ref?],
    fun hr => (Store.newList_steady s items).tiled (h.tiled hr)⟩

/-- How a run that has ended is reported. -/
theorem Sound.report_idle {m : Machine} (h : m.Sound reclaim host) (ho : m.outcome?.isSome) :
    Idle reclaim ((Session.report m).values ++ host) m.store := by
  obtain ⟨control, stack, store, active, depth, out⟩ := m
  cases stack with
  | cons frame stack => cases control <;> simp [outcome?] at ho
  | nil =>
    have hidle := h.idle rfl
    cases control with
    | eval node scope => simp [outcome?] at ho
    | failed d => exact hidle
    | flow f =>
      cases f with
      | value v => exact hidle
      | «return» v => exact hidle
      | «break» => exact hidle.plain rfl
      | «continue» => exact hidle.plain rfl

end Machine

namespace Host

variable {settings : Settings} {h next : Host} {m : Machine}

theorem value_live (hs : Settled settings h) (place : Nat) :
    ∀ r ∈ (h.value place).ref?, h.session.store.heap.Live r := by
  intro r hr
  by_cases hp : place < h.held.length
  · refine hs.idle.sound.live_outer (Value.mem_refs.mpr ⟨h.value place, ?_, hr⟩)
    simp [value, hp]
  · simp [value, hp, Value.ref?] at hr

theorem values_live (hs : Settled settings h) (places : List Nat) :
    ∀ r ∈ Value.refs (places.map h.value), h.session.store.heap.Live r := by
  intro r hr
  obtain ⟨v, hv, hvr⟩ := Value.mem_refs.mp hr
  obtain ⟨place, -, rfl⟩ := List.mem_map.mp hv
  exact value_live hs place r hvr

/-- Every run begins soundly. -/
theorem firstState_sound (hs : Settled settings h) {a : Act} (hm : h.firstState? a = some m) :
    m.Sound settings.reclaim h.held := by
  cases a with
  | run source =>
    obtain ⟨program, -, rfl⟩ := Option.map_eq_some_iff.mp hm
    exact hs.idle.ofProgram source program
  | execute source program =>
    obtain rfl := Option.some.inj hm
    exact hs.idle.ofProgram source program
  | call callee args span =>
    obtain rfl := Option.some.inj hm
    refine (hs.idle.keepAll fun r hr => ?_).ofCall _ span
    exact values_live hs (callee :: args) r hr
  | _ => simp [firstState?] at hm

theorem Settled.hold (hs : Settled settings h) {v : Value} (hv : v.ref? = none) :
    Settled settings (h.hold v h.session) :=
  ⟨hs.same, hs.idle.plain hv⟩

/-- The value at a place is held once, and the others are held besides. -/
theorem Settled.apart (hs : Settled settings h) (place : Nat) :
    Machine.Idle settings.reclaim ([h.value place] ++ h.held.eraseIdx place) h.session.store := by
  by_cases hp : place < h.held.length
  · have hv : h.value place = h.held[place] := by simp [value, hp]
    rw [hv]
    exact hs.idle.perm (List.getElem_cons_eraseIdx_perm hp).symm
  · have hv : h.value place = .nothing := by simp [value, hp]
    rw [hv, List.eraseIdx_of_length_le (Nat.le_of_not_lt hp)]
    exact hs.idle.plain rfl

theorem Settled.act (hs : Settled settings h) {a : Act} {count : Nat} {r : Option Report}
    (ha : h.actFor count a = some (r, next)) : Settled settings next := by
  cases leaves_of_actFor ha with
  | refused _ => exact ⟨hs.same, hs.idle⟩
  | ran hf ho hstore =>
    rw [hs.same] at ho hstore ⊢
    have hidle := ((firstState_sound hs hf).steps _).report_idle ho
    rcases hstore with rfl | rfl
    · exact ⟨rfl, hidle⟩
    · exact ⟨rfl, hidle.tidy⟩
  | plain hv => exact hs.hold hv
  | list items =>
    have hk := hs.idle.keepAll (values_live hs items)
    have hk' : Machine.Idle settings.reclaim ((items.map h.value).toArray.toList ++ h.held)
        (h.session.store.keepAll (items.map h.value)) := hk
    exact ⟨hs.same, hk'.newList⟩
  | global name =>
    have hlive : ∀ r ∈ Value.refs [(h.session.global? name).getD .nothing],
        h.session.store.heap.Live r := by
      cases hg : h.session.global? name with
      | none => simp [Value.ref?]
      | some v => exact fun r hr => hs.idle.sound.live_get? hg r (by simpa using hr)
    exact ⟨hs.same, hs.idle.keepAll hlive⟩
  | drop place =>
    have hdrop := (hs.apart place).dropAll
    rw [← Store.drop_eq_dropAll] at hdrop
    exact ⟨hs.same, hdrop⟩

theorem Reached.settled (hr : Reached settings h) : Settled settings h := by
  induction hr with
  | start seeded =>
    cases seeded
    · exact ⟨rfl, .bare⟩
    · exact ⟨rfl, .seeded⟩
  | act _ ha ih => exact ih.act ha

theorem Passes.sound (hm : Passes settings h m) : m.Sound settings.reclaim h.held := by
  obtain ⟨hr, a, first, n, hfirst, rfl⟩ := hm
  exact (firstState_sound hr.settled hfirst).steps n

end Host

end Scriptlet
