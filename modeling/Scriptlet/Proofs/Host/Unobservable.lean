import Scriptlet.Proofs.Host.Reached
import Scriptlet.Proofs.Machine.Lockstep

/-!
# Giving scopes back cannot be seen

Two hosts do the same acts, the second with a session in which every scope
stays. They hold the same values between acts, in stores that are alike, and
each act is seen alike.
-/

set_option autoImplicit false

namespace Scriptlet

variable {limit : Nat} {host vs : List Value} {s s' : Store}

namespace Store

theorem alike_bare : Store.bare.Alike Store.bare := by
  have hheap : Store.bare.heap.Agrees Store.bare.heap :=
    ⟨rfl, rfl, fun _ _ h => h, fun f fn h => by cases h⟩
  refine ⟨hheap, rfl, ?_, rfl, rfl⟩
  intro slot sc hsc
  cases slot with
  | zero =>
    obtain rfl : (⟨0, none, [], none⟩ : Scope) = sc := Option.some.inj hsc
    exact ⟨none, rfl⟩
  | succ slot => simp [scopeAt?, bare] at hsc

theorem Alike.defineAll (ha : s.Alike s') (hi : Machine.Idle true host s)
    (hi' : Machine.Idle false host s') {bindings : Bindings}
    (hv : ∀ b ∈ bindings, b.2.ref? = none) :
    (bindings.foldl (fun s b => s.define global b.1 b.2) s).Alike
      (bindings.foldl (fun s b => s.define global b.1 b.2) s') := by
  induction bindings generalizing s s' with
  | nil => exact ha
  | cons b bindings ih =>
    have hb : b.2.ref? = none := hv b (by simp)
    have hs : s.Sound (b.2.ref?.toList ++ Value.refs host) := by simpa [hb] using hi.sound
    have hs' : s'.Sound (b.2.ref?.toList ++ Value.refs host) := by simpa [hb] using hi'.sound
    obtain ⟨hd, hh⟩ := hi.sound.regular.standing_global.holds
    have hone : (s.define global b.1 b.2).Alike (s'.define global b.1 b.2) :=
      ha.define hh hs hs' (List.Subset.refl _)
    exact ih hone (hi.define hb global b.1) (hi'.define hb global b.1)
      fun c hc => hv c (by simp [hc])

theorem alike_seeded : Store.seeded.Alike Store.seeded :=
  alike_bare.defineAll .bare .bare Machine.seeds_plain

theorem Alike.tidy (ha : s.Alike s') (hi : Machine.Idle true host s) :
    (s.tidy true).Alike (s'.tidy false) := by
  have hsw := hi.sweepable.swept
  exact ha.within ⟨fun i sc h => ((hsw.scopeAt? i sc).mp h).1, hsw.shrinks, hsw.created⟩

end Store

/-- A program begun by both hosts. -/
theorem Machine.Idle.paired {host' : List Value} (hs : Machine.Idle true host s)
    (hs' : Machine.Idle false host' s') (ha : s.Alike s')
    (hmore : Value.refs host ⊆ Value.refs host') (source : Source) (program : Program) :
    Machine.Paired host host' (.ofProgram s source program) (.ofProgram s' source program) :=
  ⟨hs.ofProgram source program, hs'.ofProgram source program, ⟨ha, rfl, rfl, rfl, rfl, rfl⟩, hmore⟩

namespace Host

/-- Two hosts that hold the same, in stores of which the second gives no scope back. -/
structure Beside (limit : Nat) (h h' : Host) : Prop where
  settled : Settled ⟨limit, true⟩ h
  settled' : Settled ⟨limit, false⟩ h'
  held : h'.held = h.held
  store : h.session.store.Alike h'.session.store

/-- What two hosts are left with by an act. -/
structure SameEnd (p p' : Option Report × Host) : Prop where
  report : p'.1 = p.1
  held : p'.2.held = p.2.held
  store : p.2.session.store.Alike p'.2.session.store
  results : ∀ r ∈ p.1, ∀ v ∈ r.values, v ∈ p.2.held

variable {h h' : Host}

theorem Beside.start (seeded : Bool) (limit : Nat) :
    Beside limit (Host.start seeded ⟨limit, true⟩) (Host.start seeded ⟨limit, false⟩) := by
  refine ⟨(Reached.start seeded).settled, (Reached.start seeded).settled, rfl, ?_⟩
  cases seeded with
  | true => exact Store.alike_seeded
  | false => exact Store.alike_bare

theorem Beside.value (hb : Beside limit h h') (place : Nat) : h'.value place = h.value place := by
  rw [Host.value, Host.value, hb.held]

theorem Beside.values (hb : Beside limit h h') (places : List Nat) :
    places.map h'.value = places.map h.value :=
  List.map_congr_left fun place _ => hb.value place

theorem Beside.global? (hb : Beside limit h h') (name : String) :
    h'.session.global? name = h.session.global? name :=
  hb.store.get? hb.settled.idle.sound.regular hb.settled'.idle.sound.regular
    hb.settled.idle.sound.regular.standing_global name

/-- Both take over the same report. -/
theorem Beside.receive (hb : Beside limit h h') (r : Report) {session session' : Session}
    (hs : session.store.Alike session'.store) :
    SameEnd (h.receive (r, session)) (h'.receive (r, session')) := by
  refine ⟨rfl, congrArg (r.values ++ ·) hb.held, hs, ?_⟩
  intro r' hr v hv
  obtain rfl := Option.some.inj hr
  exact List.mem_append_left _ hv

/-- What both leave of runs that end in lockstep. -/
theorem Beside.receiveRun (hb : Beside limit h h') {m m' : Machine} (hm : m.Mirrors m')
    {session session' : Session} (hs : session.store.Alike session'.store) :
    SameEnd (h.receive (Session.report m, session)) (h'.receive (Session.report m', session')) := by
  have hreport : Session.report m' = Session.report m := by
    rw [Session.report, Session.report, hm.printed, hm.outcome?]
  rw [hreport]
  exact hb.receive _ hs

theorem Beside.runProgram (hb : Beside limit h h') (count : Nat) (source : Source)
    (program : Program) :
    Option.Rel SameEnd ((h.session.runProgramFor count source program).map h.receive)
      ((h'.session.runProgramFor count source program).map h'.receive) := by
  have hidle' : Machine.Idle false h.held h'.session.store := hb.held ▸ hb.settled'.idle
  have hfirst := hb.settled.idle.paired hidle' hb.store (List.Subset.refl _) source program
  have hlast : Option.Rel (Machine.Paired h.held h.held) (Machine.runFor ⟨limit, true⟩ count _)
      (Machine.runFor ⟨limit, false⟩ count _) := hfirst.runFor count
  rw [Session.runProgramFor, Session.runProgramFor, hb.settled.same, hb.settled'.same]
  generalize hrun : Machine.runFor ⟨limit, true⟩ count _ = last at hlast ⊢
  generalize Machine.runFor ⟨limit, false⟩ count _ = last' at hlast ⊢
  cases hlast with
  | none => exact .none
  | @some m m' hp =>
    have hidle := hp.sound.report_idle (Machine.runFor_eq_steps hrun).2
    exact .some (hb.receiveRun hp.mirrors (hp.mirrors.store.tidy hidle))

/-- Both hold some values once more. -/
theorem Beside.keepAll (hb : Beside limit h h') {vs : List Value}
    (hv : ∀ r ∈ Value.refs vs, h.session.store.heap.Live r) :
    Machine.Idle true (vs ++ h.held) (h.session.store.keepAll vs) ∧
      Machine.Idle false (vs ++ h.held) (h'.session.store.keepAll vs) ∧
      (h.session.store.keepAll vs).Alike (h'.session.store.keepAll vs) := by
  have hv' : ∀ r ∈ Value.refs vs, h'.session.store.heap.Live r := by
    intro r hr
    obtain ⟨v, hvs, hvr⟩ := Value.mem_refs.mp hr
    have hthere : There h.session.store.heap v := fun r hr =>
      hv r (Value.mem_refs.mpr ⟨v, hvs, hr⟩)
    exact hb.store.heap.there hthere r hvr
  have hidle' := hb.settled'.idle.keepAll hv'
  rw [hb.held] at hidle'
  exact ⟨hb.settled.idle.keepAll hv, hidle', hb.store.keepAll vs⟩

theorem Beside.call (hb : Beside limit h h') (count : Nat) (callee : Nat) (args : List Nat)
    (span : Span) :
    Option.Rel SameEnd (h.actFor count (.call callee args span))
      (h'.actFor count (.call callee args span)) := by
  have hlive : ∀ r ∈ Value.refs (h.value callee :: args.map h.value),
      h.session.store.heap.Live r := values_live hb.settled (callee :: args)
  obtain ⟨hidle, hidle', halike⟩ := hb.keepAll hlive
  have hin : Machine.Twins h.held h.held (h.value callee :: args.map h.value)
      ⟨.flow .continue, [], h.session.store.keepAll (h.value callee :: args.map h.value), [], 0, ""⟩
      ⟨.flow .continue, [], h'.session.store.keepAll (h.value callee :: args.map h.value), [], 0,
        ""⟩ :=
    ⟨hidle.ready _, hidle'.ready _, ⟨halike, rfl, rfl, rfl, rfl, rfl⟩, List.Subset.refl _⟩
  have hfirst : Machine.Paired h.held h.held
      (.ofCall limit (h.session.store.keepAll (h.value callee :: args.map h.value)) (h.value callee)
        (args.map h.value) span)
      (.ofCall limit (h'.session.store.keepAll (h.value callee :: args.map h.value))
        (h.value callee) (args.map h.value) span) :=
    ⟨hidle.ofCall limit span, hidle'.ofCall limit span, hin.apply limit span, hin.more⟩
  have hlast : Option.Rel (Machine.Paired h.held h.held) (Machine.runFor ⟨limit, true⟩ count _)
      (Machine.runFor ⟨limit, false⟩ count _) := hfirst.runFor count
  simp only [Host.actFor, Session.callFor, Host.keeping, hb.settled.same, hb.settled'.same,
    hb.value, hb.values]
  generalize Machine.runFor ⟨limit, true⟩ count _ = last at hlast ⊢
  generalize Machine.runFor ⟨limit, false⟩ count _ = last' at hlast ⊢
  cases hlast with
  | none => exact .none
  | @some m m' hp => exact .some (hb.receiveRun hp.mirrors hp.mirrors.store)

theorem Beside.hold (hb : Beside limit h h') {v : Value} {session session' : Session}
    (hs : session.store.Alike session'.store) :
    Option.Rel SameEnd (some (none, h.hold v session)) (some (none, h'.hold v session')) :=
  .some ⟨rfl, congrArg (v :: ·) hb.held, hs, by simp⟩

/-- Every act ends for both, with the same report, or for neither. -/
theorem Beside.act (hb : Beside limit h h') (count : Nat) (a : Act) :
    Option.Rel SameEnd (h.actFor count a) (h'.actFor count a) := by
  cases a with
  | run source =>
    simp only [actFor, Session.runFor]
    cases source.program with
    | error d => exact .some (hb.receive ⟨"", .error d⟩ hb.store)
    | ok program => exact hb.runProgram count source program
  | execute source program => exact hb.runProgram count source program
  | call callee args span => exact hb.call count callee args span
  | number n => exact hb.hold hb.store
  | text t => exact hb.hold hb.store
  | builtin b => exact hb.hold hb.store
  | list items =>
    have halike := (hb.store.keepAll (items.map h.value)).newList (items.map h.value).toArray
    have hv := (hb.store.keepAll (items.map h.value)).heap.newList_value
      (items.map h.value).toArray
    have hv' : (Store.newList (h'.session.store.keepAll (items.map h.value))
        (items.map h.value).toArray).1 = (Store.newList (h.session.store.keepAll
        (items.map h.value)) (items.map h.value).toArray).1 := hv
    simp only [actFor, makeList, keeping, hb.values, hv']
    exact hb.hold halike
  | global name =>
    simp only [actFor, takeGlobal, hb.global?]
    exact hb.hold (hb.store.keepAll _)
  | drop place =>
    have hs : h.session.store.Sound (Value.refs [h.value place] ++
        Value.refs (h.held.eraseIdx place)) := by
      simpa using (hb.settled.apart place).sound
    have hs' : h'.session.store.Sound (Value.refs [h.value place] ++
        Value.refs (h.held.eraseIdx place)) := by
      simpa [hb.value, hb.held] using (hb.settled'.apart place).sound
    have halike := hb.store.dropAll hs hs' (List.Subset.refl _)
    rw [← Store.drop_eq_dropAll, ← Store.drop_eq_dropAll] at halike
    simp only [actFor, dropAt, hb.value]
    exact .some ⟨rfl, congrArg (List.eraseIdx · place) hb.held, halike, by simp⟩

/-- The same is seen of an act, and the hosts go on alike. -/
theorem Beside.seen (hb : Beside limit h h') {r : Option Report}
    (hr : ∀ p ∈ r, ∀ v ∈ p.values, v ∈ h.held) : h'.seen r = h.seen r := by
  have hbal := hb.settled.idle.sound.balanced
  have hdisplay {v : Value} (hv : There h.session.store.heap v) :
      v.display h'.session.store.heap = v.display h.session.store.heap :=
    hb.store.heap.display hbal hv
  have hglobals (name : String) :
      (h'.session.global? name).map (fun v => v.display h'.session.store.heap) =
        (h.session.global? name).map fun v => v.display h.session.store.heap := by
    rw [hb.global?]
    cases hg : h.session.global? name with
    | none => rfl
    | some v => exact congrArg some (hdisplay (hb.settled.idle.sound.live_get? hg))
  have hresult : (r.map fun p => p.result.map fun v => v.display h'.session.store.heap) =
      r.map fun p => p.result.map fun v => v.display h.session.store.heap := by
    cases r with
    | none => rfl
    | some p =>
      obtain ⟨printed, result⟩ := p
      cases result with
      | error d => rfl
      | ok v =>
        have hv : v ∈ h.held := hr _ rfl v (by simp [Report.values])
        have hthere : There h.session.store.heap v := fun q hq =>
          hb.settled.idle.sound.live_outer (Value.mem_refs.mpr ⟨v, hv, hq⟩)
        exact congrArg (fun t => some (Except.ok t)) (hdisplay hthere)
  simp only [Host.seen, hresult]
  rw [funext hglobals]

theorem Beside.watchFor (hb : Beside limit h h') (count : Nat) (acts : List Act) :
    Host.watchFor count acts h' = Host.watchFor count acts h := by
  induction acts generalizing h h' with
  | nil => rfl
  | cons a acts ih =>
    have hend := hb.act count a
    simp only [Host.watchFor]
    generalize hact : h.actFor count a = e at hend ⊢
    generalize hact' : h'.actFor count a = e' at hend ⊢
    cases hend with
    | none => rfl
    | @some p p' hp =>
      obtain ⟨r, next⟩ := p
      obtain ⟨r', next'⟩ := p'
      obtain rfl : r' = r := hp.report
      have hnext : Beside limit next next' :=
        ⟨hb.settled.act hact, hb.settled'.act hact', hp.held, hp.store⟩
      simp only [hnext.seen hp.results, ih hnext]

/-- Whether scopes are given back cannot be seen. -/
theorem reclaim_unobservable (seeded : Bool) (limit count : Nat) (acts : List Act) :
    Host.watchFor count acts (Host.start seeded ⟨limit, true⟩) =
      Host.watchFor count acts (Host.start seeded ⟨limit, false⟩) :=
  ((Beside.start seeded limit).watchFor count acts).symm

end Host

end Scriptlet
