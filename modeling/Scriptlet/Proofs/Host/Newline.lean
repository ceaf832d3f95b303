import Scriptlet.Proofs.Grammar.Newline
import Scriptlet.Proofs.Host.Unobservable
import Scriptlet.Proofs.Machine.Echoes

/-!
# One program or two

A host that runs a text and then another sees what it would see of one run of
both, with a newline between them. The three runs go beside one run of the
second text, in which no scope is given back and the value of the first text
is held.
-/

set_option autoImplicit false

namespace Scriptlet

namespace Seen

/-- How a run has ended, seen from outside: the text of its value, or the name and the message of
its error. -/
def ending (s : Seen) : Option (Except (String × String) String) :=
  s.result.map (Except.mapError fun d => (d.name, d.message))

/-- The same is seen as in the second, but that `out` is printed before. -/
structure Continues (out : String) (whole second : Seen) : Prop where
  printed : whole.printed = out ++ second.printed
  ending : whole.ending = second.ending
  globals : whole.globals = second.globals

theorem Continues.of_same {out : String} {whole second same : Seen}
    (h : whole.Continues out same) (h' : second.Continues "" same) :
    whole.Continues out second := by
  refine ⟨?_, h.ending.trans h'.ending.symm, h.globals.trans h'.globals.symm⟩
  rw [h.printed, h'.printed, String.empty_append]

end Seen

namespace Machine

variable {host host' : List Value} {limit : Nat} {out : String} {e k m : Machine}

/-! ## Two runs that have ended -/

namespace Echoes

/-- But for places the stores are alike, also when the first has given scopes back. -/
theorem tidied (he : Echoes host host' out e k) (ho : e.outcome?.isSome) :
    (∃ t : Store, (e.store.tidy true).Alike t ∧ t.Regular ∧ t.unplaced = k.store.unplaced) ∧
      Idle true ((Session.report e).values ++ host) (e.store.tidy true) := by
  obtain ⟨t, hp, ht⟩ := he
  have hidle := hp.sound.report_idle ho
  exact ⟨⟨t.store, hp.mirrors.store.tidy hidle, hp.sound'.ready.sound.regular,
    congrArg Machine.store ht⟩, hidle.tidy⟩

theorem printed (he : Echoes host host' out e k) : e.printed = out ++ k.printed := by
  obtain ⟨t, hp, ht⟩ := he
  have hprinted : "" ++ t.printed = out ++ k.printed := congrArg Machine.printed ht
  rwa [hp.mirrors.printed, String.empty_append] at hprinted

theorem display (he : Echoes host host' out e k) (ho : e.outcome?.isSome) {v : Value}
    (hv : There (e.store.tidy true).heap v) :
    v.display (e.store.tidy true).heap = v.display k.store.heap := by
  obtain ⟨⟨t, halike, -, ht⟩, hidle⟩ := he.tidied ho
  have hheap : t.heap.unplaced = k.store.heap.unplaced := congrArg Store.heap ht
  rw [← halike.heap.display hidle.sound.balanced hv, ← Value.display_unplaced, hheap,
    Value.display_unplaced]

theorem get? (he : Echoes host host' out e k) (ho : e.outcome?.isSome) (name : String) :
    (e.store.tidy true).get? Store.global name = k.store.get? Store.global name := by
  obtain ⟨⟨t, halike, hregular, ht⟩, hidle⟩ := he.tidied ho
  have hs := hidle.sound.regular
  rw [← halike.get? hs hregular hs.standing_global name, ← Store.get?_unplaced, ht,
    Store.get?_unplaced]
  rfl

theorem globals (he : Echoes host host' out e k) (ho : e.outcome?.isSome) (name : String) :
    ((e.store.tidy true).get? Store.global name).map (·.display (e.store.tidy true).heap) =
      (k.store.get? Store.global name).map (·.display k.store.heap) := by
  rw [← he.get? ho]
  obtain ⟨-, hidle⟩ := he.tidied ho
  cases hg : (e.store.tidy true).get? Store.global name with
  | none => rfl
  | some v => exact congrArg some (he.display ho (hidle.sound.live_get? hg))

theorem ending (he : Echoes host host' out e k) (ho : e.outcome?.isSome) :
    ((Session.report e).result.map (·.display (e.store.tidy true).heap)).mapError
        (fun d => (d.name, d.message)) =
      ((Session.report k).result.map (·.display k.store.heap)).mapError
        fun d => (d.name, d.message) := by
  obtain ⟨-, hidle⟩ := he.tidied ho
  obtain ⟨r, hr⟩ := Option.isSome_iff_exists.mp ho
  have houtcome := he.outcome?
  rw [hr, Option.map_some] at houtcome
  obtain ⟨r', hr', hsame⟩ := Option.map_eq_some_iff.mp houtcome.symm
  have hresult : (Session.report e).result = r := by simp [Session.report, hr]
  have hresult' : (Session.report k).result = r' := by simp [Session.report, hr']
  rw [hresult']
  cases r with
  | error d =>
    cases r' with
    | ok w => cases hsame
    | error d' =>
      have hd : d'.unplaced = d.unplaced := Except.error.inj hsame
      have hcause : d'.cause = d.cause := (congrArg Diagnostic.cause hd :)
      simp only [hresult, Except.map, Except.mapError, Diagnostic.name, Diagnostic.message, hcause]
  | ok v =>
    cases r' with
    | error d' => cases hsame
    | ok w =>
      obtain rfl : w = v := Except.ok.inj hsame
      have hw : w ∈ (Session.report e).values := by simp [Report.values, hresult]
      have hthere : There (e.store.tidy true).heap w := fun q hq =>
        hidle.sound.live_outer (Value.mem_refs.mpr ⟨w, List.mem_append_left _ hw, hq⟩)
      rw [hresult]
      exact congrArg Except.ok (he.display ho hthere)

/-- What hosts see that take over what the runs leave. -/
theorem seen {h : Host} (he : Echoes h.held host' out e k) (ho : e.outcome?.isSome) (g : Host) :
    ((h.receive (Session.afterProgram ⟨limit, true⟩ e)).2.seen (some (Session.report e))).Continues
      out ((g.receive (Session.afterProgram ⟨limit, false⟩ k)).2.seen
        (some (Session.report k))) :=
  ⟨he.printed, congrArg some (he.ending ho), funext (he.globals ho)⟩

end Echoes

/-! ## The end of the first program -/

theorem Mirrors.stray (hm : m.Mirrors k) (h : k.Stray) : m.Stray := by
  obtain ⟨f, nodes, last, hc, hs, hf⟩ := h
  refine ⟨f, nodes, last, ?_, ?_, hf⟩
  · have hcontrol := hm.control.symm.trans hc
    cases hmc : m.control <;> simp_all [Control.kept]
  · obtain ⟨frame, tail, hms, hframe, htail⟩ := List.map_eq_cons_iff.mp (hm.stack.symm.trans hs)
    obtain rfl := List.map_eq_nil_iff.mp htail
    cases frame <;> simp only [Frame.kept, reduceCtorEq] at hframe
    rw [hms, hframe]

section

variable {settings : Settings} {s t : Store} {a b w : Source} {p q whole : Program} {n : Node}
  {tail : List Node} {v : Value}

/-- Before its first statement a program does nothing. -/
theorem runs_ofProgram {nodes : List Node} (h : bareAll p.statements = bareAll nodes)
    (s : Store) (a b : Source) :
    (ofProgram s a p).Runs ""
      ⟨.flow (.value .nothing), [], s, [⟨Activation.programName, b, none⟩], 0, ""⟩ nodes
      .nothing := by
  simp [Runs, atop, ofProgram, Frame.unplaced, Control.unplaced, Activation.unplaced, h]

/-- The first statement of a program begins where another program has ended. -/
theorem runs_after (hk : Ends settings (ofProgram s a p) k) (ho : k.outcome?.isSome)
    (hq : q.statements = n :: tail) (settings' : Settings) :
    (step settings' (ofProgram k.store b q)).Runs k.printed
      { k with control := .eval n Store.global } tail .nothing := by
  obtain ⟨count, hrun⟩ := hk
  obtain ⟨⟨steps, hsteps⟩, -⟩ := runFor_eq_steps hrun
  have hfirst : (ofProgram s a p).Over [] 0 [⟨Activation.programName, a, none⟩] :=
    ⟨[.program p.statements .nothing], [], rfl, rfl, rfl, rfl⟩
  have hover := hfirst.steps_nil settings steps
  rw [← hsteps] at hover
  have hdone := finished_of_outcome ho
  obtain ⟨hdepth, hactive⟩ := hover.finished hdone
  have hstep : step settings' (ofProgram k.store b q) =
      ⟨.eval n Store.global, [.program tail .nothing], k.store,
        [⟨Activation.programName, b, none⟩], 0, ""⟩ := by
    rw [ofProgram, hq]
    rfl
  simp [hstep, Runs, atop, hdone.1, hdepth, hactive, Activation.unplaced, Frame.unplaced]

/-- The run of a program of the statements of two, beside a run of the second alone that begins
where a run of the first has ended. -/
theorem echoes_second (hs : Idle true host s) (ht : Idle false host t)
    (ha : s.Alike t)
    (hwhole : bareAll whole.statements = bareAll (p.statements ++ q.statements))
    (hq : q.statements ≠ []) (hk : Ends ⟨limit, false⟩ (ofProgram t a p) k)
    (hv : k.outcome? = some (.ok v))
    (hstray : ∀ j, ¬ (steps ⟨limit, true⟩ j (ofProgram s a p)).Stray) (w b : Source) :
    EndTogether (Echoes host (v :: host) k.printed) ⟨limit, true⟩ ⟨limit, false⟩
      (ofProgram s w whole) (ofProgram k.store b q) := by
  obtain ⟨n, tail, hq⟩ := List.exists_cons_of_ne_nil hq
  have hself := List.Subset.refl (Value.refs host)
  have hfirst := hs.paired ht ha hself a p
  have hboth := hs.paired ht ha hself w whole
  have hnext := runs_after hk (by rw [hv]; rfl) hq (b := b) ⟨limit, false⟩
  obtain ⟨count, hk⟩ := hk
  obtain ⟨j, hj, hgoes⟩ := (runs_ofProgram rfl t a a).goes_on
    (runs_ofProgram (hq ▸ hwhole) t w a) hk hv
    fun j hj => hstray j ((hfirst.steps j).mirrors.stray hj)
  have hlingers : Lingers host k.printed v tail _ _ := ⟨_, _, hboth.steps j, hgoes, hnext⟩
  have hends : EndTogether (Echoes host (v :: host) k.printed) ⟨limit, true⟩ ⟨limit, false⟩ _ _ :=
    endTogether_of_rel hlingers.runFor
  refine hends.before (fun i hi => ?_) (outcome?_of_stack (by simp [ofProgram]))
  rw [← (hboth.steps i).mirrors.outcome?]
  exact hj i hi

end

end Machine

namespace Host

open Machine

variable {limit : Nat} {settings : Settings} {h h₁ h₂ next : Host} {a b : Source} {p q : Program}
  {v : Value}

theorem Reached.beside (hr : Reached ⟨limit, true⟩ h) : ∃ h', Beside limit h h' := by
  induction hr with
  | start seeded => exact ⟨_, .start seeded limit⟩
  | @act h next act count r _ ha ih =>
    obtain ⟨h', hb⟩ := ih
    have hend := hb.act count act
    rw [ha] at hend
    generalize hact : h'.actFor count act = result at hend
    cases hend with
    | @some _ p hp => exact ⟨p.2, hb.settled.act ha, hb.settled'.act hact, hp.held, hp.store⟩

/-- A host runs a program by a run that ends. -/
theorem actFor_run (hs : Settled settings h) (hp : a.program = .ok p) {r : Option Report} :
    (∃ count, h.actFor count (.run a) = some (r, next)) ↔
      ∃ e, Machine.Ends settings (ofProgram h.session.store a p) e ∧
        h.receive (Session.afterProgram settings e) = (r, next) := by
  have hact (count : Nat) : h.actFor count (.run a) =
      (Machine.runFor settings count (ofProgram h.session.store a p)).map fun e =>
        h.receive (Session.afterProgram settings e) := by
    simp only [actFor, Session.runFor, hp, Session.runProgramFor, hs.same, Option.map_map]
    rfl
  constructor
  · rintro ⟨count, ha⟩
    rw [hact] at ha
    obtain ⟨e, he, hr⟩ := Option.map_eq_some_iff.mp ha
    exact ⟨e, ⟨count, he⟩, hr⟩
  · rintro ⟨e, ⟨count, he⟩, hr⟩
    exact ⟨count, by rw [hact, he, Option.map_some, hr]⟩

theorem actFor_run_iff (hs : Settled settings h) (hp : a.program = .ok p) :
    (∃ count result, h.actFor count (.run a) = some result) ↔
      ∃ e, Machine.Ends settings (ofProgram h.session.store a p) e := by
  constructor
  · rintro ⟨count, ⟨r, next⟩, hact⟩
    obtain ⟨e, he, -⟩ := (actFor_run hs hp).mp ⟨count, hact⟩
    exact ⟨e, he⟩
  · rintro ⟨e, he⟩
    obtain ⟨count, hact⟩ := (actFor_run hs hp).mpr ⟨e, he, rfl⟩
    exact ⟨count, _, hact⟩

/-- A text that a host runs to a value is a program. -/
theorem program_of_actFor {count : Nat} {r : Report}
    (ha : h.actFor count (.run a) = some (some r, h₁)) (hv : r.result = .ok v) :
    ∃ p, a.program = .ok p := by
  cases hp : a.program with
  | ok p => exact ⟨p, rfl⟩
  | error d =>
    simp only [actFor, Session.runFor, hp, Option.map_some, receive, Option.some.injEq,
      Prod.mk.injEq] at ha
    rw [← ha.1] at hv
    cases hv

/-- A run of a program to a value, from a store in which no scope has been given back, and what a
host has afterwards that has run it too and may have let go of the value. -/
structure Shadow (limit : Nat) (h h₂ : Host) (a : Source) (p : Program) (v : Value) (s : Store)
    (k : Machine) : Prop where
  idle : Idle false h.held s
  store : h.session.store.Alike s
  ends : Machine.Ends ⟨limit, false⟩ (ofProgram s a p) k
  outcome : k.outcome? = some (.ok v)
  settled : Settled ⟨limit, true⟩ h₂
  idle_after : Idle false (v :: h.held) k.store
  store_after : h₂.session.store.Alike k.store
  more : Value.refs h₂.held ⊆ Value.refs (v :: h.held)

/-- After a run to a value the host may let go of it. -/
theorem after_run {e k : Machine} (hp : Paired h.held h.held e k) (hv : e.outcome? = some (.ok v))
    (hnext : (h.receive (Session.afterProgram ⟨limit, true⟩ e)).2 = h₁)
    (hheld : h₂ = h₁ ∨ h₂ = h₁.dropAt 0) :
    Settled ⟨limit, true⟩ h₂ ∧ h₂.session.store.Alike k.store ∧
      Value.refs h₂.held ⊆ Value.refs (v :: h.held) := by
  have hvalues : (Session.report e).values = [v] := by simp [Report.values, Session.report, hv]
  have hidle := hp.sound.report_idle (by rw [hv]; rfl)
  have halike := hp.mirrors.store.tidy hidle
  have hidle : Idle true ([v] ++ h.held) (e.store.tidy true) := hvalues ▸ hidle.tidy
  have hh₁ : h₁ = ⟨⟨e.store.tidy true, ⟨limit, true⟩⟩, v :: h.held⟩ := by
    rw [← hnext]
    simp [receive, Session.afterProgram, hvalues]
  subst hh₁
  rcases hheld with rfl | rfl
  · exact ⟨⟨rfl, hidle⟩, halike, List.Subset.refl _⟩
  · have hs : (e.store.tidy true).Sound (Value.refs [v] ++ Value.refs h.held) := by
      simpa using hidle.sound
    have hdrop := halike.within hs.dropAll_within
    have hdropped := hidle.dropAll
    rw [← Store.drop_eq_dropAll] at hdrop hdropped
    refine ⟨⟨rfl, hdropped⟩, hdrop, ?_⟩
    show Value.refs h.held ⊆ _
    rw [Value.refs_cons]
    exact List.subset_append_right ..

theorem shadowed {count : Nat} {r : Report} (hr : Reached ⟨limit, true⟩ h)
    (hp : a.program = .ok p) (ha : h.actFor count (.run a) = some (some r, h₁))
    (hv : r.result = .ok v) (hheld : h₂ = h₁ ∨ h₂ = h₁.dropAt 0) :
    ∃ s k, Shadow limit h h₂ a p v s k ∧ k.printed = r.printed := by
  obtain ⟨h', hb⟩ := hr.beside
  have hset := hr.settled
  obtain ⟨e, he, hrec⟩ := (actFor_run hset hp).mp ⟨count, ha⟩
  obtain ⟨hreport, hnext⟩ := Prod.mk.inj hrec
  obtain rfl := Option.some.inj hreport
  have hidle : Idle false h.held h'.session.store := hb.held ▸ hb.settled'.idle
  have hfirst := hset.idle.paired hidle hb.store (List.Subset.refl _) a p
  obtain ⟨k, hk, hpair⟩ := (endTogether_of_rel hfirst.runFor).1 e he
  have hev : e.outcome? = some (.ok v) := by
    obtain ⟨o, ho⟩ := Option.isSome_iff_exists.mp he.outcome
    simpa [Session.afterProgram, Session.report, ho] using hv
  have hkv : k.outcome? = some (.ok v) := hpair.mirrors.outcome?.trans hev
  have hkvalues : (Session.report k).values = [v] := by simp [Report.values, Session.report, hkv]
  have hkidle := hpair.sound'.report_idle (by rw [hkv]; rfl)
  rw [hkvalues] at hkidle
  obtain ⟨hset₂, halike₂, hmore⟩ := after_run hpair hev hnext hheld
  exact ⟨_, k, ⟨hidle, hb.store, hk, hkv, hset₂, hkidle, halike₂, hmore⟩, hpair.mirrors.printed⟩

/-- No `RETURN`, `BREAK` or `CONTINUE` reaches the top of the program that the host runs. -/
def Straight (h : Host) (source : Source) : Prop :=
  ∀ first n, h.firstState? (.run source) = some first →
    ¬ (steps h.session.settings n first).Stray

/-- A text that runs to a value and then another, or one text of both: the same is printed, the
last run ends in the same way, and every global has the same text. The value of the first text may
be held meanwhile, or not. -/
theorem run_newline {count : Nat} {r : Report} (hr : Reached ⟨limit, true⟩ h)
    (hq : b.program = .ok q) (hne : q.statements ≠ [])
    (ha : h.actFor count (.run a) = some (some r, h₁)) (hv : r.result = .ok v)
    (hs : h.Straight a) (hheld : h₂ = h₁ ∨ h₂ = h₁.dropAt 0) (name : String) :
    ((∃ n result, h₂.actFor n (.run b) = some result) ↔
      ∃ n result, h.actFor n (.run ⟨name, a.text ++ "\n" ++ b.text⟩) = some result) ∧
    ∀ n n' r₂ r' next next', h₂.actFor n (.run b) = some (r₂, next) →
      h.actFor n' (.run ⟨name, a.text ++ "\n" ++ b.text⟩) = some (r', next') →
      (next'.seen r').Continues r.printed (next.seen r₂) := by
  obtain ⟨p, hp⟩ := program_of_actFor ha hv
  obtain ⟨whole, hw, hlike⟩ := Source.program_newline hp hq name
  obtain ⟨s, k, hk, hprinted⟩ := shadowed hr hp ha hv hheld
  have hset := hr.settled
  have hstray : ∀ j, ¬ (steps ⟨limit, true⟩ j (ofProgram h.session.store a p)).Stray := by
    intro j
    rw [← hset.same]
    exact hs _ j (by simp [firstState?, hp, Except.toOption])
  -- Both runs of the conclusion end together with a run of `b` that begins in the store of `k`.
  have hsecond : EndTogether (Paired h₂.held (v :: h.held)) ⟨limit, true⟩ ⟨limit, false⟩
      (ofProgram h₂.session.store b q) (ofProgram k.store b q) :=
    endTogether_of_rel (hk.settled.idle.paired hk.idle_after hk.store_after hk.more b q).runFor
  have hwhole := echoes_second hset.idle hk.idle hk.store hlike hne hk.ends hk.outcome hstray
    ⟨name, a.text ++ "\n" ++ b.text⟩ b
  refine ⟨?_, ?_⟩
  · rw [actFor_run_iff hk.settled hq, actFor_run_iff hset hw]
    exact hsecond.ends_iff.trans hwhole.ends_iff.symm
  · intro n n' r₂ r' next next' hrun₂ hrun'
    obtain ⟨e₂, he₂, hrec₂⟩ := (actFor_run hk.settled hq).mp ⟨n, hrun₂⟩
    obtain ⟨e', he', hrec'⟩ := (actFor_run hset hw).mp ⟨n', hrun'⟩
    obtain ⟨rfl, rfl⟩ := Prod.mk.inj hrec₂
    obtain ⟨rfl, rfl⟩ := Prod.mk.inj hrec'
    obtain ⟨k₂, hk₂, hpair₂⟩ := hsecond.1 e₂ he₂
    obtain ⟨k', hk', hecho⟩ := hwhole.1 e' he'
    obtain rfl := hk'.unique hk₂
    have hecho₂ : Echoes h₂.held (v :: h.held) "" e₂ k' := ⟨k', hpair₂, rfl⟩
    rw [hprinted] at hecho
    exact (hecho.seen he'.outcome h).of_same (hecho₂.seen he₂.outcome h)

/-- A function that adds one to what it is given. -/
def defining : Source := ⟨"first", "FUN f(n) -> n + 1"⟩

def definingProgram : Program :=
  ⟨[.mk (.function (some "f") [⟨"n", ⟨⟨6, 0, 6⟩, ⟨7, 0, 7⟩⟩⟩]
    (.mk (.binary .add (.mk (.var "n") ⟨⟨12, 0, 12⟩, ⟨13, 0, 13⟩⟩)
      (.mk (.int 1) ⟨⟨16, 0, 16⟩, ⟨17, 0, 17⟩⟩)) ⟨⟨12, 0, 12⟩, ⟨17, 0, 17⟩⟩))
    ⟨⟨0, 0, 0⟩, ⟨17, 0, 17⟩⟩], ⟨⟨0, 0, 0⟩, ⟨17, 0, 17⟩⟩⟩

theorem defining_program : defining.program = .ok definingProgram := by cbv

/-- A call of it. -/
def applying : Source := ⟨"second", "f(1)"⟩

def applyingProgram : Program :=
  ⟨[.mk (.call (.mk (.var "f") ⟨⟨0, 0, 0⟩, ⟨1, 0, 1⟩⟩)
    [.mk (.int 1) ⟨⟨2, 0, 2⟩, ⟨3, 0, 3⟩⟩]) ⟨⟨0, 0, 0⟩, ⟨4, 0, 4⟩⟩], ⟨⟨0, 0, 0⟩, ⟨4, 0, 4⟩⟩⟩

theorem applying_program : applying.program = .ok applyingProgram := by cbv

/-- The host that has run the definition, and holds the function. -/
def adder : Host :=
  ⟨(Session.afterProgram ⟨1000, true⟩ (steps ⟨1000, true⟩ 3
    (.ofProgram .bare defining definingProgram))).2, [.function 0]⟩

theorem adder_run : (Host.start false ⟨1000, true⟩).actFor 10 (.run defining) =
    some (some ⟨"", .ok (.function 0)⟩, adder) := by
  simp only [actFor, Session.runFor, defining_program]
  rfl

theorem defining_straight : (Host.start false ⟨1000, true⟩).Straight defining := by
  intro first n hfirst
  simp only [firstState?, defining_program, Except.toOption, Option.map_some,
    Option.some.injEq] at hfirst
  subst hfirst
  rintro ⟨f, rest, last, hc, hs, hf⟩
  rcases n with _ | _ | _ | n
  · exact hf _ (Control.flow.inj hc).symm
  · cases hc
  · exact hf _ (Control.flow.inj hc).symm
  · have hdone : (steps ⟨1000, true⟩ 3 (ofProgram (Host.start false ⟨1000, true⟩).session.store
        defining definingProgram)).Finished [] := finished_of_outcome rfl
    have hend := hdone.steps_eq ⟨1000, true⟩ n
    cases (congrArg Machine.stack hend).symm.trans hs

theorem applying_run : ∃ n next, (adder.dropAt 0).actFor n (.run applying) =
    some (some ⟨"", .ok (.number (.int 2))⟩, next) := by
  refine ⟨20, ?_⟩
  simp only [actFor, Session.runFor, applying_program]
  exact ⟨_, rfl⟩

/-- The definition and its call as one text: the run ends, with two. -/
theorem run_newline_applied : ∃ n r next,
    (Host.start false ⟨1000, true⟩).actFor n (.run ⟨"both", "FUN f(n) -> n + 1\nf(1)"⟩) =
      some (r, next) ∧
    (next.seen r).printed = "" ∧ (next.seen r).ending = some (.ok "2") := by
  obtain ⟨n, next, hrun⟩ := applying_run
  obtain ⟨hends, hsame⟩ := run_newline (.start false) applying_program (List.cons_ne_nil _ _)
    adder_run rfl defining_straight (.inr rfl) "both"
  obtain ⟨n', ⟨r', next'⟩, hrun'⟩ := hends.mp ⟨n, _, hrun⟩
  have hseen := hsame n n' _ r' next next' hrun hrun'
  exact ⟨n', r', next', hrun', hseen.printed, hseen.ending⟩

end Host

end Scriptlet
