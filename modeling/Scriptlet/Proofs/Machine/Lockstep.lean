import Scriptlet.Proofs.Machine.Mirror
import Scriptlet.Proofs.Machine.Runs

/-!
# The two runs in lockstep

Machines that mirror each other still do so after a step of each, the one
under settings by which scopes are given back and the other not. So the two
runs end after as many steps, and with the same outcome.
-/

set_option autoImplicit false

namespace Scriptlet.Machine

variable {host host' vs ws : List Value} {m m' : Machine} {limit : Nat}

theorem resume_value {frame : Frame} (hc : frame.call? = none) (settings : Settings) (m : Machine)
    (v : Value) :
    Machine.resume settings m frame (.value v) = Machine.resumeValue settings.limit m frame v := by
  cases frame with
  | call callee scope => simp [Frame.call?] at hc
  | _ => rfl

namespace Twins

theorem standing_here (h : Twins host host' vs m m') : m.store.Standing (here m.stack) :=
  h.ready.standing_here

theorem makeFunction (h : Twins host host' [] m m') (name : Option String) (params : List Param)
    (body : Node) {scope : ScopeId} (hs : m.store.Standing scope) :
    Mirrors (m.makeFunction name params body scope)
      (m'.makeFunction name params body scope.kept) := by
  have hm := h.mirrors
  obtain ⟨hv, halike⟩ := hm.store.defineFunction h.ready.sound h.sound' (h.more_held []) hs name
    (params.map Param.name) body m.source
  have hcontrol : Control.flow (.value (m'.store.defineFunction scope.kept name
      (params.map Param.name) body m.source).1) =
      .flow (.value
        (m.store.defineFunction scope name (params.map Param.name) body m.source).1) := by
    rw [hv]
  unfold Machine.makeFunction
  rw [hm.source]
  exact ⟨halike, hcontrol, hm.stack, hm.active, hm.depth, hm.printed⟩

theorem begin (h : Twins host host' [] m m') (node : Node) {scope : ScopeId}
    (hs : scope = here m.stack) : Mirrors (m.begin node scope) (m'.begin node scope.kept) := by
  have hm := h.mirrors
  have hstands : m.store.Standing scope := hs ▸ h.standing_here
  obtain ⟨expr, span⟩ := node
  cases expr with
  | int n => exact hm.give (.int n)
  | float x => exact hm.give (.float x)
  | text t => exact hm.give (.text t)
  | list items =>
    cases items with
    | nil => exact hm.giveList []
    | cons item rest => exact hm.enter (.listItem [] rest scope) item scope
  | var name =>
    simp only [Machine.begin]
    rw [hm.store.get? h.ready.sound.regular h.ready'.sound.regular hstands name]
    split
    · rename_i v _
      exact ⟨hm.store.keep v, rfl, hm.stack, hm.active, hm.depth, hm.printed⟩
    · exact hm.fail _ _
  | assign name value declare => exact hm.enter (.assign name declare scope) value scope
  | binary op left right => exact hm.enter (.leftOperand op right scope span) left scope
  | unary op operand => exact hm.enter (.operand op span) operand scope
  | ifElse branches otherwise => exact hm.choose branches otherwise scope
  | forTo var start stop step body =>
    exact hm.enter (.forStart ⟨var, start.span, stop, step, body, scope⟩) start scope
  | whileDo test body => exact hm.enter (.whileTest ⟨test, body, scope⟩ []) test scope
  | function name params body => exact h.makeFunction name params body hstands
  | call callee args => exact hm.enter (.callee args scope span) callee scope
  | index target place => exact hm.enter (.indexTarget place scope span) target scope
  | «return» value =>
    cases value with
    | none => exact hm.signal (.return .nothing)
    | some value => exact hm.enter .returned value scope
  | «continue» => exact hm.signal .continue
  | «break» => exact hm.signal .break
  | block body => exact hm.statements body scope

theorem resumeValue {frame : Frame} {v : Value} (h : Twins host host' (v :: frame.held) m m')
    (hc : frame.call? = none) (hf : frame.FitsIn (here m.stack)) (limit : Nat) :
    Mirrors (Machine.resumeValue limit m frame v) (Machine.resumeValue limit m' frame.kept v) := by
  have hm := h.mirrors
  have htruth := h.isTruthy (v := v) (by simp)
  have hstands {scope : ScopeId} (hs : frame.scope? = some scope) : m.store.Standing scope :=
    hf.1 scope hs ▸ h.standing_here
  cases frame with
  | listItem done rest scope =>
    cases rest with
    | nil => exact hm.giveList (v :: done)
    | cons item rest => exact hm.enter (.listItem (v :: done) rest scope) item scope
  | assign name declare scope =>
    have hk := h.ready.sound.keep (h.there (v := v) (by simp))
    have hk' := h.sound'.keep (hm.store.heap.there (h.there (v := v) (by simp)))
    have hstands' := (Store.keep_steady m.store v).keeps.standing (hstands rfl)
    have halike := (hm.store.keep v).assign hstands' declare name hk hk' (h.more_held _)
    exact ⟨halike, rfl, hm.stack, hm.active, hm.depth, hm.printed⟩
  | leftOperand op right scope span =>
    have hholding := hm.enter (.holding v) right scope
    cases op with
    | and =>
      simp only [Machine.resumeValue, Frame.kept, htruth]
      split
      · exact hholding
      · exact hm.give v
    | or =>
      simp only [Machine.resumeValue, Frame.kept, htruth]
      split
      · exact hm.give v
      · exact hholding
    | _ => exact hm.enter (.rightOperand _ v right.span span) right scope
  | rightOperand op left rightSpan span =>
    exact applyBinary (h.perm (List.Perm.swap left v [])) op rightSpan span
  | operand op span => exact applyUnary h op span
  | condition body rest otherwise scope =>
    simp only [Machine.resumeValue, Frame.kept, htruth]
    split
    · exact hm.enter (.holding v) body scope
    · exact (dropAll [v] h).mirrors.choose rest otherwise scope
  | holding w => exact (dropAll [w] (h.perm (List.Perm.swap w v []))).mirrors.give v
  | whileTest loop results =>
    simp only [Machine.resumeValue, Frame.kept, htruth]
    split
    · exact hm.enter (.whileBody loop results v) loop.body loop.scope
    · exact (dropAll [v] h).mirrors.finishLoop loop.body results
  | whileBody loop results test =>
    have hin : Twins host host' (v :: (results ++ [test])) m m' :=
      h.perm (List.Perm.cons v (List.perm_append_singleton test results).symm)
    obtain ⟨hr, hin'⟩ := hin.collect loop.body
    have hd := dropAll [test] (hin'.perm List.perm_append_comm)
    show Mirrors _ (((m'.collect loop.body results v).2.dropAll [test]).enter
      (.whileTest loop.kept (m'.collect loop.body results v).1) loop.test loop.scope.kept)
    rw [hr]
    exact hd.mirrors.enter (.whileTest loop (m.collect loop.body results v).1) loop.test loop.scope
  | forStart loop => exact hm.enter (.forStop loop v) loop.stop loop.scope
  | forStop loop start =>
    have hin : Twins host host' [start, v] m m' := h.perm (List.Perm.swap start v [])
    have hone : Twins host host' [.int 1, start, v] m m' := hin.plain rfl
    have hpace := startFor (hone.perm (List.perm_append_singleton _ [start, v]).symm) loop
      (hstands rfl)
    simp only [Machine.resumeValue, Frame.kept]
    have hstep : loop.kept.step = loop.step := rfl
    rw [hstep]
    cases loop.step with
    | some step => exact hm.enter (.forStep loop start v) step loop.scope
    | none => exact hpace
  | forStep loop start stop =>
    exact startFor (h.perm (List.perm_append_singleton v [start, stop]).symm) loop (hstands rfl)
  | forBody loop pace results =>
    have hs : loop.scope = here m.stack := hf.1 _ rfl
    have hin : Twins host host' (v :: (results ++ [])) m m' := h.perm (by simp [Frame.held])
    obtain ⟨hr, hin'⟩ := hin.collect loop.body
    have hstack := (hin.ready.collect loop.body (hf.2 _ rfl)).2.1
    have hstands' := hin'.standing_here
    rw [hstack, ← hs] at hstands'
    rw [List.append_nil] at hin'
    show Mirrors _ ((m'.collect loop.body results v).2.turn loop.kept
      { pace with counter := pace.counter.add pace.step } (m'.collect loop.body results v).1)
    rw [hr]
    exact hin'.turn loop _ hstands'
  | callee args scope span =>
    cases args with
    | nil => exact apply h limit span
    | cons arg rest => exact hm.enter (.argument v [] rest scope span) arg scope
  | argument callee done rest scope span =>
    have hin : Twins host host' (callee :: v :: done) m m' := h.perm (List.Perm.swap callee v done)
    cases rest with
    | nil => exact apply (hin.perm (List.Perm.cons _ (List.reverse_perm _).symm)) limit span
    | cons arg rest => exact hm.enter (.argument callee (v :: done) rest scope span) arg scope
  | call callee scope => simp [Frame.call?] at hc
  | indexTarget place scope span => exact hm.enter (.indexPlace v span) place scope
  | indexPlace target span => exact applyIndex (h.perm (List.Perm.swap target v [])) span
  | returned => exact hm.signal (.return v)
  | block rest scope => exact (dropAll [v] h).mirrors.statements rest scope
  | program rest last =>
    have hd := dropAll [last] (h.perm (List.Perm.swap last v []))
    cases rest with
    | nil => exact hd.mirrors.give v
    | cons statement rest => exact hd.mirrors.enter (.program rest v) statement Store.global

/-- The end of a call takes the scope away from the first store only. -/
theorem endCall {callee : Value} {scope : ScopeId} {c c' d d' : Control}
    {stack stack' : List Frame} {store store' : Store} {active active' : List Activation}
    {depth depth' : Nat} {out out' : String} (hd : d' = d.kept)
    (h : Twins host host' vs ⟨c, .call callee scope :: stack, store, active, depth, out⟩
      ⟨c', .call callee scope.kept :: stack', store', active', depth', out'⟩) :
    Twins host host' vs (Machine.endCall true ⟨d, stack, store, active, depth, out⟩ callee scope)
      (Machine.endCall false ⟨d', stack', store', active', depth', out'⟩ callee scope.kept) := by
  have hm := h.mirrors
  obtain ⟨hs, -, -, hwithin⟩ := h.ready.finish
  obtain ⟨hs', -, -, -⟩ := h.ready'.finish
  have hstack : stack' = stack.map Frame.kept := (List.cons.inj hm.stack).2
  have hheld : stack'.flatMap Frame.held = stack.flatMap Frame.held := by
    rw [hstack, List.flatMap_map]
    simp
  rw [hheld] at hs'
  have hmore := h.more_below (vs ++ stack.flatMap Frame.held)
  rw [List.append_assoc, List.append_assoc] at hmore
  have halike := (hm.store.within hwithin).dropAll hs hs' hmore
  rw [← Store.drop_eq_dropAll, ← Store.drop_eq_dropAll] at halike
  exact ⟨h.ready.endCall, h.ready'.endCall, ⟨halike, hd, hstack, congrArg List.tail hm.active,
    congrArg (· - 1) hm.depth, hm.printed⟩, h.more⟩

theorem resume {f : Flow} {frame : Frame} (h : Twins host host' (f.held ++ frame.held) m m')
    (hc : frame.call? = none) (hf : frame.FitsIn (here m.stack)) :
    Mirrors (Machine.resume ⟨limit, true⟩ m frame f)
      (Machine.resume ⟨limit, false⟩ m' frame.kept f) := by
  have hin : Twins host host' (frame.held ++ f.held) m m' := h.perm List.perm_append_comm
  have hpass := hin.dropAll.mirrors.signal f
  have hend := hin.dropAll.mirrors.give (callResult f)
  cases f with
  | value v =>
    rw [resume_value hc, resume_value (by simp [hc])]
    exact h.resumeValue hc hf limit
  | «return» v =>
    cases frame with
    | call callee scope => simp [Frame.call?] at hc
    | program rest last => exact hend
    | _ => exact hpass
  | «break» =>
    cases frame with
    | call callee scope => simp [Frame.call?] at hc
    | whileBody loop results test => exact hend
    | forBody loop pace results => exact hend
    | program rest last => exact hend
    | _ => exact hpass
  | «continue» =>
    cases frame with
    | call callee scope => simp [Frame.call?] at hc
    | whileBody loop results test =>
      have htest : Twins host host' results (m.dropAll [test]) (m'.dropAll [test]) :=
        dropAll [test] h
      exact htest.mirrors.enter (.whileTest loop results) loop.test loop.scope
    | forBody loop pace results =>
      have hs : loop.scope = here m.stack := hf.1 _ rfl
      exact turn h loop _ (hs ▸ h.standing_here)
    | program rest last => exact hend
    | _ => exact hpass

end Twins

/-! ## Taking a frame off -/

/-- Two sound states that mirror each other, the second under settings by which every scope
stays, and of a host that may hold more. -/
structure Paired (host host' : List Value) (m m' : Machine) : Prop where
  sound : m.Sound true host
  sound' : m'.Sound false host'
  mirrors : Mirrors m m'
  more : Value.refs host ⊆ Value.refs host'

variable {frame : Frame} {stack stack' : List Frame} {store store' : Store}
  {active active' : List Activation} {depth depth' : Nat} {out out' : String}

theorem Paired.pop {c c' : Control}
    (h : Paired host host' ⟨c, frame :: stack, store, active, depth, out⟩
      ⟨c', frame.kept :: stack', store', active', depth', out'⟩)
    (hc : frame.call? = none) {d d' : Control} (hd : d' = d.kept) :
    Twins host host' (c.held ++ frame.held) ⟨d, stack, store, active, depth, out⟩
        ⟨d', stack', store', active', depth', out'⟩ ∧ frame.FitsIn (here stack) := by
  obtain ⟨hr, hf⟩ := h.sound.pop hc d
  have hcontrol : c' = c.kept := h.mirrors.control
  have hkept : frame.kept.call? = none := by simp [hc]
  have hr' := (h.sound'.pop hkept d').1
  rw [hcontrol, Control.held_kept, Frame.held_kept] at hr'
  have hm := h.mirrors
  exact ⟨⟨hr, hr', ⟨hm.store, hd, (List.cons.inj hm.stack).2, hm.active, hm.depth, hm.printed⟩,
    h.more⟩, hf⟩

theorem Paired.resume {f : Flow}
    (h : Paired host host' ⟨.flow f, frame :: stack, store, active, depth, out⟩
      ⟨.flow f, frame.kept :: stack', store', active', depth', out'⟩) :
    Mirrors
      (Machine.resume ⟨limit, true⟩ ⟨.flow .continue, stack, store, active, depth, out⟩ frame f)
      (Machine.resume ⟨limit, false⟩ ⟨.flow .continue, stack', store', active', depth', out'⟩
        frame.kept f) := by
  by_cases hcall : ∃ callee scope, frame = .call callee scope
  · obtain ⟨callee, scope, rfl⟩ := hcall
    have hend : Twins host host' f.held
        ⟨.flow f, .call callee scope :: stack, store, active, depth, out⟩
        ⟨.flow f, .call callee scope.kept :: stack', store', active', depth', out'⟩ :=
      ⟨h.sound.ready, h.sound'.ready, h.mirrors, h.more⟩
    have hdone := hend.endCall (show Control.flow f = (Control.flow f).kept from rfl)
    exact hdone.mirrors.give (callResult f)
  · have hc : frame.call? = none := Frame.call?_eq_none fun f scope he => hcall ⟨f, scope, he⟩
    have hd : Control.flow .continue = (Control.flow .continue).kept := rfl
    obtain ⟨hin, hf⟩ := h.pop hc hd
    exact hin.resume hc hf

theorem Paired.unwind {d : Diagnostic}
    (h : Paired host host' ⟨.failed d, frame :: stack, store, active, depth, out⟩
      ⟨.failed d, frame.kept :: stack', store', active', depth', out'⟩) :
    Mirrors (Machine.unwind ⟨limit, true⟩ ⟨.failed d, stack, store, active, depth, out⟩ frame)
      (Machine.unwind ⟨limit, false⟩ ⟨.failed d, stack', store', active', depth', out'⟩
        frame.kept) := by
  have hd : Control.failed d = (Control.failed d).kept := rfl
  by_cases hcall : ∃ callee scope, frame = .call callee scope
  · obtain ⟨callee, scope, rfl⟩ := hcall
    have hend : Twins host host' []
        ⟨.failed d, .call callee scope :: stack, store, active, depth, out⟩
        ⟨.failed d, .call callee scope.kept :: stack', store', active', depth', out'⟩ :=
      ⟨h.sound.ready, h.sound'.ready, h.mirrors, h.more⟩
    exact (hend.endCall hd).mirrors
  · have hc : frame.call? = none := Frame.call?_eq_none fun f scope he => hcall ⟨f, scope, he⟩
    obtain ⟨hin, -⟩ := h.pop hc hd
    rw [unwind_frame hc, unwind_frame (by simp [hc]), Frame.held_kept]
    exact (hin.perm List.perm_append_comm).dropAll.mirrors

theorem Paired.step (h : Paired host host' m m') :
    Paired host host' (Machine.step ⟨limit, true⟩ m) (Machine.step ⟨limit, false⟩ m') := by
  have hs : (Machine.step ⟨limit, true⟩ m).Sound true host :=
    Sound.step (show m.Sound (Settings.mk limit true).reclaim host from h.sound)
  have hs' : (Machine.step ⟨limit, false⟩ m').Sound false host' :=
    Sound.step (show m'.Sound (Settings.mk limit false).reclaim host' from h.sound')
  refine ⟨hs, hs', ?_, h.more⟩
  have hm := h.mirrors
  obtain ⟨c, stack, store, active, depth, out⟩ := m
  obtain ⟨c', stack', store', active', depth', out'⟩ := m'
  obtain rfl : c' = c.kept := hm.control
  obtain rfl : stack' = stack.map Frame.kept := hm.stack
  cases c with
  | eval node scope =>
    have hin : Twins host host' [] ⟨.flow .continue, stack, store, active, depth, out⟩
        ⟨.flow .continue, stack.map Frame.kept, store', active', depth', out'⟩ :=
      ⟨⟨h.sound.ready.sound, h.sound.ready.called, h.sound.ready.tiled, h.sound.ready.placed⟩,
        ⟨h.sound'.ready.sound, h.sound'.ready.called, h.sound'.ready.tiled, h.sound'.ready.placed⟩,
        ⟨hm.store, rfl, rfl, hm.active, hm.depth, hm.printed⟩, h.more⟩
    exact hin.begin node (h.sound.inPlace node scope rfl)
  | flow f =>
    cases stack with
    | nil => exact hm
    | cons frame stack => exact h.resume
  | failed d =>
    cases stack with
    | nil => exact hm
    | cons frame stack => exact h.unwind

theorem Paired.steps (h : Paired host host' m m') (count : Nat) :
    Paired host host' (Machine.steps ⟨limit, true⟩ count m)
      (Machine.steps ⟨limit, false⟩ count m') := by
  induction count generalizing m m' with
  | zero => exact h
  | succ count ih => exact ih h.step

/-- Both runs end within as many steps, in last states that mirror each other, or neither does. -/
theorem Paired.runFor (h : Paired host host' m m') (count : Nat) :
    Option.Rel (Paired host host') (Machine.runFor ⟨limit, true⟩ count m)
      (Machine.runFor ⟨limit, false⟩ count m') :=
  runFor_rel (fun _ _ h => by rw [h.mirrors.outcome?]) (fun _ _ h => h.step) h count

end Scriptlet.Machine
