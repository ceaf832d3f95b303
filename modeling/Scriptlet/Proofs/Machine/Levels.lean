import Scriptlet.Proofs.Machine.Runs
import Scriptlet.Proofs.Store.Backlog

/-!
# The levels of a run

A step works at the level of the innermost call, goes one level in, or comes
one level out. Coming out undoes what going in did, however the call ends, so
a part of the stack that has been worked off leaves the active calls as they
were before it.
-/

set_option autoImplicit false

namespace Scriptlet.Machine

variable {limit : Nat} {settings : Settings} {m m' m'' : Machine}

/-! ## Parts of a step -/

/-- More is to be done, but in the same calls. -/
structure Level (m m' : Machine) : Prop where
  stack : ∃ frames, m'.stack = frames ++ m.stack ∧ calls frames = []
  active : m'.active = m.active
  depth : m'.depth = m.depth
  backlog : m'.store.backlog = m.store.backlog

/-- One more call is active, in a new scope. -/
structure Inward (limit : Nat) (m m' : Machine) : Prop where
  stack : ∃ callee scope, m'.stack = .call callee scope :: m.stack ∧ scope.serial = m.store.created
  active : ∃ a, m'.active = a :: m.active
  depth : m'.depth = m.depth + 1
  allowed : m.depth < limit
  backlog : m'.store.backlog = m.store.backlog

namespace Level

theorem of_stack (hs : m'.stack = m.stack) (ha : m'.active = m.active) (hd : m'.depth = m.depth)
    (hb : m'.store.backlog = m.store.backlog) : m.Level m' :=
  ⟨⟨[], hs, rfl⟩, ha, hd, hb⟩

theorem refl (m : Machine) : m.Level m := of_stack rfl rfl rfl rfl

theorem trans (h : m.Level m') (h' : m'.Level m'') : m.Level m'' := by
  obtain ⟨⟨inner, hs, hc⟩, ha, hd, hb⟩ := h
  obtain ⟨⟨more, hs', hc'⟩, ha', hd', hb'⟩ := h'
  refine ⟨⟨more ++ inner, by rw [hs', hs, List.append_assoc], ?_⟩, ha'.trans ha, hd'.trans hd,
    hb'.trans hb⟩
  rw [calls, List.filterMap_append, ← calls, ← calls, hc, hc', List.append_nil]

theorem signal (m : Machine) (f : Flow) : m.Level (m.signal f) := of_stack rfl rfl rfl rfl

theorem give (m : Machine) (v : Value) : m.Level (m.give v) := signal m (.value v)

theorem fail (m : Machine) (fault : Fault) (span : Span) : m.Level (m.fail fault span) :=
  of_stack rfl rfl rfl rfl

theorem dropAll (m : Machine) (vs : List Value) : m.Level (m.dropAll vs) :=
  of_stack rfl rfl rfl rfl

theorem giveList (m : Machine) (results : List Value) : m.Level (m.giveList results) :=
  of_stack rfl rfl rfl rfl

theorem enter {f : Frame} (hc : f.call? = none) (m : Machine) (node : Node)
    (scope : ScopeId) : m.Level (m.enter f node scope) :=
  ⟨⟨[f], rfl, calls_cons hc []⟩, rfl, rfl, rfl⟩

theorem define (m : Machine) (scope : ScopeId) (name : String) (v : Value) :
    m.Level (m.define scope name v) :=
  of_stack rfl rfl rfl (Store.backlog_define ..)

theorem choose (m : Machine) (branches : List (Node × Node)) (otherwise : Option Node)
    (scope : ScopeId) : m.Level (m.choose branches otherwise scope) := by
  cases branches with
  | cons b rest => exact enter rfl m b.1 scope
  | nil =>
    cases otherwise with
    | some node => exact of_stack rfl rfl rfl rfl
    | none => exact give m .nothing

theorem statements (m : Machine) (nodes : List Node) (scope : ScopeId) :
    m.Level (m.statements nodes scope) := by
  cases nodes with
  | nil => exact give m .nothing
  | cons node rest => exact enter rfl m node scope

/-! ### Loops -/

theorem finishLoop (m : Machine) (body : Node) (results : List Value) :
    m.Level (m.finishLoop body results) := by
  unfold Machine.finishLoop
  split
  · exact give m .nothing
  · exact giveList m results

theorem collect (m : Machine) (body : Node) (results : List Value) (v : Value) :
    m.Level (m.collect body results v).2 := by
  unfold Machine.collect
  split
  · exact dropAll m [v]
  · exact refl m

theorem turn (m : Machine) (loop : ForLoop) (pace : Pace) (results : List Value) :
    m.Level (m.turn loop pace results) := by
  unfold Machine.turn
  dsimp only
  generalize (if pace.step.toFloat > 0.0 then decide (pace.counter.toFloat < pace.limit)
    else decide (pace.counter.toFloat > pace.limit)) = short
  cases short with
  | true =>
    exact (define m loop.scope loop.var _).trans
      (enter (f := .forBody loop pace results) rfl _ loop.body loop.scope)
  | false => exact finishLoop m loop.body results

theorem refuseBound (m : Machine) (v : Value) (span : Span) (held : List Value) :
    m.Level (m.refuseBound v span held) :=
  (dropAll m held).trans (fail ..)

theorem startFor (m : Machine) (loop : ForLoop) (start stop step : Value) :
    m.Level (m.startFor loop start stop step) := by
  unfold Machine.startFor
  split
  · exact turn ..
  all_goals exact refuseBound ..

/-! ### Operators, built-in functions and definitions -/

theorem applyBuiltin (m : Machine) (b : Builtin) (args : List Value) (span : Span) :
    m.Level (m.applyBuiltin b args span) := by
  unfold Machine.applyBuiltin
  split
  · exact (dropAll m args).trans (fail ..)
  · dsimp only
    split <;> exact of_stack rfl rfl rfl rfl

theorem applyBinary (m : Machine) (op : BinaryOp) (a b : Value) (rightSpan span : Span) :
    m.Level (m.applyBinary op a b rightSpan span) := by
  unfold Machine.applyBinary
  split
  · exact (dropAll m [a, b]).trans (fail ..)
  · split
    · exact (dropAll m [a, b]).trans (fail ..)
    · exact of_stack rfl rfl rfl rfl

theorem applyUnary (m : Machine) (op : UnaryOp) (v : Value) (span : Span) :
    m.Level (m.applyUnary op v span) := by
  unfold Machine.applyUnary
  split
  · exact (dropAll m [v]).trans (fail ..)
  · exact (dropAll m [v]).trans (give ..)

theorem applyIndex (m : Machine) (target place : Value) (span : Span) :
    m.Level (m.applyIndex target place span) := by
  unfold Machine.applyIndex
  split
  · exact (dropAll m [target, place]).trans (fail ..)
  · exact of_stack rfl rfl rfl rfl

theorem makeFunction (m : Machine) (name : Option String) (params : List Param) (body : Node)
    (scope : ScopeId) : m.Level (m.makeFunction name params body scope) :=
  of_stack rfl rfl rfl (Store.backlog_defineFunction ..)

theorem begin (m : Machine) (node : Node) (scope : ScopeId) : m.Level (m.begin node scope) := by
  obtain ⟨expr, span⟩ := node
  cases expr with
  | int n => exact give m _
  | float x => exact give m _
  | text t => exact give m _
  | list items =>
    cases items with
    | nil => exact giveList m []
    | cons item rest => exact enter (f := .listItem [] rest scope) rfl m item scope
  | var name =>
    simp only [Machine.begin]
    split
    · exact of_stack rfl rfl rfl rfl
    · exact fail m _ _
  | ifElse branches otherwise => exact choose m branches otherwise scope
  | function name params body => exact makeFunction m name params body scope
  | «return» value =>
    cases value with
    | none => exact signal m _
    | some value => exact enter (f := .returned) rfl m value scope
  | «continue» => exact signal m _
  | «break» => exact signal m _
  | block body => exact statements m body scope
  | _ => exact ⟨⟨[_], rfl, rfl⟩, rfl, rfl, rfl⟩

end Level

/-! ## Calls -/

theorem backlog_bindAll (scope : ScopeId) (params : List String) (args : List Value) (s : Store) :
    (bindAll scope params args s).backlog = s.backlog := by
  induction params generalizing args s with
  | nil => rfl
  | cons p params ih =>
    cases args with
    | nil => rfl
    | cons v args => exact (ih args _).trans (Store.backlog_define ..)

theorem Inward.enterCall (h : m.depth < limit) (f : Function) (callee : Value) (args : List Value)
    (span : Span) : Inward limit m (m.enterCall f callee args span) :=
  ⟨⟨callee, _, rfl, Store.child_id_serial ..⟩, ⟨_, rfl⟩, rfl, h,
    (backlog_bindAll ..).trans (Store.backlog_child ..)⟩

theorem apply_levels (limit : Nat) (m : Machine) (callee : Value) (args : List Value)
    (span : Span) :
    m.Level (apply limit m callee args span) ∨ Inward limit m (apply limit m callee args span) := by
  have refuse (fault : Fault) : m.Level ((m.dropAll (callee :: args)).fail fault span) :=
    (Level.dropAll ..).trans (Level.fail ..)
  unfold apply
  split
  · exact .inl (.applyBuiltin ..)
  · split
    · unfold applyFunction
      split
      · exact .inl (refuse _)
      · split
        · exact .inl (refuse _)
        · exact .inr (.enterCall (Nat.lt_of_not_le ‹_›) ..)
    · exact .inl (refuse _)
  · exact .inl (refuse _)

theorem resumeValue_levels (limit : Nat) (m : Machine) (frame : Frame) (v : Value) :
    m.Level (resumeValue limit m frame v) ∨ Inward limit m (resumeValue limit m frame v) := by
  cases frame with
  | listItem done rest scope =>
    cases rest with
    | nil => exact .inl (.giveList m _)
    | cons item rest => exact .inl (.enter rfl m item scope)
  | assign name declare scope => exact .inl (.of_stack rfl rfl rfl (Store.backlog_assign ..))
  | leftOperand op right scope span =>
    refine .inl ?_
    cases op with
    | and | or =>
      simp only [resumeValue]
      split <;> first | exact .enter rfl m right scope | exact .give m v
    | _ => exact .enter rfl m right scope
  | rightOperand op left rightSpan span => exact .inl (.applyBinary m op left v rightSpan span)
  | operand op span => exact .inl (.applyUnary m op v span)
  | condition body rest otherwise scope =>
    simp only [resumeValue]
    split
    · exact .inl (.enter rfl m body scope)
    · exact .inl ((Level.dropAll m [v]).trans (.choose _ rest otherwise scope))
  | holding w => exact .inl ((Level.dropAll m [w]).trans (.give _ v))
  | whileTest loop results =>
    simp only [resumeValue]
    split
    · exact .inl (.enter rfl m loop.body loop.scope)
    · exact .inl ((Level.dropAll m [v]).trans (.finishLoop _ loop.body results))
  | whileBody loop results test =>
    exact .inl ((Level.collect m loop.body results v).trans
      ((Level.dropAll _ [test]).trans (.enter rfl _ loop.test loop.scope)))
  | forStart loop => exact .inl (.enter rfl m loop.stop loop.scope)
  | forStop loop start =>
    simp only [resumeValue]
    split
    · exact .inl (.enter rfl m _ loop.scope)
    · exact .inl (.startFor m loop start v _)
  | forStep loop start stop => exact .inl (.startFor m loop start stop v)
  | forBody loop pace results =>
    exact .inl ((Level.collect m loop.body results v).trans (.turn _ loop _ _))
  | callee args scope span =>
    cases args with
    | nil => exact apply_levels limit m v [] span
    | cons arg rest => exact .inl (.enter rfl m arg scope)
  | argument callee done rest scope span =>
    cases rest with
    | nil => exact apply_levels limit m callee _ span
    | cons arg rest => exact .inl (.enter rfl m arg scope)
  | call callee scope => exact .inl (.give m v)
  | indexTarget place scope span => exact .inl (.enter rfl m place scope)
  | indexPlace target span => exact .inl (.applyIndex m target v span)
  | returned => exact .inl (.signal m _)
  | block rest scope => exact .inl ((Level.dropAll m [v]).trans (.statements _ rest scope))
  | program rest last =>
    cases rest with
    | nil => exact .inl ((Level.dropAll m [last]).trans (.give _ v))
    | cons statement rest =>
      exact .inl ((Level.dropAll m [last]).trans (.enter rfl _ statement Store.global))

/-! ## Steps -/

def Evaluates (m : Machine) : Prop := ∃ node scope, m.control = .eval node scope

/-- All that was to be done above a stack has been done. -/
def Finished (stack : List Frame) (m : Machine) : Prop := m.stack = stack ∧ ¬ m.Evaluates

theorem finished_of_outcome {m : Machine} (h : m.outcome?.isSome) : m.Finished [] := by
  obtain ⟨c, stack, s, active, depth, printed⟩ := m
  cases stack with
  | cons frame stack => cases c <;> simp [outcome?] at h
  | nil =>
    refine ⟨rfl, ?_⟩
    rintro ⟨node, scope, rfl⟩
    simp [outcome?] at h

/-- The next step leaves this of the stack, and ends no call. -/
def Yields (m : Machine) (rest : List Frame) : Prop :=
  (m.Evaluates ∧ m.stack = rest) ∨
    ¬ m.Evaluates ∧ ∃ frame, m.stack = frame :: rest ∧ frame.call? = none

/-- What a step can do to the stack, the active calls and the backlog. -/
inductive Move (limit : Nat) (m m' : Machine) : Prop where
  | level {rest : List Frame} (hr : m.Yields rest) (h : Level { m with stack := rest } m')
  | inward {rest : List Frame} (hr : m.Yields rest) (h : Inward limit { m with stack := rest } m')
  | outward {callee : Value} {scope : ScopeId} (he : ¬ m.Evaluates)
      (hs : m.stack = .call callee scope :: m'.stack) (ha : m'.active = m.active.tail)
      (hd : m'.depth = m.depth - 1) (hc : m.store.Calm → m'.store.Calm)
  | halted (h : Finished [] m) (hm : m' = m)

theorem calm_endCall (h : m.store.Calm) (reclaim : Bool) (callee : Value) (scope : ScopeId) :
    (endCall reclaim m callee scope).store.Calm :=
  (h.finish reclaim scope).congr (Store.backlog_drop _ callee)

theorem resume_levels (settings : Settings) (m : Machine) {frame : Frame} (hc : frame.call? = none)
    (f : Flow) :
    m.Level (resume settings m frame f) ∨ Inward settings.limit m (resume settings m frame f) := by
  unfold resume
  split
  · simp [Frame.call?] at hc
  · exact resumeValue_levels settings.limit m frame _
  · rename_i loop results test
    exact .inl ((Level.dropAll m [test]).trans (.enter rfl _ loop.test loop.scope))
  · exact .inl ((Level.dropAll m _).trans (.give _ _))
  · exact .inl (.turn m _ _ _)
  · exact .inl ((Level.dropAll m _).trans (.give _ _))
  · exact .inl ((Level.dropAll m _).trans (.give _ _))
  · exact .inl ((Level.dropAll m _).trans (.signal _ _))

theorem unwind_level (settings : Settings) (m : Machine) {frame : Frame}
    (hc : frame.call? = none) : m.Level (unwind settings m frame) := by
  unfold unwind
  split
  · simp [Frame.call?] at hc
  · exact .dropAll m _

theorem step_move (settings : Settings) (m : Machine) :
    Move settings.limit m (step settings m) := by
  obtain ⟨control, stack, store, active, depth, out⟩ := m
  have hflow (f : Flow) (stack : List Frame) :
      ¬ Evaluates ⟨.flow f, stack, store, active, depth, out⟩ := by simp [Evaluates]
  have hfailed (d : Diagnostic) (stack : List Frame) :
      ¬ Evaluates ⟨.failed d, stack, store, active, depth, out⟩ := by simp [Evaluates]
  cases control with
  | eval node scope =>
    have h := Level.begin ⟨.flow .continue, stack, store, active, depth, out⟩ node scope
    exact .level (.inl ⟨⟨node, scope, rfl⟩, rfl⟩) ⟨h.stack, h.active, h.depth, h.backlog⟩
  | flow f =>
    cases stack with
    | nil => exact .halted ⟨rfl, hflow f _⟩ rfl
    | cons frame stack =>
      cases hc : frame.call? with
      | some c =>
        cases frame with
        | call callee scope =>
          exact .outward (hflow f _) rfl rfl rfl fun h => calm_endCall
            (m := ⟨.flow f, stack, store, active, depth, out⟩) h settings.reclaim callee scope
        | _ => simp [Frame.call?] at hc
      | none =>
        have hr : Yields ⟨.flow f, frame :: stack, store, active, depth, out⟩ stack :=
          .inr ⟨hflow f _, frame, rfl, hc⟩
        rcases resume_levels settings ⟨.flow .continue, stack, store, active, depth, out⟩ hc f with
          h | h
        · exact .level hr ⟨h.stack, h.active, h.depth, h.backlog⟩
        · exact .inward hr ⟨h.stack, h.active, h.depth, h.allowed, h.backlog⟩
  | failed d =>
    cases stack with
    | nil => exact .halted ⟨rfl, hfailed d _⟩ rfl
    | cons frame stack =>
      cases hc : frame.call? with
      | some c =>
        cases frame with
        | call callee scope =>
          exact .outward (hfailed d _) rfl rfl rfl fun h => calm_endCall
            (m := ⟨.failed d, stack, store, active, depth, out⟩) h settings.reclaim callee scope
        | _ => simp [Frame.call?] at hc
      | none =>
        have h := unwind_level settings ⟨.failed d, stack, store, active, depth, out⟩ hc
        exact .level (.inr ⟨hfailed d _, frame, rfl, hc⟩)
          ⟨h.stack, h.active, h.depth, h.backlog⟩

/-! ## Runs -/

theorem Move.calm (h : Move limit m m') (hm : m.store.Calm) : m'.store.Calm := by
  cases h with
  | level _ h => exact hm.congr h.backlog
  | inward _ h => exact hm.congr h.backlog
  | outward _ _ _ _ hc => exact hc hm
  | halted _ h => exact h ▸ hm

theorem Move.depth_le (h : Move limit m m') (hm : m.depth ≤ limit) : m'.depth ≤ limit := by
  cases h with
  | level _ h => exact h.depth ▸ hm
  | inward _ h =>
    rw [h.depth]
    exact h.allowed
  | outward _ _ _ hd _ => omega
  | halted _ h => exact h ▸ hm

theorem calm_steps (hm : m.store.Calm) (settings : Settings) (n : Nat) :
    (steps settings n m).store.Calm := by
  induction n generalizing m with
  | zero => exact hm
  | succ n ih => exact ih ((step_move settings m).calm hm)

theorem depth_steps (settings : Settings) (hm : m.depth ≤ settings.limit) (n : Nat) :
    (steps settings n m).depth ≤ settings.limit := by
  induction n generalizing m with
  | zero => exact hm
  | succ n ih => exact ih ((step_move settings m).depth_le hm)

/-- The calls that are active above a stack are those of the frames above it; below them `depth`
calls were active, with these activations. -/
def Over (stack : List Frame) (depth : Nat) (active : List Activation) (m : Machine) : Prop :=
  ∃ frames inner, m.stack = frames ++ stack ∧ m.active = inner ++ active ∧
    inner.length = (calls frames).length ∧ m.depth = depth + (calls frames).length

section

variable {stack rest : List Frame} {depth : Nat} {active : List Activation}

theorem Over.refl (m : Machine) : m.Over m.stack m.depth m.active :=
  ⟨[], [], rfl, rfl, rfl, rfl⟩

theorem Over.finished (h : m.Over stack depth active) (hf : m.Finished stack) :
    m.depth = depth ∧ m.active = active := by
  obtain ⟨frames, inner, hs, ha, hl, hd⟩ := h
  obtain rfl : frames = [] := List.append_left_eq_self.mp (hs.symm.trans hf.1)
  obtain rfl : inner = [] := List.length_eq_zero_iff.mp hl
  exact ⟨hd, ha⟩

theorem Over.yields (h : m.Over stack depth active) (hf : ¬ m.Finished stack)
    (hr : m.Yields rest) : Over stack depth active { m with stack := rest } := by
  obtain ⟨frames, inner, hs, ha, hl, hd⟩ := h
  rcases hr with ⟨he, rfl⟩ | ⟨he, frame, hframe, hc⟩
  · exact ⟨frames, inner, hs, ha, hl, hd⟩
  · cases frames with
    | nil => exact absurd ⟨hs, he⟩ hf
    | cons top frames =>
      obtain ⟨rfl, rfl⟩ := List.cons.inj (hframe.symm.trans hs)
      rw [calls_cons hc] at hl hd
      exact ⟨frames, inner, rfl, ha, hl, hd⟩

theorem Over.level (h : m.Over stack depth active) (hl : m.Level m') :
    m'.Over stack depth active := by
  obtain ⟨frames, inner, hs, ha, hlen, hd⟩ := h
  obtain ⟨new, hnew, hc⟩ := hl.stack
  have hcalls : calls (new ++ frames) = calls frames := by
    rw [calls, List.filterMap_append, ← calls, ← calls, hc, List.nil_append]
  exact ⟨new ++ frames, inner, by rw [hnew, hs, List.append_assoc], hl.active.trans ha,
    hcalls ▸ hlen, by rw [hl.depth, hd, hcalls]⟩

theorem Over.inward (h : m.Over stack depth active) (hi : Inward limit m m') :
    m'.Over stack depth active := by
  obtain ⟨frames, inner, hs, ha, hlen, hd⟩ := h
  obtain ⟨callee, scope, hstack, -⟩ := hi.stack
  obtain ⟨a, hactive⟩ := hi.active
  have hcalls : (calls (.call callee scope :: frames)).length = (calls frames).length + 1 := rfl
  exact ⟨.call callee scope :: frames, a :: inner, by rw [hstack, hs, List.cons_append],
    by rw [hactive, ha, List.cons_append], by rw [hcalls, List.length_cons, hlen],
    by rw [hi.depth, hd, hcalls, Nat.add_assoc]⟩

/-- Until all above a stack is done, a step changes nothing below. -/
theorem Over.step (h : m.Over stack depth active) (hf : ¬ m.Finished stack)
    (hm : Move limit m m') : m'.Over stack depth active := by
  cases hm with
  | level hr hl => exact (h.yields hf hr).level hl
  | inward hr hi => exact (h.yields hf hr).inward hi
  | outward he hs ha hd _ =>
    obtain ⟨frames, inner, hs', ha', hl, hd'⟩ := h
    cases frames with
    | nil => exact absurd ⟨hs', he⟩ hf
    | cons top frames =>
      obtain ⟨rfl, hrest⟩ := List.cons.inj (hs.symm.trans hs')
      cases inner with
      | nil => simp [calls, Frame.call?] at hl
      | cons a inner =>
        have hcalls : ∀ callee scope,
            (calls (.call callee scope :: frames)).length = (calls frames).length + 1 :=
          fun _ _ => rfl
        rw [hcalls] at hl hd'
        exact ⟨frames, inner, hrest, by rw [ha, ha']; rfl, by simpa using hl, by omega⟩
  | halted _ hm => exact hm ▸ h

theorem Over.steps {n : Nat} (h : m.Over stack depth active)
    (hf : ∀ j < n, ¬ (Machine.steps settings j m).Finished stack) :
    (Machine.steps settings n m).Over stack depth active := by
  induction n generalizing m with
  | zero => exact h
  | succ n ih =>
    have hnow : ¬ m.Finished stack := hf 0 n.succ_pos
    exact ih (h.step hnow (step_move settings m)) fun j hj => hf (j + 1) (by omega)

/-- A state that has done all there is to do is the last. -/
theorem Finished.step_eq (hf : m.Finished []) (settings : Settings) : step settings m = m := by
  obtain ⟨control, stack, store, active, depth, out⟩ := m
  obtain rfl : stack = [] := hf.1
  cases control with
  | eval node scope => exact absurd ⟨node, scope, rfl⟩ hf.2
  | flow f => rfl
  | failed d => rfl

theorem Finished.steps_eq (hf : m.Finished []) (settings : Settings) (n : Nat) :
    steps settings n m = m := by
  induction n with
  | zero => rfl
  | succ n ih => rw [steps, hf.step_eq, ih]

theorem Over.steps_nil (h : m.Over [] depth active) (settings : Settings) (n : Nat) :
    (Machine.steps settings n m).Over [] depth active := by
  induction n generalizing m with
  | zero => exact h
  | succ n ih =>
    refine ih ?_
    by_cases hf : m.Finished []
    · rw [hf.step_eq]
      exact h
    · exact h.step hf (step_move settings m)

end

end Scriptlet.Machine
