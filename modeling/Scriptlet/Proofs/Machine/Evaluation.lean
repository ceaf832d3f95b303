import Scriptlet.Proofs.Machine.Sites

/-!
# Evaluating parts of a program

The evaluation of a node ends in the first state in which nothing is left
above the stack that it began with. What a node does is put together from the
evaluations of its parts: each ends above the frame that waits for it.
-/

set_option autoImplicit false

namespace Scriptlet.Machine

variable {settings : Settings} {m e e' : Machine} {below : List Frame} {frame : Frame}
  {node left right operand : Node} {scope : ScopeId} {span : Span} {v a b : Value}

/-- The first state in which all that is to be done above a stack has been done. -/
def Reaches (settings : Settings) (below : List Frame) (m e : Machine) : Prop :=
  ∃ n, steps settings n m = e ∧ e.Finished below ∧
    ∀ j < n, ¬ (steps settings j m).Finished below

/-- A node, evaluated in a scope, gives a value in the end. -/
structure Gives (settings : Settings) (node : Node) (scope : ScopeId) (m : Machine) (v : Value)
    (e : Machine) : Prop where
  reaches : Reaches settings m.stack { m with control := .eval node scope } e
  value : e.control = .flow (.value v)

/-- A node, evaluated in a scope, fails in the end, with a fault that is found at a span. -/
structure Fails (settings : Settings) (node : Node) (scope : ScopeId) (m : Machine) (fault : Fault)
    (place : Span) (e : Machine) : Prop where
  reaches : Reaches settings m.stack { m with control := .eval node scope } e
  failed : e.control = .failed (e.diagnostic fault place)

/-- The operands of an operator, one after the other, give two values. -/
def Operands (settings : Settings) (op : BinaryOp) (left right : Node) (span : Span)
    (scope : ScopeId) (m : Machine) (a b : Value) (e : Machine) : Prop :=
  ∃ e', Gives settings left scope
      { m with stack := .leftOperand op right scope span :: m.stack } a e' ∧
    Gives settings right scope
      { e' with stack := .rightOperand op a right.span span :: m.stack } b e

/-! ## From state to state -/

theorem Finished.of_flow {f : Flow} (hc : m.control = .flow f) (hs : m.stack = below) :
    m.Finished below := by
  refine ⟨hs, ?_⟩
  rintro ⟨node, scope, he⟩
  cases hc.symm.trans he

theorem Finished.of_failed {d : Diagnostic} (hc : m.control = .failed d) (hs : m.stack = below) :
    m.Finished below := by
  refine ⟨hs, ?_⟩
  rintro ⟨node, scope, he⟩
  cases hc.symm.trans he

theorem Reaches.here (h : m.Finished below) : Reaches settings below m m :=
  ⟨0, rfl, h, fun j hj => absurd hj j.not_lt_zero⟩

theorem Reaches.next (hm : ¬ m.Finished below)
    (h : Reaches settings below (step settings m) e) : Reaches settings below m e := by
  obtain ⟨n, rfl, he, hj⟩ := h
  refine ⟨n + 1, rfl, he, fun j hlt => ?_⟩
  cases j with
  | zero => exact hm
  | succ j => exact hj j (Nat.lt_of_succ_lt_succ hlt)

theorem Reaches.unique (h : Reaches settings below m e) (h' : Reaches settings below m e') :
    e = e' := by
  obtain ⟨n, rfl, hn, hbefore⟩ := h
  obtain ⟨n', rfl, hn', hbefore'⟩ := h'
  rcases Nat.lt_trichotomy n n' with hlt | rfl | hgt
  · exact absurd hn (hbefore' n hlt)
  · rfl
  · exact absurd hn' (hbefore n' hgt)

theorem Reaches.later {n : Nat} (hm : ∀ j < n, ¬ (steps settings j m).Finished below)
    (h : Reaches settings below (steps settings n m) e) : Reaches settings below m e := by
  induction n generalizing m with
  | zero => exact h
  | succ n ih =>
    have hnow : ¬ m.Finished below := hm 0 n.succ_pos
    exact (ih (fun j hj => hm (j + 1) (Nat.succ_lt_succ hj)) h).next hnow

theorem steps_add (settings : Settings) (m : Machine) (j k : Nat) :
    steps settings (j + k) m = steps settings k (steps settings j m) := by
  induction j generalizing m with
  | zero => rw [Nat.zero_add]; rfl
  | succ j ih =>
    rw [Nat.succ_add]
    exact ih (step settings m)

theorem Reaches.finished (h : Reaches settings below m e) : e.Finished below := by
  obtain ⟨n, -, he, -⟩ := h
  exact he

/-- Until the work above one more frame has ended, the frame is there. -/
theorem Reaches.above (hs : m.stack = frame :: below) (h : Reaches settings (frame :: below) m e) :
    ∃ n, steps settings n m = e ∧ ∀ j ≤ n, ¬ (steps settings j m).Finished below := by
  obtain ⟨n, rfl, hn, hbefore⟩ := h
  refine ⟨n, rfl, fun j hj hf => ?_⟩
  have hover : (steps settings j m).Over (frame :: below) m.depth m.active :=
    Over.steps (hs ▸ Over.refl m) fun i hi => hbefore i (Nat.lt_of_lt_of_le hi hj)
  obtain ⟨frames, inner, hstack, -⟩ := hover
  have hlen := congrArg List.length (hstack.symm.trans hf.1)
  simp only [List.length_append, List.length_cons] at hlen
  omega

/-- Where the work above one more frame ends, the frame is next. -/
theorem Reaches.andThen (hs : m.stack = frame :: below)
    (h : Reaches settings (frame :: below) m e)
    (hnext : Reaches settings below (step settings e) e') : Reaches settings below m e' := by
  obtain ⟨n, rfl, habove⟩ := h.above hs
  exact Reaches.later (n := n + 1) (fun j hj => habove j (Nat.le_of_lt_succ hj))
    (steps_succ settings n m ▸ hnext)

theorem not_finished_eval {node : Node} {scope : ScopeId} (hc : m.control = .eval node scope) :
    ¬ m.Finished below :=
  fun hf => hf.2 ⟨node, scope, hc⟩

/-! ## Nodes -/

theorem Gives.finished (h : Gives settings node scope m v e) : e.stack = m.stack :=
  h.reaches.finished.1

theorem Gives.unique {w : Value} (h : Gives settings node scope m v e)
    (h' : Gives settings node scope m w e') : v = w := by
  obtain rfl := h.reaches.unique h'.reaches
  cases h.value.symm.trans h'.value
  rfl

theorem step_eval (hc : m.control = .eval node scope) :
    step settings m = begin { m with control := .flow .continue } node scope := by
  obtain ⟨c, stack, store, active, depth, printed⟩ := m
  obtain rfl : c = .eval node scope := hc
  rfl

/-- Evaluating a node whose part comes first, above a frame. -/
theorem Reaches.within {part : Node} {inner : ScopeId}
    (hbegin : begin { m with control := .flow .continue } node scope =
      enter { m with control := .flow .continue } frame part inner)
    (hpart : Gives settings part inner { m with stack := frame :: m.stack } v e)
    (hnext : Reaches settings m.stack (step settings e) e') :
    Reaches settings m.stack { m with control := .eval node scope } e' := by
  refine Reaches.next (not_finished_eval rfl) ?_
  rw [step_eval rfl, hbegin]
  exact hpart.reaches.andThen rfl hnext

theorem step_value (hc : e.control = .flow (.value v)) (hs : e.stack = frame :: below) :
    step settings e = resume settings { e with control := .flow .continue, stack := below } frame
      (.value v) := by
  obtain ⟨c, stack, store, active, depth, printed⟩ := e
  obtain rfl : c = .flow (.value v) := hc
  obtain rfl : stack = frame :: below := hs
  rfl

/-- A node that gives its value in one step. -/
theorem gives_at_once {store : Store}
    (h : begin { m with control := .flow .continue } node scope =
      { m with control := .flow (.value v), store := store }) :
    Gives settings node scope m v { m with control := .flow (.value v), store := store } := by
  refine ⟨.next (not_finished_eval rfl) ?_, rfl⟩
  rw [step_eval rfl, h]
  exact .here (.of_flow rfl rfl)

theorem gives_int (n : Int64) :
    Gives settings (.mk (.int n) span) scope m (.int n)
      { m with control := .flow (.value (.int n)) } :=
  gives_at_once rfl

theorem gives_var {name : String} (h : m.store.get? scope name = some v) :
    Gives settings (.mk (.var name) span) scope m v
      { m with control := .flow (.value v), store := m.store.keep v } :=
  gives_at_once (by simp only [begin, h])

theorem resume_leftOperand {op : BinaryOp} (hand : op ≠ .and) (hor : op ≠ .or) (m : Machine)
    (right : Node) (scope : ScopeId) (span : Span) (v : Value) :
    resume settings m (.leftOperand op right scope span) (.value v) =
      m.enter (.rightOperand op v right.span span) right scope := by
  cases op with
  | and => exact absurd rfl hand
  | or => exact absurd rfl hor
  | _ => rfl

theorem applyBinary_stack (m : Machine) (op : BinaryOp) (a b : Value) (rightSpan span : Span) :
    (m.applyBinary op a b rightSpan span).stack = m.stack := by
  unfold applyBinary
  split
  · rfl
  · split <;> rfl

theorem applyBinary_finished (m : Machine) (op : BinaryOp) (a b : Value) (rightSpan span : Span) :
    (m.applyBinary op a b rightSpan span).Finished m.stack := by
  refine ⟨applyBinary_stack .., ?_⟩
  rintro ⟨node, scope, he⟩
  unfold applyBinary at he
  split at he
  · cases he
  · split at he <;> cases he

/-- An operator that works on both operands is applied where they have ended. -/
theorem Operands.reaches {op : BinaryOp} (h : Operands settings op left right span scope m a b e)
    (hand : op ≠ .and) (hor : op ≠ .or) :
    Reaches settings m.stack { m with control := .eval (.mk (.binary op left right) span) scope }
      (applyBinary { e with control := .flow .continue, stack := m.stack } op a b right.span
        span) := by
  obtain ⟨e', hleft, hright⟩ := h
  refine .within rfl hleft ?_
  rw [step_value hleft.value hleft.finished, resume_leftOperand hand hor]
  refine hright.reaches.andThen rfl ?_
  rw [step_value hright.value hright.finished]
  exact .here (applyBinary_finished
    { e with control := .flow .continue, stack := m.stack } op a b right.span span)

theorem Operands.gives {op : BinaryOp} {w : Value}
    (h : Operands settings op left right span scope m a b e) (hand : op ≠ .and) (hor : op ≠ .or)
    (hw : (applyBinary { e with control := .flow .continue, stack := m.stack } op a b right.span
      span).control = .flow (.value w)) :
    Gives settings (.mk (.binary op left right) span) scope m w
      (applyBinary { e with control := .flow .continue, stack := m.stack } op a b right.span
        span) :=
  ⟨h.reaches hand hor, hw⟩

theorem Operands.gives_computed {op : BinaryOp} {c : Computed}
    (h : Operands settings op left right span scope m a b e) (hand : op ≠ .and) (hor : op ≠ .or)
    (hfault : Operator.divisorFault? op a b = none)
    (hbinary : Operator.binary e.store.heap op a b = .ok c) :
    ∃ e', Gives settings (.mk (.binary op left right) span) scope m (e.store.heap.make c).1 e' := by
  refine ⟨_, h.gives hand hor ?_⟩
  simp only [applyBinary, hfault, hbinary]

theorem Operands.fails_operator {op : BinaryOp} {fault : Fault}
    (h : Operands settings op left right span scope m a b e) (hand : op ≠ .and) (hor : op ≠ .or)
    (hfault : Operator.divisorFault? op a b = none)
    (hbinary : Operator.binary e.store.heap op a b = .error fault) :
    ∃ e', Fails settings (.mk (.binary op left right) span) scope m fault span e' := by
  refine ⟨_, h.reaches hand hor, ?_⟩
  simp only [applyBinary, hfault, hbinary]
  rfl

theorem Operands.fails_divisor {op : BinaryOp} {fault : Fault}
    (h : Operands settings op left right span scope m a b e) (hand : op ≠ .and) (hor : op ≠ .or)
    (hfault : Operator.divisorFault? op a b = some fault) :
    ∃ e', Fails settings (.mk (.binary op left right) span) scope m fault right.span e' := by
  refine ⟨_, h.reaches hand hor, ?_⟩
  simp only [applyBinary, hfault]
  rfl

theorem gives_unary {op : UnaryOp} {w : Value}
    (h : Gives settings operand scope { m with stack := .operand op span :: m.stack } v e)
    (hw : (applyUnary { e with control := .flow .continue, stack := m.stack } op v
      span).control = .flow (.value w)) :
    Gives settings (.mk (.unary op operand) span) scope m w
      (applyUnary { e with control := .flow .continue, stack := m.stack } op v span) := by
  have hstack : (applyUnary { e with control := .flow .continue, stack := m.stack } op v
      span).stack = m.stack := by
    unfold applyUnary
    split <;> rfl
  refine ⟨.within rfl h ?_, hw⟩
  rw [step_value h.value h.finished]
  exact .here (.of_flow hw hstack)

end Scriptlet.Machine
