import Scriptlet.Proofs.Machine.Levels
import Scriptlet.Proofs.Value.Unplaced

/-!
# A run without the places of its code, atop other work

A machine that evaluates one statement is part of one that runs a program: it
has frames below it, and text was printed before it. What it does next depends
on neither, nor on where its code stands in any source.
-/

set_option autoImplicit false

namespace Scriptlet

/-! ## Nodes and diagnostics -/

@[simp] theorem Node.span_bare (n : Node) : n.bare.span = default := by
  cases n
  simp [Node.span]

@[simp] theorem Node.isBlock_bare (n : Node) : n.bare.isBlock = n.isBlock := by
  obtain ⟨e, span⟩ := n
  cases e <;> simp [Node.isBlock, Expr.bare]

def TraceEntry.unplaced (e : TraceEntry) : TraceEntry := ⟨Activation.nowhere.name, 1, e.context⟩

/-- The error without where it is: its cause, and the names of the active calls. -/
def Diagnostic.unplaced (d : Diagnostic) : Diagnostic :=
  ⟨d.cause, default, Activation.nowhere, d.trace.map TraceEntry.unplaced⟩

def Activation.unplaced (a : Activation) : Activation :=
  ⟨a.name, nowhere, a.calledAt.map fun _ => default⟩

theorem Activation.traceFrom_unplaced (span : Span) (active : List Activation)
    (entries : List TraceEntry) :
    traceFrom default (active.map unplaced) (entries.map TraceEntry.unplaced) =
      (traceFrom span active entries).map TraceEntry.unplaced := by
  induction active generalizing span entries with
  | nil => rfl
  | cons a outer ih =>
    have hspan : (a.unplaced.calledAt.getD default : Span) = default := by
      cases h : a.calledAt <;> simp [unplaced, h]
    simp only [List.map_cons, traceFrom, hspan]
    exact ih (a.calledAt.getD span) (⟨a.source.name, span.start.line + 1, a.name⟩ :: entries)

/-! ## Frames -/

def WhileLoop.unplaced (loop : WhileLoop) : WhileLoop :=
  { loop with test := loop.test.bare, body := loop.body.bare }

def ForLoop.unplaced (loop : ForLoop) : ForLoop :=
  { loop with
    start := default, stop := loop.stop.bare, step := bareOption loop.step,
    body := loop.body.bare }

@[simp] theorem ForLoop.stepSpan_unplaced (loop : ForLoop) : loop.unplaced.stepSpan = default := by
  cases h : loop.step <;> simp [stepSpan, unplaced, h, bareOption]

def Control.unplaced : Control → Control
  | .eval node scope => .eval node.bare scope
  | .flow f => .flow f
  | .failed d => .failed d.unplaced

def Frame.unplaced : Frame → Frame
  | .listItem done rest scope => .listItem done (bareAll rest) scope
  | .assign name declare scope => .assign name declare scope
  | .leftOperand op right scope _ => .leftOperand op right.bare scope default
  | .rightOperand op left _ _ => .rightOperand op left default default
  | .operand op _ => .operand op default
  | .condition body rest otherwise scope =>
    .condition body.bare (bareBranches rest) (bareOption otherwise) scope
  | .holding v => .holding v
  | .whileTest loop results => .whileTest loop.unplaced results
  | .whileBody loop results test => .whileBody loop.unplaced results test
  | .forStart loop => .forStart loop.unplaced
  | .forStop loop start => .forStop loop.unplaced start
  | .forStep loop start stop => .forStep loop.unplaced start stop
  | .forBody loop pace results => .forBody loop.unplaced pace results
  | .callee args scope _ => .callee (bareAll args) scope default
  | .argument f done rest scope _ => .argument f done (bareAll rest) scope default
  | .call f scope => .call f scope
  | .indexTarget place scope _ => .indexTarget place.bare scope default
  | .indexPlace target _ => .indexPlace target default
  | .returned => .returned
  | .block rest scope => .block (bareAll rest) scope
  | .program rest last => .program (bareAll rest) last

namespace Machine

/-- The machine without the places of its code, with `below` under its stack, after `out` was
printed. -/
def atop (below : List Frame) (out : String) (m : Machine) : Machine :=
  ⟨m.control.unplaced, m.stack.map Frame.unplaced ++ below, m.store.unplaced,
    m.active.map Activation.unplaced, m.depth, out ++ m.printed⟩

variable (below : List Frame) (out : String) (m : Machine)

@[simp] theorem source_atop : (m.atop below out).source = Activation.nowhere := by
  cases h : m.active <;> simp [source, atop, h, Activation.unplaced]

/-! ## Parts of a step -/

theorem give_atop (v : Value) : (m.give v).atop below out = (m.atop below out).give v := rfl

theorem fail_atop (fault : Fault) (span : Span) :
    (m.fail fault span).atop below out = (m.atop below out).fail fault default := by
  have htrace := Activation.traceFrom_unplaced span m.active []
  have hd : (m.diagnostic fault span).unplaced = (m.atop below out).diagnostic fault default := by
    rw [diagnostic, diagnostic, source_atop, Diagnostic.unplaced, ← htrace]
    rfl
  exact congrArg (fun d => { m.atop below out with control := .failed d }) hd

theorem enter_atop (frame : Frame) (node : Node) (scope : ScopeId) :
    (m.enter frame node scope).atop below out =
      (m.atop below out).enter frame.unplaced node.bare scope := rfl

theorem restore_atop {c : Control} {s : Store} (printed : String) :
    atop below out ⟨c, m.stack, s, m.active, m.depth, m.printed ++ printed⟩ =
      ⟨c.unplaced, (m.atop below out).stack, s.unplaced, (m.atop below out).active,
        (m.atop below out).depth, (m.atop below out).printed ++ printed⟩ := by
  simp only [atop, String.append_assoc]

theorem dropAll_atop (vs : List Value) :
    (m.dropAll vs).atop below out = (m.atop below out).dropAll vs :=
  congrArg (fun s => { m.atop below out with store := s }) (m.store.unplaced_dropAll vs)

theorem choose_atop (branches : List (Node × Node)) (otherwise : Option Node) (scope : ScopeId) :
    (m.choose branches otherwise scope).atop below out =
      (m.atop below out).choose (bareBranches branches) (bareOption otherwise) scope := by
  cases branches with
  | cons b rest => rfl
  | nil => cases otherwise <;> rfl

theorem statements_atop (nodes : List Node) (scope : ScopeId) :
    (m.statements nodes scope).atop below out =
      (m.atop below out).statements (bareAll nodes) scope := by
  cases nodes <;> rfl

theorem finishLoop_atop (body : Node) (results : List Value) :
    (m.finishLoop body results).atop below out =
      (m.atop below out).finishLoop body.bare results := by
  simp only [finishLoop, Node.isBlock_bare, apply_ite (atop below out)]
  rfl

theorem collect_atop (body : Node) (results : List Value) (v : Value) :
    (m.atop below out).collect body.bare results v =
      ((m.collect body results v).1, (m.collect body results v).2.atop below out) := by
  simp only [collect, Node.isBlock_bare]
  split
  · rw [dropAll_atop]
  · rfl

theorem define_atop (scope : ScopeId) (name : String) (v : Value) :
    (m.define scope name v).atop below out = (m.atop below out).define scope name v :=
  congrArg (fun s => { m.atop below out with store := s }) (m.store.unplaced_define scope name v)

theorem turn_atop (loop : ForLoop) (pace : Pace) (results : List Value) :
    (m.turn loop pace results).atop below out =
      (m.atop below out).turn loop.unplaced pace results := by
  simp only [turn, apply_ite (atop below out), enter_atop, define_atop, finishLoop_atop]
  rfl

theorem refuseBound_atop (v : Value) (span : Span) (held : List Value) :
    (m.refuseBound v span held).atop below out =
      (m.atop below out).refuseBound v default held := by
  rw [refuseBound, refuseBound, fail_atop, dropAll_atop]

theorem startFor_atop (loop : ForLoop) (start stop step : Value) :
    (m.startFor loop start stop step).atop below out =
      (m.atop below out).startFor loop.unplaced start stop step := by
  have hstop : loop.unplaced.stop.span = default := loop.stop.span_bare
  unfold startFor
  split
  · exact turn_atop ..
  · rw [ForLoop.stepSpan_unplaced]
    exact refuseBound_atop ..
  · rw [hstop]
    exact refuseBound_atop ..
  · exact refuseBound_atop ..

/-! ## Calls -/

theorem unplaced_bindAll (scope : ScopeId) (params : List String) (args : List Value)
    (s : Store) :
    (bindAll scope params args s).unplaced = bindAll scope params args s.unplaced := by
  induction params generalizing args s with
  | nil => rfl
  | cons p params ih =>
    cases args with
    | nil => rfl
    | cons v args => rw [bindAll, ih, Store.unplaced_define, bindAll]

theorem enterCall_atop (f : Function) (callee : Value) (args : List Value) (span : Span) :
    (m.enterCall f callee args span).atop below out =
      (m.atop below out).enterCall f.unplaced callee args default := by
  have hchild : (m.atop below out).store.child f.unplaced.scope =
      ((m.store.child f.scope).1, (m.store.child f.scope).2.unplaced) :=
    m.store.unplaced_child f.scope
  simp only [enterCall, hchild]
  simp only [atop, unplaced_bindAll]
  rfl

theorem refuse_atop (vs : List Value) (fault : Fault) (span : Span) :
    ((m.dropAll vs).fail fault span).atop below out =
      ((m.atop below out).dropAll vs).fail fault default := by
  rw [fail_atop, dropAll_atop]

theorem applyFunction_atop (limit : Nat) (f : Function) (callee : Value) (args : List Value)
    (span : Span) :
    (applyFunction limit m f callee args span).atop below out =
      applyFunction limit (m.atop below out) f.unplaced callee args default := by
  simp only [applyFunction, apply_ite (atop below out), refuse_atop, enterCall_atop]
  rfl

theorem applyBuiltin_atop (b : Builtin) (args : List Value) (span : Span) :
    (m.applyBuiltin b args span).atop below out =
      (m.atop below out).applyBuiltin b args default := by
  have heffect : b.apply (m.atop below out).store.heap args =
      (b.apply m.store.heap args).unplaced := (Builtin.unplaced_apply m.store.heap b args).symm
  have hafter : atop below out { m with
      store := { m.store with heap := (b.apply m.store.heap args).heap.dropAll args }
      printed := m.printed ++ (b.apply m.store.heap args).printed } =
      { m.atop below out with
        store := { m.store.unplaced with
          heap := (b.apply m.store.heap args).unplaced.heap.dropAll args }
        printed := (m.atop below out).printed ++ (b.apply m.store.heap args).printed } := by
    rw [restore_atop, Store.unplaced, Heap.unplaced_dropAll]
    rfl
  simp only [applyBuiltin, heffect, apply_ite (atop below out), refuse_atop]
  split
  · rfl
  · have hresult : (b.apply m.store.heap args).unplaced.result =
        (b.apply m.store.heap args).result := rfl
    rw [hresult]
    cases (b.apply m.store.heap args).result with
    | ok v => exact congrArg (give · v) hafter
    | error fault => exact (fail_atop ..).trans (congrArg (fail · fault default) hafter)

theorem apply_atop (limit : Nat) (callee : Value) (args : List Value) (span : Span) :
    (apply limit m callee args span).atop below out =
      apply limit (m.atop below out) callee args default := by
  cases callee with
  | builtin b => exact m.applyBuiltin_atop below out b args span
  | function id =>
    have hfun : (m.atop below out).store.heap.function? id =
        (m.store.heap.function? id).map Function.unplaced := m.store.heap.function?_unplaced id
    simp only [apply, hfun]
    cases m.store.heap.function? id with
    | none => exact m.refuse_atop below out ..
    | some f => exact m.applyFunction_atop below out limit f _ args span
  | _ => exact m.refuse_atop below out ..

/-! ## Operators and definitions -/

theorem applyBinary_atop (op : BinaryOp) (a b : Value) (rightSpan span : Span) :
    (m.applyBinary op a b rightSpan span).atop below out =
      (m.atop below out).applyBinary op a b default default := by
  have hbinary : Operator.binary (m.atop below out).store.heap op a b =
      Operator.binary m.store.heap op a b := Operator.binary_unplaced ..
  simp only [applyBinary, hbinary]
  cases Operator.divisorFault? op a b with
  | some fault => exact m.refuse_atop below out ..
  | none =>
    cases Operator.binary m.store.heap op a b with
    | error fault => exact m.refuse_atop below out ..
    | ok c =>
      have hmake : (m.atop below out).store.heap.make c =
          ((m.store.heap.make c).1, (m.store.heap.make c).2.unplaced) :=
        m.store.heap.unplaced_make c
      simp only [hmake, ← Heap.unplaced_dropAll]
      rfl

theorem applyUnary_atop (op : UnaryOp) (v : Value) (span : Span) :
    (m.applyUnary op v span).atop below out = (m.atop below out).applyUnary op v default := by
  have hunary : Operator.unary (m.atop below out).store.heap op v =
      Operator.unary m.store.heap op v := Operator.unary_unplaced ..
  simp only [applyUnary, hunary]
  cases Operator.unary m.store.heap op v with
  | error fault => exact m.refuse_atop below out ..
  | ok w => rw [give_atop, dropAll_atop]

theorem applyIndex_atop (target place : Value) (span : Span) :
    (m.applyIndex target place span).atop below out =
      (m.atop below out).applyIndex target place default := by
  have hindex : Operator.index (m.atop below out).store.heap target place =
      Operator.index m.store.heap target place := Operator.index_unplaced ..
  simp only [applyIndex, hindex]
  cases Operator.index m.store.heap target place with
  | error fault => exact m.refuse_atop below out ..
  | ok v => simp only [atop, Store.unplaced_dropAll, Store.unplaced_keep]; rfl

theorem makeFunction_atop (name : Option String) (params : List Param) (body : Node)
    (scope : ScopeId) :
    (m.makeFunction name params body scope).atop below out =
      (m.atop below out).makeFunction name (params.map Param.bare) body.bare scope := by
  have hparams : (params.map Param.bare).map Param.name = params.map Param.name := by
    simp [Param.bare]
  have hdef : (m.atop below out).store.defineFunction scope name (params.map Param.name) body.bare
      Activation.nowhere =
        ((m.store.defineFunction scope name (params.map Param.name) body m.source).1,
          (m.store.defineFunction scope name (params.map Param.name) body m.source).2.unplaced) :=
    m.store.unplaced_defineFunction scope name _ body m.source
  simp only [makeFunction, source_atop, hparams, hdef]
  rfl

/-! ## Whole steps -/

theorem begin_atop (node : Node) (scope : ScopeId) :
    (m.begin node scope).atop below out = (m.atop below out).begin node.bare scope := by
  obtain ⟨expr, span⟩ := node
  rw [Node.bare_mk]
  cases expr with
  | list items => cases items <;> rfl
  | var name =>
    have hget : (m.atop below out).store.get? scope name = m.store.get? scope name :=
      m.store.get?_unplaced scope name
    simp only [Expr.bare, begin, hget]
    cases m.store.get? scope name with
    | none => exact m.fail_atop below out ..
    | some v => simp only [atop, Store.unplaced_keep]; rfl
  | ifElse branches otherwise => exact m.choose_atop below out branches otherwise scope
  | forTo var start stop step body =>
    simp only [Expr.bare, begin, Node.span_bare]
    rfl
  | function name params body => exact m.makeFunction_atop below out name params body scope
  | «return» value => cases value <;> rfl
  | block body => exact m.statements_atop below out body scope
  | _ => rfl

theorem resumeValue_atop (limit : Nat) {frame : Frame} (v : Value) :
    (resumeValue limit m frame v).atop below out =
      resumeValue limit (m.atop below out) frame.unplaced v := by
  have htruth : v.isTruthy (m.atop below out).store.heap = v.isTruthy m.store.heap :=
    v.isTruthy_unplaced m.store.heap
  cases frame with
  | listItem done rest scope => cases rest <;> rfl
  | assign name declare scope =>
    simp only [resumeValue, Frame.unplaced, atop, Store.unplaced_assign, Store.unplaced_keep]
    rfl
  | leftOperand op right scope span =>
    cases op with
    | and | or =>
      simp only [resumeValue, Frame.unplaced, htruth, apply_ite (atop below out), enter_atop]
      rfl
    | _ =>
      simp only [resumeValue, Frame.unplaced, Node.span_bare]
      rfl
  | rightOperand op left rightSpan span => exact m.applyBinary_atop below out ..
  | operand op span => exact m.applyUnary_atop below out ..
  | condition body rest otherwise scope =>
    simp only [resumeValue, Frame.unplaced, htruth, apply_ite (atop below out), enter_atop,
      choose_atop, dropAll_atop]
  | holding w => exact congrArg (give · v) (m.dropAll_atop below out [w])
  | whileTest loop results =>
    simp only [resumeValue, Frame.unplaced, htruth, apply_ite (atop below out), enter_atop,
      finishLoop_atop, dropAll_atop]
    rfl
  | whileBody loop results test =>
    have hcollect := m.collect_atop below out loop.body results v
    simp only [resumeValue, Frame.unplaced, enter_atop, dropAll_atop, WhileLoop.unplaced, hcollect]
  | forStop loop start =>
    have hstep : loop.unplaced.step = bareOption loop.step := rfl
    simp only [resumeValue, Frame.unplaced, hstep]
    cases loop.step with
    | none => exact m.startFor_atop below out loop start v _
    | some step => rfl
  | forStep loop start stop => exact m.startFor_atop below out loop start stop v
  | forBody loop pace results =>
    have hcollect : (m.atop below out).collect loop.unplaced.body results v =
        ((m.collect loop.body results v).1, (m.collect loop.body results v).2.atop below out) :=
      m.collect_atop below out loop.body results v
    simp only [resumeValue, Frame.unplaced, turn_atop, hcollect]
  | callee args scope span =>
    cases args with
    | nil => exact m.apply_atop below out limit v [] span
    | cons arg rest => rfl
  | argument callee done rest scope span =>
    cases rest with
    | nil => exact m.apply_atop below out limit callee _ span
    | cons arg rest => rfl
  | indexPlace target span => exact m.applyIndex_atop below out target v span
  | block rest scope =>
    simp only [resumeValue, Frame.unplaced, statements_atop, dropAll_atop]
  | program rest last =>
    cases rest with
    | nil => exact congrArg (give · v) (m.dropAll_atop below out [last])
    | cons statement rest =>
      simp only [resumeValue, Frame.unplaced, bareAll, enter_atop, dropAll_atop]
  | _ => rfl

theorem endCall_atop (reclaim : Bool) (callee : Value) (scope : ScopeId) :
    (endCall reclaim m callee scope).atop below out =
      endCall reclaim (m.atop below out) callee scope := by
  simp only [endCall, atop, Store.unplaced_drop, Store.unplaced_finish, List.map_tail]

theorem resume_atop (settings : Settings) (frame : Frame) (f : Flow) :
    (resume settings m frame f).atop below out =
      resume settings (m.atop below out) frame.unplaced f := by
  cases f with
  | value v =>
    cases frame with
    | call callee scope =>
      exact congrArg (give · v) (endCall_atop below out { m with control := .flow (.value v) } ..)
    | _ => exact m.resumeValue_atop below out settings.limit v
  | «return» v =>
    cases frame with
    | call callee scope =>
      exact congrArg (give · v) (endCall_atop below out { m with control := .flow (.return v) } ..)
    | program rest last => exact congrArg (give · v) (m.dropAll_atop below out [last])
    | _ => exact congrArg (signal · (.return v)) (m.dropAll_atop below out _)
  | «break» =>
    cases frame with
    | call callee scope =>
      exact congrArg (give · .nothing)
        (endCall_atop below out { m with control := .flow .break } ..)
    | program rest last => exact congrArg (give · .nothing) (m.dropAll_atop below out [last])
    | whileBody loop results test => exact congrArg (give · .nothing) (m.dropAll_atop below out _)
    | forBody loop pace results => exact congrArg (give · .nothing) (m.dropAll_atop below out _)
    | _ => exact congrArg (signal · .break) (m.dropAll_atop below out _)
  | «continue» =>
    cases frame with
    | call callee scope =>
      exact congrArg (give · .nothing)
        (endCall_atop below out { m with control := .flow .continue } ..)
    | program rest last => exact congrArg (give · .nothing) (m.dropAll_atop below out [last])
    | whileBody loop results test =>
      exact congrArg (enter · (.whileTest loop.unplaced results) loop.test.bare loop.scope)
        (m.dropAll_atop below out [test])
    | forBody loop pace results => exact m.turn_atop below out loop _ results
    | _ => exact congrArg (signal · .continue) (m.dropAll_atop below out _)

theorem unwind_atop (settings : Settings) (frame : Frame) :
    (unwind settings m frame).atop below out =
      unwind settings (m.atop below out) frame.unplaced := by
  cases frame with
  | call callee scope => exact m.endCall_atop below out settings.reclaim callee scope
  | _ => exact m.dropAll_atop below out _

/-- As long as the machine has something to do, it does the same atop other work. -/
theorem step_atop (settings : Settings) (h : ¬ m.Finished []) :
    (step settings m).atop below out = step settings (m.atop below out) := by
  obtain ⟨control, stack, store, active, depth, printed⟩ := m
  cases control with
  | eval node scope => exact begin_atop below out _ node scope
  | flow f =>
    cases stack with
    | nil => exact absurd ⟨rfl, fun ⟨node, scope, he⟩ => by simp at he⟩ h
    | cons frame stack => exact resume_atop below out _ settings frame f
  | failed d =>
    cases stack with
    | nil => exact absurd ⟨rfl, fun ⟨node, scope, he⟩ => by simp at he⟩ h
    | cons frame stack => exact unwind_atop below out _ settings frame

end Machine

end Scriptlet
