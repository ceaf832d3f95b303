import Scriptlet.Proofs.Store.Functions
import Scriptlet.Proofs.Machine.Levels

/-!
# What a step defines

A step makes at most one function: that of the definition that is evaluated,
in the source of the innermost call. A call from outside makes none.
-/

set_option autoImplicit false

namespace Scriptlet.Machine

variable {P : Function → Prop}

theorem adds_dropAll (m : Machine) (vs : List Value) :
    m.store.heap.Adds P (m.dropAll vs).store.heap :=
  Heap.adds_dropAll ..

theorem adds_giveList (m : Machine) (results : List Value) :
    m.store.heap.Adds P (m.giveList results).store.heap :=
  .of_eq rfl

theorem adds_refuse (m : Machine) (vs : List Value) (fault : Fault) (span : Span) :
    m.store.heap.Adds P ((m.dropAll vs).fail fault span).store.heap :=
  adds_dropAll m vs

theorem adds_choose (m : Machine) (branches : List (Node × Node)) (otherwise : Option Node)
    (scope : ScopeId) : m.store.heap.Adds P (m.choose branches otherwise scope).store.heap := by
  cases branches with
  | cons b rest => exact .refl _
  | nil => cases otherwise <;> exact .refl _

theorem adds_statements (m : Machine) (nodes : List Node) (scope : ScopeId) :
    m.store.heap.Adds P (m.statements nodes scope).store.heap := by
  cases nodes <;> exact .refl _

/-! ## Loops -/

theorem adds_finishLoop (m : Machine) (body : Node) (results : List Value) :
    m.store.heap.Adds P (m.finishLoop body results).store.heap := by
  unfold finishLoop
  split
  · exact .refl _
  · exact adds_giveList ..

theorem adds_collect (m : Machine) (body : Node) (results : List Value) (v : Value) :
    m.store.heap.Adds P (m.collect body results v).2.store.heap := by
  unfold collect
  split
  · exact adds_dropAll ..
  · exact .refl _

theorem adds_turn (m : Machine) (loop : ForLoop) (pace : Pace) (results : List Value) :
    m.store.heap.Adds P (m.turn loop pace results).store.heap := by
  unfold turn
  dsimp only
  generalize (if pace.step.toFloat > 0.0 then decide (pace.counter.toFloat < pace.limit)
    else decide (pace.counter.toFloat > pace.limit)) = short
  cases short with
  | true => exact Store.adds_define ..
  | false => exact adds_finishLoop ..

theorem adds_startFor (m : Machine) (loop : ForLoop) (start stop step : Value) :
    m.store.heap.Adds P (m.startFor loop start stop step).store.heap := by
  unfold startFor
  split
  · exact adds_turn ..
  all_goals exact adds_dropAll ..

/-! ## Calls and operators -/

theorem adds_bindAll (scope : ScopeId) (params : List String) (args : List Value) (s : Store) :
    s.heap.Adds P (bindAll scope params args s).heap := by
  induction params generalizing args s with
  | nil => exact .refl _
  | cons p params ih =>
    cases args with
    | nil => exact .refl _
    | cons v args => exact (Store.adds_define s scope p v).trans (ih args _)

theorem adds_enterCall (m : Machine) (f : Function) (callee : Value) (args : List Value)
    (span : Span) : m.store.heap.Adds P (m.enterCall f callee args span).store.heap :=
  (Store.adds_child m.store f.scope).trans (adds_bindAll ..)

theorem adds_applyBuiltin (m : Machine) (b : Builtin) (args : List Value) (span : Span) :
    m.store.heap.Adds P (m.applyBuiltin b args span).store.heap := by
  have hdone : m.store.heap.Adds P ((b.apply m.store.heap args).heap.dropAll args) :=
    (Heap.adds_builtin ..).trans (Heap.adds_dropAll ..)
  unfold applyBuiltin
  split
  · exact adds_refuse ..
  · dsimp only
    split <;> exact hdone

theorem adds_apply (limit : Nat) (m : Machine) (callee : Value) (args : List Value) (span : Span) :
    m.store.heap.Adds P (apply limit m callee args span).store.heap := by
  unfold apply
  split
  · exact adds_applyBuiltin ..
  · split
    · unfold applyFunction
      split
      · exact adds_refuse ..
      · split
        · exact adds_refuse ..
        · exact adds_enterCall ..
    · exact adds_refuse ..
  · exact adds_refuse ..

theorem adds_applyBinary (m : Machine) (op : BinaryOp) (a b : Value) (rightSpan span : Span) :
    m.store.heap.Adds P (m.applyBinary op a b rightSpan span).store.heap := by
  unfold applyBinary
  split
  · exact adds_refuse ..
  · split
    · exact adds_refuse ..
    · exact (Heap.adds_make ..).trans (Heap.adds_dropAll ..)

theorem adds_applyUnary (m : Machine) (op : UnaryOp) (v : Value) (span : Span) :
    m.store.heap.Adds P (m.applyUnary op v span).store.heap := by
  unfold applyUnary
  split
  · exact adds_refuse ..
  · exact adds_dropAll ..

theorem adds_applyIndex (m : Machine) (target place : Value) (span : Span) :
    m.store.heap.Adds P (m.applyIndex target place span).store.heap := by
  unfold applyIndex
  split
  · exact adds_refuse ..
  · exact (Heap.adds_keep ..).trans (Heap.adds_dropAll ..)

/-! ## Steps -/

theorem adds_resumeValue (limit : Nat) (m : Machine) (frame : Frame) (v : Value) :
    m.store.heap.Adds P (resumeValue limit m frame v).store.heap := by
  cases frame with
  | listItem done rest scope => cases rest <;> exact .of_eq rfl
  | assign name declare scope =>
    exact (Heap.adds_keep m.store.heap v).trans (Store.adds_assign (m.store.keep v) ..)
  | leftOperand op right scope span =>
    cases op with
    | and | or =>
      simp only [resumeValue]
      split <;> exact .refl _
    | _ => exact .refl _
  | rightOperand op left rightSpan span => exact adds_applyBinary ..
  | operand op span => exact adds_applyUnary ..
  | condition body rest otherwise scope =>
    simp only [resumeValue]
    split
    · exact .refl _
    · exact (adds_dropAll m [v]).trans (adds_choose ..)
  | holding w => exact adds_dropAll m [w]
  | whileTest loop results =>
    simp only [resumeValue]
    split
    · exact .refl _
    · exact (adds_dropAll m [v]).trans (adds_finishLoop ..)
  | whileBody loop results test =>
    exact (adds_collect m loop.body results v).trans (adds_dropAll _ [test])
  | forStart loop => exact .refl _
  | forStop loop start =>
    simp only [resumeValue]
    split
    · exact .refl _
    · exact adds_startFor ..
  | forStep loop start stop => exact adds_startFor ..
  | forBody loop pace results => exact (adds_collect m loop.body results v).trans (adds_turn ..)
  | callee args scope span =>
    cases args with
    | nil => exact adds_apply ..
    | cons arg rest => exact .refl _
  | argument callee done rest scope span =>
    cases rest with
    | nil => exact adds_apply ..
    | cons arg rest => exact .refl _
  | call callee scope => exact .refl _
  | indexTarget place scope span => exact .refl _
  | indexPlace target span => exact adds_applyIndex ..
  | returned => exact .refl _
  | block rest scope => exact (adds_dropAll m [v]).trans (adds_statements ..)
  | program rest last => cases rest <;> exact adds_dropAll m [last]

theorem adds_endCall (reclaim : Bool) (m : Machine) (callee : Value) (scope : ScopeId) :
    m.store.heap.Adds P (endCall reclaim m callee scope).store.heap :=
  (Store.adds_finish m.store reclaim scope).trans (Heap.adds_drop ..)

theorem adds_resume (settings : Settings) (m : Machine) (frame : Frame) (f : Flow) :
    m.store.heap.Adds P (resume settings m frame f).store.heap := by
  unfold resume
  split
  · exact adds_endCall _ { m with control := .flow f } _ _
  · exact adds_resumeValue ..
  · exact adds_dropAll ..
  · exact adds_dropAll ..
  · exact adds_turn ..
  · exact adds_dropAll ..
  · exact adds_dropAll ..
  · exact adds_dropAll ..

theorem adds_unwind (settings : Settings) (m : Machine) (frame : Frame) :
    m.store.heap.Adds P (unwind settings m frame).store.heap := by
  unfold unwind
  split
  · exact adds_endCall ..
  · exact adds_dropAll ..

/-- The function that a state is about to define. -/
def Defines (m : Machine) (fn : Function) : Prop :=
  fn.source = m.source ∧ ∃ name params span scope,
    m.control = .eval (.mk (.function name params fn.body) span) scope

theorem adds_begin (m : Machine) (node : Node) (scope : ScopeId)
    (hp : ∀ fn : Function, fn.source = m.source →
      (∃ name params span, node = .mk (.function name params fn.body) span) → P fn) :
    m.store.heap.Adds P (m.begin node scope).store.heap := by
  obtain ⟨expr, span⟩ := node
  cases expr with
  | list items => cases items <;> exact .of_eq rfl
  | var name =>
    simp only [begin]
    split
    · exact Heap.adds_keep ..
    · exact .refl _
  | ifElse branches otherwise => exact adds_choose ..
  | function name params body =>
    refine Store.adds_defineFunction _ _ _ _ fun fn hb hs => hp fn hs ?_
    exact ⟨name, params, span, by rw [hb]⟩
  | «return» value => cases value <;> exact .refl _
  | block body => exact adds_statements ..
  | _ => exact .refl _

theorem adds_step (settings : Settings) (m : Machine) :
    m.store.heap.Adds m.Defines (step settings m).store.heap := by
  obtain ⟨control, stack, store, active, depth, out⟩ := m
  cases control with
  | eval node scope =>
    refine adds_begin ⟨.flow .continue, stack, store, active, depth, out⟩ node scope ?_
    rintro fn hs ⟨name, params, span, rfl⟩
    exact ⟨hs, name, params, span, scope, rfl⟩
  | flow f =>
    cases stack with
    | nil => exact .refl _
    | cons frame stack =>
      exact adds_resume settings ⟨.flow .continue, stack, store, active, depth, out⟩ frame f
  | failed d =>
    cases stack with
    | nil => exact .refl _
    | cons frame stack =>
      exact adds_unwind settings ⟨.failed d, stack, store, active, depth, out⟩ frame

end Scriptlet.Machine
