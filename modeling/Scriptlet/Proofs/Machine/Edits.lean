import Scriptlet.Proofs.Machine.Runs
import Mathlib.Logic.Relation

/-!
# How a step changes the store

A step changes the store by operations of a few kinds. It binds names in the
scope of the innermost call only, unless it gives a name a new value without
declaring it.
-/

set_option autoImplicit false

namespace Scriptlet

/-- A name is given a new value where it is bound. -/
def Frame.Resets (frame : Frame) : Prop := ∃ name scope, frame = .assign name false scope

namespace Machine

/-- The operations that code which runs in a scope changes a store by. -/
inductive Edit (reclaim : Bool) (scope : Option ScopeId) (resets : Prop) :
    Store → Store → Prop where
  | heap (s : Store) (h : Heap) : Edit reclaim scope resets s { s with heap := h }
  | bind {id : ScopeId} (hid : scope = some id) (s : Store) (name : String) (v : Value) :
      Edit reclaim scope resets s (s.define id name v)
  | reset {id : ScopeId} (hr : resets) (s : Store) (name : String) (v : Value) :
      Edit reclaim scope resets s (s.set id name v)
  | function {id : ScopeId} (hid : scope = some id) (s : Store) (name : Option String)
      (params : List String) (body : Node) (source : Source) :
      Edit reclaim scope resets s (s.defineFunction id name params body source).2
  /-- A call begins with its arguments bound in a new scope. -/
  | call (s : Store) (parent : ScopeId) (params : List String) (args : List Value) :
      Edit reclaim scope resets s (bindAll (s.child parent).1 params args (s.child parent).2)
  | finish (s : Store) (id : ScopeId) : Edit reclaim scope resets s (s.finish reclaim id)

def Edits (reclaim : Bool) (scope : Option ScopeId) (resets : Prop) : Store → Store → Prop :=
  Relation.ReflTransGen (Edit reclaim scope resets)

variable {reclaim : Bool} {scope : Option ScopeId} {resets : Prop} {id : ScopeId}

theorem store_choose (m : Machine) (branches : List (Node × Node)) (otherwise : Option Node)
    (id : ScopeId) : (m.choose branches otherwise id).store = m.store := by
  cases branches with
  | cons b rest => rfl
  | nil => cases otherwise <;> rfl

theorem store_statements (m : Machine) (nodes : List Node) (id : ScopeId) :
    (m.statements nodes id).store = m.store := by
  cases nodes <;> rfl

namespace Edits

theorem refl (s : Store) : Edits reclaim scope resets s s := Relation.ReflTransGen.refl

theorem mono {resets' : Prop} {s s' : Store} (hr : resets → resets')
    (h : Edits reclaim scope resets s s') : Edits reclaim scope resets' s s' := by
  refine Relation.ReflTransGen.mono (fun a b he => ?_) s s' h
  cases he with
  | heap _ h => exact .heap a h
  | bind hid _ name v => exact .bind hid a name v
  | reset hreset _ name v => exact .reset (hr hreset) a name v
  | function hid _ name params body source => exact .function hid a name params body source
  | call _ parent params args => exact .call a parent params args
  | finish _ id => exact .finish a id

theorem heap (s : Store) (h : Heap) : Edits reclaim scope resets s { s with heap := h } :=
  .single (.heap s h)

theorem dropAll (m : Machine) (vs : List Value) :
    Edits reclaim scope resets m.store (m.dropAll vs).store := heap ..

theorem giveList (m : Machine) (results : List Value) :
    Edits reclaim scope resets m.store (m.giveList results).store := heap ..

/-! ### Loops -/

theorem finishLoop (m : Machine) (body : Node) (results : List Value) :
    Edits reclaim scope resets m.store (m.finishLoop body results).store := by
  unfold Machine.finishLoop
  split
  · exact refl _
  · exact giveList ..

theorem collect (m : Machine) (body : Node) (results : List Value) (v : Value) :
    Edits reclaim scope resets m.store (m.collect body results v).2.store := by
  unfold Machine.collect
  split
  · exact dropAll ..
  · exact refl _

theorem turn (m : Machine) (loop : ForLoop) (pace : Pace) (results : List Value) :
    Edits reclaim (some loop.scope) resets m.store (m.turn loop pace results).store := by
  unfold Machine.turn
  dsimp only
  generalize (if pace.step.toFloat > 0.0 then decide (pace.counter.toFloat < pace.limit)
    else decide (pace.counter.toFloat > pace.limit)) = short
  cases short with
  | true => exact .single (.bind rfl ..)
  | false => exact finishLoop ..

theorem startFor (m : Machine) (loop : ForLoop) (start stop step : Value) :
    Edits reclaim (some loop.scope) resets m.store (m.startFor loop start stop step).store := by
  unfold Machine.startFor
  split
  · exact turn ..
  all_goals exact dropAll ..

/-! ### Operators and calls -/

theorem applyBinary (m : Machine) (op : BinaryOp) (a b : Value) (rightSpan span : Span) :
    Edits reclaim scope resets m.store (m.applyBinary op a b rightSpan span).store := by
  unfold Machine.applyBinary
  split
  · exact dropAll ..
  · split
    · exact dropAll ..
    · exact heap ..

theorem applyUnary (m : Machine) (op : UnaryOp) (v : Value) (span : Span) :
    Edits reclaim scope resets m.store (m.applyUnary op v span).store := by
  unfold Machine.applyUnary
  split <;> exact dropAll ..

theorem applyIndex (m : Machine) (target place : Value) (span : Span) :
    Edits reclaim scope resets m.store (m.applyIndex target place span).store := by
  unfold Machine.applyIndex
  split
  · exact dropAll ..
  · exact heap ..

theorem applyBuiltin (m : Machine) (b : Builtin) (args : List Value) (span : Span) :
    Edits reclaim scope resets m.store (m.applyBuiltin b args span).store := by
  unfold Machine.applyBuiltin
  split
  · exact dropAll ..
  · dsimp only
    split <;> exact heap ..

theorem apply (limit : Nat) (m : Machine) (callee : Value) (args : List Value) (span : Span) :
    Edits reclaim scope resets m.store (Machine.apply limit m callee args span).store := by
  unfold Machine.apply
  split
  · exact applyBuiltin ..
  · split
    · unfold Machine.applyFunction
      split
      · exact dropAll ..
      · split
        · exact dropAll ..
        · exact .single (.call ..)
    · exact dropAll ..
  · exact dropAll ..

theorem endCall (reclaim : Bool) (m : Machine) (callee : Value) (id : ScopeId) :
    Edits reclaim scope resets m.store (Machine.endCall reclaim m callee id).store :=
  .tail (.single (.finish ..)) (.heap ..)

/-! ### Nodes and frames -/

theorem begin (m : Machine) (node : Node) (id : ScopeId) :
    Edits reclaim (some id) resets m.store (m.begin node id).store := by
  obtain ⟨e, span⟩ := node
  cases e with
  | list items =>
    cases items with
    | nil => exact giveList ..
    | cons item rest => exact refl _
  | var name =>
    simp only [Machine.begin]
    split
    · exact heap ..
    · exact refl _
  | ifElse branches otherwise =>
    have hstore : (m.begin (.mk (.ifElse branches otherwise) span) id).store = m.store :=
      store_choose ..
    rw [hstore]
    exact refl _
  | function name params body => exact .single (.function rfl ..)
  | «return» value => cases value <;> exact refl _
  | block body =>
    rw [show (m.begin (.mk (.block body) span) id).store = m.store from store_statements ..]
    exact refl _
  | _ => exact refl _

theorem resumeValue {frame : Frame} (hf : ∀ s ∈ frame.scope?, s = id) (limit : Nat) (m : Machine)
    (v : Value) :
    Edits reclaim (some id) frame.Resets m.store (m.resumeValue limit frame v).store := by
  cases frame with
  | listItem done rest scope => cases rest <;> first | exact giveList .. | exact refl _
  | assign name declare scope =>
    obtain rfl : scope = id := hf scope rfl
    cases declare with
    | true => exact .tail (heap ..) (.bind rfl (m.store.keep v) name v)
    | false => exact .tail (heap ..) (.reset ⟨name, scope, rfl⟩ (m.store.keep v) name v)
  | leftOperand op right scope span =>
    cases op with
    | and | or =>
      simp only [Machine.resumeValue]
      split <;> exact refl _
    | _ => exact refl _
  | rightOperand op left rightSpan span => exact applyBinary ..
  | operand op span => exact applyUnary ..
  | condition body rest otherwise scope =>
    simp only [Machine.resumeValue]
    split
    · exact refl _
    · rw [store_choose]
      exact dropAll ..
  | holding w => exact dropAll m [w]
  | whileTest loop results =>
    simp only [Machine.resumeValue]
    split
    · exact refl _
    · exact (dropAll m [v]).trans (finishLoop ..)
  | whileBody loop results test =>
    exact (collect m loop.body results v).trans (dropAll _ [test])
  | forStart loop => exact refl _
  | forStop loop start =>
    obtain rfl : loop.scope = id := hf loop.scope rfl
    simp only [Machine.resumeValue]
    split
    · exact refl _
    · exact startFor ..
  | forStep loop start stop =>
    obtain rfl : loop.scope = id := hf loop.scope rfl
    exact startFor ..
  | forBody loop pace results =>
    obtain rfl : loop.scope = id := hf loop.scope rfl
    exact (collect m loop.body results v).trans (turn ..)
  | callee args scope span => cases args <;> first | exact apply .. | exact refl _
  | argument callee done rest scope span => cases rest <;> first | exact apply .. | exact refl _
  | call callee scope => exact refl _
  | indexTarget place scope span => exact refl _
  | indexPlace target span => exact applyIndex ..
  | returned => exact refl _
  | block rest scope =>
    rw [show (m.resumeValue limit (.block rest scope) v).store = (m.dropAll [v]).store from
      store_statements ..]
    exact dropAll ..
  | program rest last => cases rest <;> exact dropAll m [last]

theorem resume {frame : Frame} (hf : ∀ s ∈ frame.scope?, s = id) (settings : Settings) (m : Machine)
    (f : Flow) : Edits settings.reclaim (some id) frame.Resets m.store
      (m.resume settings frame f).store := by
  unfold Machine.resume
  split
  · exact endCall settings.reclaim { m with control := .flow f } _ _
  · exact resumeValue hf ..
  · exact dropAll ..
  · exact dropAll ..
  · rename_i loop pace results
    obtain rfl : loop.scope = id := hf loop.scope rfl
    exact turn ..
  · exact dropAll ..
  · exact dropAll ..
  · exact dropAll ..

theorem unwind (settings : Settings) (m : Machine) (frame : Frame) :
    Edits settings.reclaim scope resets m.store (m.unwind settings frame).store := by
  unfold Machine.unwind
  split
  · exact endCall ..
  · exact dropAll ..

end Edits

/-- A name is about to be given a new value where it is bound. -/
def Resets (m : Machine) : Prop := ∃ frame ∈ m.stack, frame.Resets

theorem Sound.edits {settings : Settings} {host : List Value} {m : Machine}
    (h : m.Sound settings.reclaim host) :
    Edits settings.reclaim (some (here m.stack)) m.Resets m.store
      (Machine.step settings m).store := by
  obtain ⟨control, stack, store, active, depth, out⟩ := m
  cases control with
  | eval node scope =>
    rw [← h.inPlace node scope rfl]
    exact Edits.begin ⟨.flow .continue, stack, store, active, depth, out⟩ node scope
  | flow f =>
    cases stack with
    | nil => exact Edits.refl _
    | cons frame stack =>
      refine Edits.mono (fun hr => ⟨frame, List.mem_cons_self .., hr⟩)
        (Edits.resume (fun id hid => ?_) settings ⟨.flow .continue, stack, store, active, depth,
          out⟩ f)
      cases hc : frame.call? with
      | none => rw [here_cons hc]; exact h.ready.placed.1.1 id hid
      | some c => cases frame <;> simp [Frame.call?] at hc; cases hid
  | failed d =>
    cases stack with
    | nil => exact Edits.refl _
    | cons frame stack =>
      exact Edits.unwind settings ⟨.failed d, stack, store, active, depth, out⟩ frame

end Machine

end Scriptlet
