import Scriptlet.Diagnostic
import Scriptlet.Store.Sweep

/-!
# Running programs: the states of a run

A run is a row of states. Each has what is to be done next, a stack of frames
that tell what is to be done after that, the store, the active calls, and
what has been printed. Every value that the run holds is held by the control
or by a frame, and each of them holds its values once.
-/

set_option autoImplicit false

namespace Scriptlet

structure Settings where
  /-- How many calls may be active at once. -/
  limit : Nat
  /-- Whether scopes are given back; without this every scope stays. -/
  reclaim : Bool
  deriving DecidableEq

def Settings.standard : Settings := ⟨1000, true⟩

/-- How the evaluation of a node ends, unless it fails: with a value, or with a signal to the call
or loop around it. -/
inductive Flow where
  | value (v : Value)
  | return (v : Value)
  | break
  | continue

def Flow.held : Flow → List Value
  | .value v => [v]
  | .return v => [v]
  | .break => []
  | .continue => []

inductive Control where
  | eval (node : Node) (scope : ScopeId)
  | flow (f : Flow)
  | failed (d : Diagnostic)

def Control.held : Control → List Value
  | .flow f => f.held
  | _ => []

structure WhileLoop where
  test : Node
  body : Node
  scope : ScopeId

structure ForLoop where
  var : String
  start : Span
  stop : Node
  step : Option Node
  body : Node
  scope : ScopeId

/-- The span that an unfit step is reported at. -/
def ForLoop.stepSpan (loop : ForLoop) : Span := (loop.step.map Node.span).getD loop.start

/-- The bounds of a counting loop. The counter is compared with the limit on doubles. -/
structure Pace where
  counter : Number
  step : Number
  limit : Float

/-- What is to be done with the flow of the node that is evaluated now. Results and arguments so
far have the latest first. -/
inductive Frame where
  | listItem (done : List Value) (rest : List Node) (scope : ScopeId)
  | assign (name : String) (declare : Bool) (scope : ScopeId)
  | leftOperand (op : BinaryOp) (right : Node) (scope : ScopeId) (span : Span)
  | rightOperand (op : BinaryOp) (left : Value) (rightSpan span : Span)
  | operand (op : UnaryOp) (span : Span)
  | condition (body : Node) (rest : List (Node × Node)) (otherwise : Option Node)
      (scope : ScopeId)
  /-- Holds a value until the node is done. -/
  | holding (v : Value)
  | whileTest (loop : WhileLoop) (results : List Value)
  | whileBody (loop : WhileLoop) (results : List Value) (test : Value)
  | forStart (loop : ForLoop)
  | forStop (loop : ForLoop) (start : Value)
  | forStep (loop : ForLoop) (start stop : Value)
  | forBody (loop : ForLoop) (pace : Pace) (results : List Value)
  | callee (args : List Node) (scope : ScopeId) (span : Span)
  | argument (callee : Value) (done : List Value) (rest : List Node) (scope : ScopeId)
      (span : Span)
  /-- Ends a call: the scope is the call's own. -/
  | call (callee : Value) (scope : ScopeId)
  | indexTarget (place : Node) (scope : ScopeId) (span : Span)
  | indexPlace (target : Value) (span : Span)
  | returned
  | block (rest : List Node) (scope : ScopeId)
  /-- Ends a statement of the program and holds the value of the one before it. -/
  | program (rest : List Node) (last : Value)

def Frame.held : Frame → List Value
  | .listItem done _ _ => done
  | .rightOperand _ left _ _ => [left]
  | .holding v => [v]
  | .whileTest _ results => results
  | .whileBody _ results test => test :: results
  | .forStop _ start => [start]
  | .forStep _ start stop => [start, stop]
  | .forBody _ _ results => results
  | .argument f done _ _ _ => f :: done
  | .call f _ => [f]
  | .indexPlace target _ => [target]
  | .program _ last => [last]
  | _ => []

/-- An active program or call: its name, the source of its body, and where it was called. -/
structure Activation where
  name : String
  source : Source
  calledAt : Option Span

structure Machine where
  control : Control
  stack : List Frame
  store : Store
  /-- The innermost first. -/
  active : List Activation
  /-- How many calls are active. -/
  depth : Nat
  printed : String

namespace Activation

def programName : String := "<program>"

/-- The source of code that belongs to no program. -/
def nowhere : Source := ⟨"<unknown>", ""⟩

/-- The trace of the active calls, before entries further in. The innermost is at `span`, and each
other where it called the next. -/
def traceFrom (span : Span) : List Activation → List TraceEntry → List TraceEntry
  | [], entries => entries
  | a :: outer, entries =>
    traceFrom (a.calledAt.getD span) outer
      (⟨a.source.name, span.start.line + 1, a.name⟩ :: entries)

end Activation

namespace Machine

/-- The source of the innermost active body. -/
def source (m : Machine) : Source := (m.active.head?.map Activation.source).getD Activation.nowhere

def diagnostic (m : Machine) (fault : Fault) (span : Span) : Diagnostic :=
  ⟨.runtime fault, span, m.source, Activation.traceFrom span m.active []⟩

end Machine

end Scriptlet
