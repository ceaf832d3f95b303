import Scriptlet.Machine.Basic
import Scriptlet.Value.Builtin

/-!
# Running programs: one step

`begin` starts on a node, `resume` takes a frame off the stack for a flow, and
`unwind` takes one off for an error. Every step lets go of what the frame
held and the next state does not. The scope of a call is ended by whichever
takes the call's frame off, while the result and the callee are still held.
-/

set_option autoImplicit false

namespace Scriptlet

namespace Machine

def signal (m : Machine) (f : Flow) : Machine := { m with control := .flow f }

def give (m : Machine) (v : Value) : Machine := m.signal (.value v)

def fail (m : Machine) (fault : Fault) (span : Span) : Machine :=
  let d := m.diagnostic fault span
  { m with control := .failed d }

/-- Evaluates a node, and does what the frame tells after it. -/
def enter (m : Machine) (frame : Frame) (node : Node) (scope : ScopeId) : Machine :=
  { m with control := .eval node scope, stack := frame :: m.stack }

def dropAll (m : Machine) (vs : List Value) : Machine := { m with store := m.store.dropAll vs }

/-- A list of results, the latest first. -/
def giveList (m : Machine) (results : List Value) : Machine :=
  let items := results.toArray.reverse
  let (v, store) := m.store.newList items
  { m with control := .flow (.value v), store := store }

def choose (m : Machine) (branches : List (Node × Node)) (otherwise : Option Node)
    (scope : ScopeId) : Machine :=
  match branches with
  | (test, body) :: rest => m.enter (.condition body rest otherwise scope) test scope
  | [] =>
    match otherwise with
    | some node => { m with control := .eval node scope }
    | none => m.give .nothing

def statements (m : Machine) (nodes : List Node) (scope : ScopeId) : Machine :=
  match nodes with
  | [] => m.give .nothing
  | node :: rest => m.enter (.block rest scope) node scope

/-- A loop whose body is a block has no value. -/
def finishLoop (m : Machine) (body : Node) (results : List Value) : Machine :=
  if body.isBlock then m.give .nothing else m.giveList results

/-- The results with the value of one more body; a block gives none. -/
def collect (m : Machine) (body : Node) (results : List Value) (v : Value) :
    List Value × Machine :=
  if body.isBlock then (results, m.dropAll [v]) else (v :: results, m)

def define (m : Machine) (scope : ScopeId) (name : String) (v : Value) : Machine :=
  { m with store := m.store.define scope name v }

/-- One more turn of a counting loop if the counter is short of the limit. -/
def turn (m : Machine) (loop : ForLoop) (pace : Pace) (results : List Value) : Machine :=
  let current := pace.counter.toFloat
  let short :=
    if pace.step.toFloat > 0.0 then decide (current < pace.limit)
    else decide (current > pace.limit)
  if short then
    (m.define loop.scope loop.var (.number pace.counter)).enter (.forBody loop pace results)
      loop.body loop.scope
  else m.finishLoop loop.body results

def refuseBound (m : Machine) (v : Value) (span : Span) (held : List Value) : Machine :=
  (m.dropAll held).fail (.operandTypes .forTo v.kind none) span

def startFor (m : Machine) (loop : ForLoop) (start stop step : Value) : Machine :=
  match start, stop, step with
  | .number a, .number b, .number c => m.turn loop ⟨a, c, b.toFloat⟩ []
  | .number _, .number _, c => m.refuseBound c loop.stepSpan [start, stop, step]
  | .number _, b, _ => m.refuseBound b loop.stop.span [start, stop, step]
  | a, _, _ => m.refuseBound a loop.start [start, stop, step]

/-- Binds parameters to arguments, which the bindings take over. -/
def bindAll (scope : ScopeId) : List String → List Value → Store → Store
  | p :: ps, v :: vs, s => bindAll scope ps vs (s.define scope p v)
  | _, _, s => s

/-- Calls a function with as many arguments as it has parameters. -/
def enterCall (m : Machine) (f : Function) (callee : Value) (args : List Value) (span : Span) :
    Machine :=
  let (scope, store) := m.store.child f.scope
  let store := bindAll scope f.params args store
  { m with
    control := .eval f.body scope
    stack := .call callee scope :: m.stack
    store := store
    active := ⟨f.displayName, f.source, some span⟩ :: m.active
    depth := m.depth + 1 }

def applyFunction (limit : Nat) (m : Machine) (f : Function) (callee : Value) (args : List Value)
    (span : Span) : Machine :=
  if f.params.length ≠ args.length then
    (m.dropAll (callee :: args)).fail
      (.argumentCount f.displayName f.params.length args.length) span
  else if limit ≤ m.depth then (m.dropAll (callee :: args)).fail (.recursionLimit limit) span
  else m.enterCall f callee args span

def applyBuiltin (m : Machine) (b : Builtin) (args : List Value) (span : Span) : Machine :=
  if args.length ≠ b.arity then
    (m.dropAll args).fail (.argumentCount b.name b.arity args.length) span
  else
    let e := b.apply m.store.heap args
    let store := { m.store with heap := e.heap.dropAll args }
    let m := { m with store := store, printed := m.printed ++ e.printed }
    match e.result with
    | .ok v => m.give v
    | .error fault => m.fail fault span

/-- Calls a value. The machine takes over the hold on the callee and the arguments. -/
def apply (limit : Nat) (m : Machine) (callee : Value) (args : List Value) (span : Span) :
    Machine :=
  let refuse := fun m : Machine =>
    (m.dropAll (callee :: args)).fail (.operandTypes .call callee.kind none) span
  match callee with
  | .builtin b => m.applyBuiltin b args span
  | .function id =>
    match m.store.heap.function? id with
    | some f => applyFunction limit m f callee args span
    | none => refuse m
  | _ => refuse m

def applyBinary (m : Machine) (op : BinaryOp) (a b : Value) (rightSpan span : Span) : Machine :=
  match Operator.divisorFault? op a b with
  | some fault => (m.dropAll [a, b]).fail fault rightSpan
  | none =>
    match Operator.binary m.store.heap op a b with
    | .error fault => (m.dropAll [a, b]).fail fault span
    | .ok c =>
      let (v, heap) := m.store.heap.make c
      let store := { m.store with heap := heap.dropAll [a, b] }
      { m with control := .flow (.value v), store := store }

def applyUnary (m : Machine) (op : UnaryOp) (v : Value) (span : Span) : Machine :=
  match Operator.unary m.store.heap op v with
  | .error fault => (m.dropAll [v]).fail fault span
  | .ok w => (m.dropAll [v]).give w

def applyIndex (m : Machine) (target place : Value) (span : Span) : Machine :=
  match Operator.index m.store.heap target place with
  | .error fault => (m.dropAll [target, place]).fail fault span
  | .ok v =>
    let store := (m.store.keep v).dropAll [target, place]
    { m with control := .flow (.value v), store := store }

def makeFunction (m : Machine) (name : Option String) (params : List Param) (body : Node)
    (scope : ScopeId) : Machine :=
  let source := m.source
  let (v, store) := m.store.defineFunction scope name (params.map Param.name) body source
  { m with control := .flow (.value v), store := store }

def begin (m : Machine) (node : Node) (scope : ScopeId) : Machine :=
  match node with
  | .mk (.int n) _ => m.give (.int n)
  | .mk (.float x) _ => m.give (.float x)
  | .mk (.text s) _ => m.give (.text s)
  | .mk (.list []) _ => m.giveList []
  | .mk (.list (item :: rest)) _ => m.enter (.listItem [] rest scope) item scope
  | .mk (.var name) span =>
    match m.store.get? scope name with
    | some v => { m with control := .flow (.value v), store := m.store.keep v }
    | none => m.fail (.undefined name) span
  | .mk (.assign name value declare) _ => m.enter (.assign name declare scope) value scope
  | .mk (.binary op left right) span => m.enter (.leftOperand op right scope span) left scope
  | .mk (.unary op operand) span => m.enter (.operand op span) operand scope
  | .mk (.ifElse branches otherwise) _ => m.choose branches otherwise scope
  | .mk (.forTo var start stop step body) _ =>
    m.enter (.forStart ⟨var, start.span, stop, step, body, scope⟩) start scope
  | .mk (.whileDo test body) _ => m.enter (.whileTest ⟨test, body, scope⟩ []) test scope
  | .mk (.function name params body) _ => m.makeFunction name params body scope
  | .mk (.call callee args) span => m.enter (.callee args scope span) callee scope
  | .mk (.index target place) span => m.enter (.indexTarget place scope span) target scope
  | .mk (.return none) _ => m.signal (.return .nothing)
  | .mk (.return (some value)) _ => m.enter .returned value scope
  | .mk .continue _ => m.signal .continue
  | .mk .break _ => m.signal .break
  | .mk (.block body) _ => m.statements body scope

/-- The value of a call whose body ended with this flow. -/
def callResult : Flow → Value
  | .value v => v
  | .return v => v
  | .break => .nothing
  | .continue => .nothing

/-- Ends the innermost call. -/
def endCall (reclaim : Bool) (m : Machine) (callee : Value) (scope : ScopeId) : Machine :=
  { m with
    store := (m.store.finish reclaim scope).drop callee
    active := m.active.tail
    depth := m.depth - 1 }

/-- What a frame does with a value. -/
def resumeValue (limit : Nat) (m : Machine) (frame : Frame) (v : Value) : Machine :=
  match frame with
  | .listItem done [] _ => m.giveList (v :: done)
  | .listItem done (item :: rest) scope => m.enter (.listItem (v :: done) rest scope) item scope
  | .assign name declare scope =>
    { m with control := .flow (.value v), store := (m.store.keep v).assign declare scope name v }
  | .leftOperand .and right scope _ =>
    if v.isTruthy m.store.heap then m.enter (.holding v) right scope else m.give v
  | .leftOperand .or right scope _ =>
    if v.isTruthy m.store.heap then m.give v else m.enter (.holding v) right scope
  | .leftOperand op right scope span =>
    m.enter (.rightOperand op v right.span span) right scope
  | .rightOperand op left rightSpan span => m.applyBinary op left v rightSpan span
  | .operand op span => m.applyUnary op v span
  | .condition body rest otherwise scope =>
    if v.isTruthy m.store.heap then m.enter (.holding v) body scope
    else (m.dropAll [v]).choose rest otherwise scope
  | .holding w => (m.dropAll [w]).give v
  | .whileTest loop results =>
    if v.isTruthy m.store.heap then m.enter (.whileBody loop results v) loop.body loop.scope
    else (m.dropAll [v]).finishLoop loop.body results
  | .whileBody loop results test =>
    let (results, m) := m.collect loop.body results v
    (m.dropAll [test]).enter (.whileTest loop results) loop.test loop.scope
  | .forStart loop => m.enter (.forStop loop v) loop.stop loop.scope
  | .forStop loop start =>
    match loop.step with
    | some step => m.enter (.forStep loop start v) step loop.scope
    | none => m.startFor loop start v (.int 1)
  | .forStep loop start stop => m.startFor loop start stop v
  | .forBody loop pace results =>
    let (results, m) := m.collect loop.body results v
    m.turn loop { pace with counter := pace.counter.add pace.step } results
  | .callee [] _ span => apply limit m v [] span
  | .callee (arg :: rest) scope span => m.enter (.argument v [] rest scope span) arg scope
  | .argument callee done [] _ span => apply limit m callee (v :: done).reverse span
  | .argument callee done (arg :: rest) scope span =>
    m.enter (.argument callee (v :: done) rest scope span) arg scope
  | .call _ _ => m.give v
  | .indexTarget place scope span => m.enter (.indexPlace v span) place scope
  | .indexPlace target span => m.applyIndex target v span
  | .returned => m.signal (.return v)
  | .block rest scope => (m.dropAll [v]).statements rest scope
  | .program [] last => (m.dropAll [last]).give v
  | .program (statement :: rest) last =>
    (m.dropAll [last]).enter (.program rest v) statement Store.global

/-- Takes a frame off the stack for a flow. Signals pass most frames; a call takes all of them, a
loop body takes those to loops, and a program ends with any. -/
def resume (settings : Settings) (m : Machine) (frame : Frame) (flow : Flow) : Machine :=
  match frame, flow with
  | .call callee scope, flow =>
    (endCall settings.reclaim { m with control := .flow flow } callee scope).give
      (callResult flow)
  | frame, .value v => resumeValue settings.limit m frame v
  | .whileBody loop results test, .continue =>
    (m.dropAll [test]).enter (.whileTest loop results) loop.test loop.scope
  | .whileBody _ results test, .break => (m.dropAll (test :: results)).give .nothing
  | .forBody loop pace results, .continue =>
    m.turn loop { pace with counter := pace.counter.add pace.step } results
  | .forBody _ _ results, .break => (m.dropAll results).give .nothing
  | .program _ last, flow => (m.dropAll [last]).give (callResult flow)
  | frame, flow => (m.dropAll frame.held).signal flow

/-- Takes a frame off the stack for an error. -/
def unwind (settings : Settings) (m : Machine) (frame : Frame) : Machine :=
  match frame with
  | .call callee scope => endCall settings.reclaim m callee scope
  | frame => m.dropAll frame.held

/-- A state with nothing left on the stack, and no node to evaluate, is the last. -/
def step (settings : Settings) (m : Machine) : Machine :=
  match m with
  | ⟨.eval node scope, stack, store, active, depth, printed⟩ =>
    begin ⟨.flow .continue, stack, store, active, depth, printed⟩ node scope
  | ⟨.flow f, frame :: stack, store, active, depth, printed⟩ =>
    resume settings ⟨.flow .continue, stack, store, active, depth, printed⟩ frame f
  | ⟨.failed d, frame :: stack, store, active, depth, printed⟩ =>
    unwind settings ⟨.failed d, stack, store, active, depth, printed⟩ frame
  | m => m

end Machine

end Scriptlet
