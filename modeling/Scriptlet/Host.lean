import Scriptlet.Session
import Scriptlet.Value.Display

/-!
# Hosts

A host keeps a session and holds values: numbers, texts and lists that it has
made, globals that it has taken, and results of programs and calls. It names
a value that it holds by its place among them, the latest first.
-/

set_option autoImplicit false

namespace Scriptlet

structure Host where
  session : Session
  held : List Value

inductive Act where
  | run (source : Source)
  /-- Runs a program that need not be the one that its source reads as. -/
  | execute (source : Source) (program : Program)
  | call (callee : Nat) (args : List Nat) (span : Span)
  | number (n : Number)
  | text (s : String)
  | builtin (b : Builtin)
  | list (items : List Nat)
  | global (name : String)
  | drop (place : Nat)

/-- What can be seen of an act: what was printed, how a run or a call has ended, and the globals
after it. Values are seen as text. -/
structure Seen where
  printed : String
  result : Option (Except Diagnostic String)
  globals : String → Option String

namespace Report

/-- The result, if there is one. -/
def values (r : Report) : List Value :=
  match r.result with
  | .ok v => [v]
  | .error _ => []

end Report

namespace Host

/-- A host that holds nothing, with a new session. -/
def start (seeded : Bool) (settings : Settings) : Host :=
  let store := if seeded then Store.seeded else Store.bare
  ⟨⟨store, settings⟩, []⟩

/-- The value at a place; nothing where there is none. -/
def value (h : Host) (place : Nat) : Value := h.held.getD place .nothing

/-- The host with a session in which some values are held once more. -/
def keeping (h : Host) (vs : List Value) : Session :=
  ⟨h.session.store.keepAll vs, h.session.settings⟩

def hold (h : Host) (v : Value) (session : Session) : Host := ⟨session, v :: h.held⟩

/-- Takes over the result of a run or a call. -/
def receive (h : Host) (r : Report × Session) : Option Report × Host :=
  (some r.1, ⟨r.2, r.1.values ++ h.held⟩)

def makeList (h : Host) (items : List Nat) : Host :=
  let vs := items.map h.value
  let (v, store) := (h.keeping vs).store.newList vs.toArray
  h.hold v ⟨store, h.session.settings⟩

def takeGlobal (h : Host) (name : String) : Host :=
  let v := (h.session.global? name).getD .nothing
  h.hold v (h.keeping [v])

def dropAt (h : Host) (place : Nat) : Host :=
  ⟨h.session.drop (h.value place), h.held.eraseIdx place⟩

/-- What an act leaves if it ends within `count` steps. -/
def actFor (count : Nat) (h : Host) : Act → Option (Option Report × Host)
  | .run source => (h.session.runFor count source).map h.receive
  | .execute source program => (h.session.runProgramFor count source program).map h.receive
  | .call callee args span =>
    let vs := args.map h.value
    ((h.keeping (h.value callee :: vs)).callFor count (h.value callee) vs span).map h.receive
  | .number n => some (none, h.hold (.number n) h.session)
  | .text s => some (none, h.hold (.text s) h.session)
  | .builtin b => some (none, h.hold (.builtin b) h.session)
  | .list items => some (none, h.makeList items)
  | .global name => some (none, h.takeGlobal name)
  | .drop place => some (none, h.dropAt place)

/-- The first state of the run that an act brings about, if it does. -/
def firstState? (h : Host) : Act → Option Machine
  | .run source => source.program.toOption.map (.ofProgram h.session.store source)
  | .execute source program => some (.ofProgram h.session.store source program)
  | .call callee args span =>
    let vs := args.map h.value
    let session := h.keeping (h.value callee :: vs)
    some (.ofCall session.settings.limit session.store (h.value callee) vs span)
  | _ => none

def seen (h : Host) (r : Option Report) : Seen :=
  let heap := h.session.store.heap
  { printed := (r.map Report.printed).getD ""
    result := r.map fun r => r.result.map fun v => v.display heap
    globals := fun name => (h.session.global? name).map fun v => v.display heap }

/-- What is seen of acts one after the other, up to the first that does not end within `count`
steps. -/
def watchFor (count : Nat) : List Act → Host → List Seen
  | [], _ => []
  | a :: rest, h =>
    match h.actFor count a with
    | none => []
    | some (r, next) => next.seen r :: watchFor count rest next

end Host

end Scriptlet
