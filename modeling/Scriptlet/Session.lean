import Scriptlet.Machine.Run
import Scriptlet.Program.Reading

/-!
# Sessions

A session keeps its globals from one program to the next, whether or not a
program fails. After each program the scopes that nothing needs are given
back, while the program's value is still held.
-/

set_option autoImplicit false

namespace Scriptlet

structure Session where
  store : Store
  settings : Settings

/-- What a program or a call has printed, and its value, held by the caller, or its error. -/
structure Report where
  printed : String
  result : Except Diagnostic Value

namespace Session

/-- More steps than any run will take. -/
def budget : Nat := 1 <<< 62

def new (limit : Nat) : Session := ⟨.seeded, ⟨limit, true⟩⟩

/-- A session without any global. -/
def bare (limit : Nat) : Session := ⟨.bare, ⟨limit, true⟩⟩

def report (m : Machine) : Report :=
  ⟨m.printed, m.outcome?.getD (.ok .nothing)⟩

/-- What a program run leaves. -/
def afterProgram (settings : Settings) (m : Machine) : Report × Session :=
  (report m, ⟨m.store.tidy settings.reclaim, settings⟩)

/-- Runs a program that ends within `count` steps. -/
def runProgramFor (count : Nat) (s : Session) (source : Source) (program : Program) :
    Option (Report × Session) :=
  (Machine.runFor s.settings count (.ofProgram s.store source program)).map
    (afterProgram s.settings)

/-- Runs a source. One that is no program changes nothing. -/
def runFor (count : Nat) (s : Session) (source : Source) : Option (Report × Session) :=
  match source.program with
  | .error d => some (⟨"", .error d⟩, s)
  | .ok program => runProgramFor count s source program

def run (s : Session) (source : Source) : Option (Report × Session) := s.runFor budget source

/-- Calls a value outside any program. The callee and the arguments are taken over. -/
def callFor (count : Nat) (s : Session) (callee : Value) (args : List Value) (span : Span) :
    Option (Report × Session) :=
  (Machine.runFor s.settings count (.ofCall s.settings.limit s.store callee args span)).map
    fun m => (report m, ⟨m.store, s.settings⟩)

def call (s : Session) (callee : Value) (args : List Value) (span : Span) :
    Option (Report × Session) :=
  s.callFor budget callee args span

def global? (s : Session) (name : String) : Option Value := s.store.get? Store.global name

/-- Lets go of a value that the caller holds. -/
def drop (s : Session) (v : Value) : Session := ⟨s.store.drop v, s.settings⟩

def live (s : Session) : Nat := s.store.live

end Session

end Scriptlet
