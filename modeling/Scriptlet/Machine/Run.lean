import Scriptlet.Machine.Step

/-!
# Running programs: whole runs

A run takes steps until nothing is left to be done. A run that does not end
has no last state; `runFor` gives none for it, whatever the number of steps.
-/

set_option autoImplicit false

namespace Scriptlet

namespace Machine

/-- How the run has ended, if it has. -/
def outcome? (m : Machine) : Option (Except Diagnostic Value) :=
  match m.control, m.stack with
  | .flow f, [] => some (.ok (callResult f))
  | .failed d, [] => some (.error d)
  | _, _ => none

/-- The state before the first statement of a program. -/
def ofProgram (store : Store) (source : Source) (program : Program) : Machine :=
  ⟨.flow (.value .nothing), [.program program.statements .nothing], store,
    [⟨Activation.programName, source, none⟩], 0, ""⟩

/-- The state of a call from outside any program. -/
def ofCall (limit : Nat) (store : Store) (callee : Value) (args : List Value) (span : Span) :
    Machine :=
  apply limit ⟨.flow .continue, [], store, [], 0, ""⟩ callee args span

def steps (settings : Settings) : (count : Nat) → Machine → Machine
  | 0, m => m
  | count + 1, m => steps settings count (step settings m)

/-- The last state, if it is reached in less than `count` steps. -/
def runFor (settings : Settings) : (count : Nat) → Machine → Option Machine
  | 0, _ => none
  | count + 1, m => if m.outcome?.isSome then some m else runFor settings count (step settings m)

end Machine

end Scriptlet
