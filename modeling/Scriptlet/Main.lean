import Scriptlet.CommandLine

/-!
# The program

Reads files and lines and writes what the command line makes of them.
-/

set_option autoImplicit false

namespace Scriptlet.Main

open CommandLine (Answer FileFault)

def fault : IO.Error → FileFault
  | .noFileOrDirectory .. => .missing
  | .permissionDenied .. => .denied
  | .inappropriateType _ code _ => if code = 20 then .notDirectory else .directory
  | e => .other (toString e)

def contents (file : String) : IO (Except FileFault String) := do
  try
    let bytes ← IO.FS.readBinFile file
    match String.fromUTF8? bytes with
    | some text => return .ok text
    | none => return .error .notText
  catch e => return .error (fault e)

def finish (a : Answer) : IO UInt32 := do
  IO.print a.output
  IO.eprint a.errors
  return a.exit.toUInt32

partial def converse (s : Session) (input : IO.FS.Stream) : IO Unit := do
  IO.print Prompt.mark
  (← IO.getStdout).flush
  let line ← input.getLine
  if line = "" then IO.print Prompt.farewell
  else
    let r := Prompt.reply s line
    IO.print r.written
    if let some d := r.wrong then IO.eprint d.render
    match r.next with
    | some s => converse s input
    | none => return ()

def perform (command : CommandLine.Command) (limit : Nat) : IO UInt32 := do
  match command.file? with
  | none =>
    IO.print Prompt.greeting
    converse (.new limit) (← IO.getStdin)
    return 0
  | some file =>
    match ← contents file with
    | .ok text => finish (command.onSource limit ⟨file, text⟩)
    | .error fault => finish (CommandLine.unreadable file fault)

end Scriptlet.Main

def main (words : List String) : IO UInt32 := do
  match Scriptlet.CommandLine.read words with
  | some (.perform command limit) => Scriptlet.Main.perform command limit
  | _ => Scriptlet.Main.finish (Scriptlet.CommandLine.answer (fun _ => .error .missing) "" words)
