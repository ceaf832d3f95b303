import Scriptlet.Program.Compact
import Scriptlet.Program.Outline
import Scriptlet.Prompt

/-!
# The command line

Words are read from left to right: options of the program, then the command,
then options again and the file that the command is for. Options may stand on
both sides of the command, and the side after it wins. What a command writes
is computed from the contents of its file.
-/

set_option autoImplicit false

namespace Scriptlet

namespace CommandLine

inductive Command where
  | prompt
  | run (file : String)
  | tokens (file : String)
  | parse (file : String) (compact : Bool)
  deriving DecidableEq

inductive Request where
  | version
  | help
  | perform (command : Command) (limit : Nat)
  deriving DecidableEq

/-- What a command expects after its name. -/
inductive Form where
  | prompt | run | tokens | parse
  deriving DecidableEq

def Form.ofName? (name : String) : Option Form :=
  if name = "repl" then some .prompt
  else if name = "run" then some .run
  else if name = "tokens" then some .tokens
  else if name = "parse" then some .parse
  else none

/-- Options and file read so far on one side of the command. -/
structure Given where
  limit : Option Nat
  verbose : Bool
  compact : Bool
  file : Option String

def Given.none : Given := ⟨.none, false, false, .none⟩

/-- Limits are numbers of 64 bits, with or without a plus sign. -/
def limit? (word : String) : Option Nat :=
  let digits := match word.toList with
    | '+' :: cs => cs
    | cs => cs
  if digits ≠ [] ∧ digits.all Char.isDigit ∧ Decimal.natOfDigits digits < UInt64.size then
    some (Decimal.natOfDigits digits)
  else .none

def Given.setLimit? (g : Given) (word : String) : Option Given :=
  if g.limit.isSome then .none else (limit? word).map fun n => { g with limit := some n }

def Given.setVerbose? (g : Given) : Option Given :=
  if g.verbose then .none else some { g with verbose := true }

/-- What a word that is an option leads to: the reading ends with a request, or goes on. -/
inductive Step where
  | done (r : Request)
  | on (g : Given)

/-- Short options in one word. The version is an option of the program only. -/
def shortOptions (top : Bool) (g : Given) : List Char → Option Step
  | [] => some (.on g)
  | 'v' :: cs => g.setVerbose?.bind fun g => shortOptions top g cs
  | 'h' :: _ => some (.done .help)
  | 'V' :: _ => if top then some (.done .version) else .none
  | _ => .none

/-- A word that begins with a hyphen, other than the limit without its number. -/
def option (form : Option Form) (g : Given) (word : String) : Option Step :=
  if word = "--verbose" then g.setVerbose?.map .on
  else if word = "--help" then some (.done .help)
  else if word = "--version" ∧ form.isNone then some (.done .version)
  else if word = "--compact" ∧ form = some .parse ∧ ¬ g.compact then
    some (.on { g with compact := true })
  else match word.toList with
    | '-' :: '-' :: 'm' :: 'a' :: 'x' :: '-' :: 'd' :: 'e' :: 'p' :: 't' :: 'h' :: '=' :: number =>
      (g.setLimit? (String.ofList number)).map .on
    | '-' :: c :: cs => if c = '-' then .none else shortOptions form.isNone g (c :: cs)
    | _ => .none

def isOption (word : String) : Bool :=
  match word.toList with
  | '-' :: _ :: _ => true
  | _ => false

def setFile? (form : Form) (g : Given) (word : String) : Option Given :=
  if form = .prompt ∨ g.file.isSome ∨ word = "" then .none else some { g with file := some word }

/-- The request of a command whose words are all read. -/
def finish (limit : Nat) (form : Form) (g : Given) : Option Request :=
  let limit := g.limit.getD limit
  match form with
  | .prompt => some (.perform .prompt limit)
  | .run => g.file.map fun f => .perform (.run f) limit
  | .tokens => g.file.map fun f => .perform (.tokens f) limit
  | .parse => g.file.map fun f => .perform (.parse f g.compact) limit

/-- The words after two hyphens are files, whatever they look like. -/
def files (limit : Nat) (form : Form) : Given → List String → Option Request
  | g, [] => finish limit form g
  | g, word :: rest => (setFile? form g word).bind fun g => files limit form g rest

/-- The words after a command's name. -/
def arguments (limit : Nat) (form : Form) : Given → List String → Option Request
  | g, [] => finish limit form g
  | g, "--" :: rest => files limit form g rest
  | g, "--max-depth" :: number :: rest =>
    (g.setLimit? number).bind fun g => arguments limit form g rest
  | g, word :: rest =>
    if isOption word then
      match option (some form) g word with
      | some (.on g) => arguments limit form g rest
      | some (.done r) => some r
      | .none => .none
    else (setFile? form g word).bind fun g => arguments limit form g rest

/-- The words from the options of the program on. -/
def program : Given → List String → Option Request
  | g, [] => finish Settings.standard.limit .prompt g
  | g, "--" :: rest => if rest = [] then finish Settings.standard.limit .prompt g else .none
  | g, "--max-depth" :: number :: rest => (g.setLimit? number).bind fun g => program g rest
  | g, word :: rest =>
    if isOption word then
      match option .none g word with
      | some (.on g) => program g rest
      | some (.done r) => some r
      | .none => .none
    else if word = "help" ∧ rest.all (fun w => (Form.ofName? w).isSome) then some .help
    else
      (Form.ofName? word).bind fun form =>
        arguments (g.limit.getD Settings.standard.limit) form .none rest

/-- What the words ask for; nothing if they are no proper use. -/
def read (words : List String) : Option Request := program .none words

/-- Why a file could not be read. -/
inductive FileFault where
  | missing | notDirectory | directory | denied | notText
  | other (message : String)
  deriving DecidableEq

def FileFault.message : FileFault → String
  | missing => "No such file or directory (os error 2)"
  | notDirectory => "Not a directory (os error 20)"
  | directory => "Is a directory (os error 21)"
  | denied => "Permission denied (os error 13)"
  | notText => "stream did not contain valid UTF-8"
  | other message => message

/-- What a command writes, what it reports as an error, and its exit status. -/
structure Answer where
  exit : Nat
  output : String
  errors : String

def done (output : String) : Answer := ⟨0, output, ""⟩

def failed (output : String) (d : Diagnostic) : Answer := ⟨1, output, d.render⟩

def misuse : Answer := ⟨2, "", "wrong usage\n"⟩

def versionText : String := "simplescript " ++ Prompt.version ++ "\n"

def helpText : String := "\n".intercalate [
  "SimpleScript interpreter",
  "",
  "Usage: simplescript [OPTIONS] [COMMAND]",
  "",
  "Commands:",
  "  repl    Start an interactive session (default)",
  "  run     Run a SimpleScript file",
  "  tokens  Tokenize and dump tokens (debug)",
  "  parse   Parse and dump AST (debug)",
  "  help    Print this message or the help of the given subcommand(s)",
  "",
  "Options:",
  "      --max-depth <MAX_DEPTH>  Maximum nested function calls before MaxRecursionDepth [default: 1000]",
  "  -v, --verbose                Enable debug logging (RUST_LOG overrides)",
  "  -h, --help                   Print help",
  "  -V, --version                Print version",
  ""]

def unreadable (file : String) (fault : FileFault) : Answer :=
  ⟨1, "", "Error: cannot read " ++ file ++ ": " ++ fault.message ++ "\n"⟩

def tokenLine (t : Token) : String :=
  t.kind.label ++ " @ " ++ t.span.start.display ++ "-" ++ t.span.stop.display ++ "\n"

def runSource (limit : Nat) (source : Source) : Answer :=
  match (Session.new limit).run source with
  | none => misuse
  | some (r, s) =>
    match r.result with
    | .ok v => done (r.printed ++ Prompt.shown s v)
    | .error d => failed r.printed d

def tokensOf (source : Source) : Answer :=
  match source.tokens with
  | .ok tokens => done (String.join (tokens.map tokenLine))
  | .error d => failed "" d

def parseOf (compact : Bool) (source : Source) : Answer :=
  match source.program with
  | .ok p =>
    done ((if compact then p.compact else (p.outline Document.ofFloat).pretty) ++ "\n")
  | .error d => failed "" d

/-- The file that a command reads. -/
def Command.file? : Command → Option String
  | .prompt => .none
  | .run file => some file
  | .tokens file => some file
  | .parse file _ => some file

/-- What a command makes of the contents of its file. -/
def Command.onSource (c : Command) (limit : Nat) (source : Source) : Answer :=
  match c with
  | .prompt => done ""
  | .run _ => runSource limit source
  | .tokens _ => tokensOf source
  | .parse _ compact => parseOf compact source

/-- The answer to some words, where `contents` tells of files and `input` is all there is to read
at the prompt. -/
def answer (contents : String → Except FileFault String) (input : String) (words : List String) :
    Answer :=
  match read words with
  | none => misuse
  | some .version => done versionText
  | some .help => done helpText
  | some (.perform command limit) =>
    match command.file? with
    | none => done (Prompt.transcript (.new limit) input)
    | some file =>
      match contents file with
      | .ok text => command.onSource limit ⟨file, text⟩
      | .error fault => unreadable file fault

end CommandLine

end Scriptlet
