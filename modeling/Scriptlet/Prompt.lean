import Scriptlet.Session
import Scriptlet.Text.Blank
import Scriptlet.Value.Display

/-!
# The prompt

Lines are read one by one. A line that begins with a colon is a command to
the prompt itself, and every other line is a program in one session. The
value of a program is shown unless there is none; what is wrong with a
program is not written to the same place.
-/

set_option autoImplicit false

namespace Scriptlet

namespace Prompt

def version : String := "0.1.0"

def greeting : String :=
  "SimpleScript " ++ version ++ "\nType :help for help, :quit to exit.\n\n"

def mark : String := "simplescript> "

def farewell : String := "Goodbye!\n"

def sourceName : String := "<stdin>"

inductive Command where
  | quit | help | clear | unknown
  deriving DecidableEq

def command (line : String) : Command :=
  if [":quit", ":q", ":exit"].contains line then .quit
  else if [":help", ":h", ":?"].contains line then .help
  else if line = ":clear" then .clear
  else .unknown

def helpText : String := "\n".intercalate [
  "SimpleScript REPL Commands:",
  "  :help, :h, :?   Show this help",
  "  :quit, :q       Exit the REPL",
  "  :clear          Clear the screen",
  "",
  "You can enter:",
  "  - Variables: VAR x = 5 + 1",
  "  - Functions: FUN add(a, b) -> a + b",
  "  - Loops: FOR i = 0 TO 3 THEN PRINT(i)",
  "  - Statements separated by ';'",
  "",
  "Built-in functions:",
  "  PRINT(x) PRINT_RET(x) LEN(x)",
  "  IS_NUM(x) IS_STR(x) IS_LIST(x) IS_FUN(x)",
  "  APPEND(list, x) EXTEND(list, other) POP(list, index)",
  ""]

/-- Clears the screen and goes to its first place. -/
def clearScreen : String := "\x1b[2J\x1b[1;1H"

/-- What is written in answer to a line, what is wrong with it, and the session after it; no
session if the prompt ends. -/
structure Reply where
  written : String
  wrong : Option Diagnostic
  next : Option Session

/-- The value of a program as it is shown, on a line of its own. -/
def shown (s : Session) : Value → String
  | .nothing => ""
  | v => v.display s.store.heap ++ "\n"

/-- Runs one line as a program. -/
def runLine (s : Session) (line : String) : Reply :=
  match s.run ⟨sourceName, line⟩ with
  | none => ⟨"", none, none⟩
  | some (r, s) =>
    match r.result with
    | .ok v => ⟨r.printed ++ shown s v, none, some (s.drop v)⟩
    | .error d => ⟨r.printed, some d, some s⟩

/-- A backspace takes back the character before it, with what extends it. -/
def takeBack : List Char → List Char
  | [] => []
  | c :: cs => if Text.isExtender c then takeBack cs else cs

/-- The characters of a line, the last first, after its backspaces. -/
def typed (cs : List Char) : List Char :=
  cs.foldl (fun line c => if c = '\x08' then takeBack line else c :: line) []

/-- The line without its end, its backspaces, and the blanks around it. -/
def cleaned (line : String) : String :=
  let cs := (line.toList.reverse.dropWhile (· = '\n')).reverse
  String.ofList (Text.trimChars (typed cs).reverse)

def reply (s : Session) (line : String) : Reply :=
  let line := cleaned line
  if line = "" then ⟨"", none, some s⟩
  else if line.toList.head? = some ':' then
    match command line with
    | .quit => ⟨farewell, none, none⟩
    | .help => ⟨helpText, none, some s⟩
    | .clear => ⟨clearScreen, none, some s⟩
    | .unknown =>
      ⟨"Unknown command: " ++ line ++ "\nType :help for help.\n", none, some s⟩
  else runLine s line

/-- What is written for the lines of an input, up to the one that ends the prompt. -/
def replies (s : Session) : List String → String
  | [] => mark ++ farewell
  | line :: rest =>
    let r := reply s line
    mark ++ r.written ++ match r.next with
      | some s => replies s rest
      | none => ""

/-- The lines of an input; an end of line at its end begins no further line. -/
def lines (input : String) : List String :=
  let pieces := input.splitOn "\n"
  if pieces.getLast? = some "" then pieces.dropLast else pieces

def transcript (s : Session) (input : String) : String := greeting ++ replies s (lines input)

end Prompt

end Scriptlet
