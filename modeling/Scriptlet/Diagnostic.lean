import Scriptlet.Fault
import Scriptlet.Program.Cursor
import Scriptlet.Text.Underline
import Scriptlet.Token.Lexer

/-!
# Diagnostics

An error of any stage: its cause, the text that it points into, and for a
running program the calls that were active. `render` shows all of it.
-/

set_option autoImplicit false

namespace Scriptlet

def LexicalFault.name : LexicalFault → String
  | illegalCharacter _ => "IllegalCharacter"
  | manyPoints => "MultipleDecimalPoints"
  | unterminatedText => "UnterminatedString"
  | integerTooLarge => "IntegerTooLarge"

def LexicalFault.message : LexicalFault → String
  | illegalCharacter c => "illegal character '" ++ c.toString ++ "'"
  | manyPoints => "a number cannot contain more than one decimal point"
  | unterminatedText => "unterminated string literal"
  | integerTooLarge => "integer literal does not fit in 64 bits"

/-- One active call: where it stands in its own source, and what it runs. -/
structure TraceEntry where
  sourceName : String
  line : Nat
  context : String
  deriving DecidableEq

def TraceEntry.display (e : TraceEntry) : String :=
  "File " ++ e.sourceName ++ s!", line {e.line}, in " ++ e.context

inductive Cause where
  | lexical (fault : LexicalFault)
  | syntactic (expected : Expectation)
  | runtime (fault : Fault)
  deriving DecidableEq

namespace Cause

def name : Cause → String
  | lexical fault => fault.name
  | syntactic _ => "InvalidSyntax"
  | runtime fault => fault.name

def message : Cause → String
  | lexical fault => fault.message
  | syntactic expected => expected.message
  | runtime fault => fault.message

def display : Cause → String
  | syntactic expected => "invalid syntax: " ++ expected.message
  | cause => cause.message

end Cause

/-- The trace lists active calls from the outermost on. -/
structure Diagnostic where
  cause : Cause
  span : Span
  source : Source
  trace : List TraceEntry
  deriving DecidableEq

namespace Diagnostic

def name (d : Diagnostic) : String := d.cause.name

def message (d : Diagnostic) : String := d.cause.message

def traceback (d : Diagnostic) : String :=
  if d.trace = [] then ""
  else "Traceback (most recent call last):\n"
    ++ String.join (d.trace.map fun e => "  " ++ e.display ++ "\n")

/-- Where the error is, for one without a trace. -/
def place (d : Diagnostic) : String :=
  if d.trace = [] then "  File " ++ d.source.name ++ s!", line {d.span.start.line + 1}\n" else ""

def render (d : Diagnostic) : String :=
  d.traceback ++ d.name ++ ": " ++ d.message ++ "\n" ++ d.source.underline d.span ++ d.place

end Diagnostic

end Scriptlet
