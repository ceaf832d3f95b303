import Scriptlet.Text.Source

/-!
# Underlined source lines

The lines that a span covers, each followed by carets under what the span
covers of it. A line with nothing to mark still gets one caret.
-/

set_option autoImplicit false

namespace Scriptlet

namespace Underline

/-- One line as shown, with the column of its first caret and how many there are. -/
structure Row where
  shown : List Char
  indent : Nat
  carets : Nat

/-- Tabs take one column, and carriage returns at the end of the line none. -/
def shown (line : List Char) : List Char :=
  ((line.reverse.dropWhile (· = '\r')).reverse).map fun c => if c = '\t' then ' ' else c

def row (span : Span) (lineNo : Nat) (line : List Char) : Row :=
  let text := shown line
  let indent := if lineNo = span.start.line then span.start.column else 0
  let stop := if lineNo = span.stop.line then span.stop.column else text.length
  ⟨text, indent, max (stop - indent) 1⟩

/-- The last line to show: a span that ends just past a newline does not cover the line after it. -/
def lastLine (span : Span) : Nat :=
  if span.start.line < span.stop.line ∧ span.stop.column = 0 then span.stop.line - 1
  else max span.stop.line span.start.line

/-- At most `count` rows from line `lineNo` on, where `rest` begins. -/
def rowsFrom (span : Span) : (count lineNo : Nat) → (rest : Option (List Char)) → List Row
  | 0, _, _ => []
  | _ + 1, _, none => []
  | count + 1, lineNo, some cs =>
    row span lineNo (Text.firstLine cs) :: rowsFrom span count (lineNo + 1) (Text.afterLine? cs)

def rows (source : Source) (span : Span) : List Row :=
  rowsFrom span (lastLine span + 1 - span.start.line) span.start.line
    (Text.afterLines? span.start.line source.text.toList)

def Row.chars (r : Row) : List Char :=
  r.shown ++ '\n' :: (List.replicate r.indent ' ' ++ List.replicate r.carets '^' ++ ['\n'])

end Underline

/-- The lines under a span with their carets. -/
def Source.underline (source : Source) (span : Span) : String :=
  String.ofList ((Underline.rows source span).flatMap Underline.Row.chars)

end Scriptlet
