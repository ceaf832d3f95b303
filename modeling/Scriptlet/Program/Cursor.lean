import Scriptlet.Token

/-!
# Reading a row of tokens

A cursor stands before a token and remembers where the tokens before it
ended. Readers move a cursor forward, or fail at one with what they expected
there. What is missing is reported just past the last token that is no
separator.
-/

set_option autoImplicit false

namespace Scriptlet

open Token (Kind)

/-- What the grammar allows where something else stands. -/
inductive Expectation where
  | mark (m : Mark)
  | keywords (words : List Keyword)
  | identifier
  | identifierOrParen
  | commaOr (m : Mark)
  | functionBody
  | operand
  | operatorOrEnd
  deriving DecidableEq

namespace Expectation

def inQuotes (s : String) : String := "'" ++ s ++ "'"

def message : Expectation → String
  | mark m => "expected " ++ inQuotes m.display
  | keywords words => "expected " ++ " or ".intercalate (words.map fun w => inQuotes w.spelling)
  | identifier => "expected identifier"
  | identifierOrParen => "expected identifier or '('"
  | commaOr m => "expected ',' or " ++ inQuotes m.display
  | functionBody => "expected '->' or newline"
  | operand =>
    "expected int, float, string, identifier, '+', '-', '(', '[', 'IF', 'FOR', 'WHILE', 'FUN'"
  | operatorOrEnd => "expected an operator or the end of the statement"

end Expectation

/-- The tokens from the current one on, the end of the last token read, and the end of the last
one read that is no separator. -/
structure Cursor where
  rest : List Token
  lastEnd : Position
  contentEnd : Option Position

namespace Cursor

/-- Before the first token there is no last one, and its start stands for the end of the last. -/
def ofTokens (tokens : List Token) : Cursor :=
  ⟨tokens, ((tokens.head?.map fun t => t.span.start).getD .origin), none⟩

/-- The kind of the current token; past all tokens the text has ended. -/
def kind (c : Cursor) : Kind :=
  match c.rest with
  | [] => .mark .stop
  | t :: _ => t.kind

def span (c : Cursor) : Span :=
  match c.rest with
  | [] => .emptyAt c.lastEnd
  | t :: _ => t.span

/-- The cursor after reading `t`. -/
def pass (c : Cursor) (t : Token) (rest : List Token) : Cursor :=
  ⟨rest, t.span.stop, if t.kind.isMark .separator then c.contentEnd else some t.span.stop⟩

def next (c : Cursor) : Cursor :=
  match c.rest with
  | [] => c
  | t :: rest => c.pass t rest

/-- Whether an identifier and an equals sign are next. -/
def atAssignment (c : Cursor) : Bool :=
  match c.rest with
  | ⟨.identifier _, _⟩ :: t :: _ => t.kind.isMark .equal
  | _ => false

/-- Past all separators, from a place where `rest` is next and the last token ended at `lastEnd`. -/
def skipFrom (contentEnd : Option Position) : (rest : List Token) → (lastEnd : Position) → Cursor
  | [], lastEnd => ⟨[], lastEnd, contentEnd⟩
  | t :: rest, lastEnd =>
    if t.kind.isMark .separator then skipFrom contentEnd rest t.span.stop
    else ⟨t :: rest, lastEnd, contentEnd⟩

def skipSeparators (c : Cursor) : Cursor := skipFrom c.contentEnd c.rest c.lastEnd

end Cursor

/-- What was expected, and where. -/
structure Misfit where
  expected : Expectation
  cursor : Cursor

/-- The token that does not fit; for one that ends a line, the place where something is missing. -/
def Misfit.span (m : Misfit) : Span :=
  let c := m.cursor
  if c.kind.isMark .separator || c.kind.isMark .stop then .emptyAt (c.contentEnd.getD c.lastEnd)
  else c.span

abbrev Reader := StateT Cursor (Except Misfit)

namespace Reader

variable {α : Type}

def fail (expected : Expectation) : Reader α := fun c => .error ⟨expected, c⟩

def kind : Reader Kind := fun c => .ok (c.kind, c)

/-- The start of the current token. -/
def here : Reader Position := fun c => .ok (c.span.start, c)

/-- How many tokens are left: a bound for what repeats with a token each time. -/
def remaining : Reader Nat := fun c => .ok (c.rest.length, c)

def lastEnd : Reader Position := fun c => .ok (c.lastEnd, c)

def atMark (m : Mark) : Reader Bool := fun c => .ok (c.kind.isMark m, c)

def atKeyword (word : Keyword) : Reader Bool := fun c => .ok (c.kind.isKeyword word, c)

def atAnyKeyword (words : List Keyword) : Reader Bool :=
  fun c => .ok (words.any fun w => c.kind.isKeyword w, c)

/-- Passes the current token and gives its span. -/
def pass : Reader Span := fun c => .ok (c.span, c.next)

/-- Passes all separators and tells whether there was one. -/
def skipSeparators : Reader Bool := fun c => .ok (c.kind.isMark .separator, c.skipSeparators)

def expectMark (m : Mark) : Reader Span := do
  if ← atMark m then pass else fail (.mark m)

def expectKeyword (word : Keyword) : Reader Span := do
  if ← atKeyword word then pass else fail (.keywords [word])

/-- An identifier and its span. -/
def identifier : Reader (String × Span) := do
  match ← kind with
  | .identifier name => return (name, ← pass)
  | _ => fail .identifier

/-- Further items, each after a comma. -/
def itemsAfter (item : Reader α) : (bound : Nat) → Reader (List α)
  | 0 => return []
  | bound + 1 => do
    if ← atMark .comma then
      let _ ← pass
      let x ← item
      let xs ← itemsAfter item bound
      return x :: xs
    else return []

/-- Items with commas between them up to a closing mark, which is passed too. -/
def itemsUntil (close : Mark) (item : Reader α) : Reader (List α) := do
  let items ← if ← atMark close then pure [] else do
    let x ← item
    let xs ← itemsAfter item (← remaining)
    pure (x :: xs)
  if ← atMark close then
    let _ ← pass
    return items
  else fail (.commaOr close)

end Reader

end Scriptlet
