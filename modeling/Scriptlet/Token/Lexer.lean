import Scriptlet.Token
import Scriptlet.Decimal.Reading

/-!
# Reading tokens

`scan` takes the longest piece that stands at the start of a text: blanks, a
comment, a token, or something that is no token. `tokenize` repeats this from
the start of a text to its end, or to the first piece that is no token, and
steps a position over all it takes.
-/

set_option autoImplicit false

namespace Scriptlet

/-- Why a text has no tokens. -/
inductive LexicalFault where
  | illegalCharacter (c : Char)
  | manyPoints
  | unterminatedText
  | integerTooLarge
  deriving DecidableEq

namespace Lexer

open Token (Kind)

inductive Reading where
  | blank
  | token (kind : Kind)
  | fault (fault : LexicalFault)

/-- What stands at the start of a text, the characters it takes, and those after it. -/
structure Piece where
  reading : Reading
  taken : List Char
  rest : List Char

def isBlank (c : Char) : Bool := c = ' ' || c = '\t' || c = '\r'

def isWordStart (c : Char) : Bool := c.isAlpha || c = '_'

def isWordPart (c : Char) : Bool := c.isAlphanum || c = '_'

/-- The longest start of a text whose characters all pass. -/
def run (p : Char → Bool) (reading : List Char → Reading) (cs : List Char) : Piece :=
  ⟨reading (cs.takeWhile p), cs.takeWhile p, cs.dropWhile p⟩

def wordReading (cs : List Char) : Reading :=
  let name := String.ofList cs
  match Keyword.ofSpelling? name with
  | some word => .token (.keyword word)
  | none => .token (.identifier name)

def integerReading (digits : List Char) : Reading :=
  let n := Decimal.natOfDigits digits
  if n ≤ Int64.maxValue.toInt then .token (.int (Int64.ofNat n)) else .fault .integerTooLarge

def decimalReading (whole fraction : List Char) : Reading :=
  if fraction.contains '.' then .fault .manyPoints
  else .token (.float (Decimal.ofDigits whole fraction 0))

/-- Digits, with a point and all further digits and points after it. -/
def number (cs : List Char) : Piece :=
  let whole := cs.takeWhile Char.isDigit
  match cs.dropWhile Char.isDigit with
  | '.' :: rest =>
    let part (c : Char) : Bool := c.isDigit || c = '.'
    let fraction := rest.takeWhile part
    ⟨decimalReading whole fraction, whole ++ '.' :: fraction, rest.dropWhile part⟩
  | rest => ⟨integerReading whole, whole, rest⟩

/-- The extent of a string literal after its opening quote. A backslash takes the character after
it along, but never a newline. -/
structure Extent where
  closed : Bool
  taken : List Char
  rest : List Char

def Extent.prepend (cs : List Char) (e : Extent) : Extent := ⟨e.closed, cs ++ e.taken, e.rest⟩

def extent : List Char → Extent
  | [] => ⟨false, [], []⟩
  | '"' :: cs => ⟨true, ['"'], cs⟩
  | '\\' :: [] => ⟨false, ['\\'], []⟩
  | '\\' :: c :: cs =>
    if c = '\n' then ⟨false, ['\\'], c :: cs⟩ else (extent cs).prepend ['\\', c]
  | c :: cs => (extent cs).prepend [c]

/-- What the characters between the quotes stand for. -/
def unescape : List Char → List Char
  | [] => []
  | '\\' :: c :: cs =>
    (if c = 'n' then '\n' else if c = 't' then '\t' else c) :: unescape cs
  | c :: cs => c :: unescape cs

def text (cs : List Char) : Piece :=
  let e := extent cs
  if e.closed then
    ⟨.token (.text (String.ofList (unescape e.taken.dropLast))), '"' :: e.taken, e.rest⟩
  else ⟨.fault .unterminatedText, '"' :: e.taken, e.rest⟩

def pair? (c d : Char) : Option Mark :=
  match c, d with
  | '=', '=' => some .equalEqual
  | '!', '=' => some .notEqual
  | '<', '=' => some .lessEqual
  | '>', '=' => some .greaterEqual
  | '-', '>' => some .arrow
  | _, _ => none

def single? (c : Char) : Option Mark :=
  match c with
  | '+' => some .plus
  | '-' => some .minus
  | '*' => some .times
  | '/' => some .slash
  | '|' => some .bar
  | '%' => some .percent
  | '^' => some .caret
  | '=' => some .equal
  | '<' => some .less
  | '>' => some .greater
  | '(' => some .leftParen
  | ')' => some .rightParen
  | '[' => some .leftSquare
  | ']' => some .rightSquare
  | ',' => some .comma
  | '\n' => some .separator
  | ';' => some .separator
  | _ => none

def singleMark (c : Char) (cs : List Char) : Piece :=
  match single? c with
  | some m => ⟨.token (.mark m), [c], cs⟩
  | none => ⟨.fault (.illegalCharacter c), [c], cs⟩

/-- Two characters that make one mark win over the mark that the first makes alone. -/
def mark (c : Char) (cs : List Char) : Piece :=
  match cs with
  | [] => singleMark c cs
  | d :: ds =>
    match pair? c d with
    | some m => ⟨.token (.mark m), [c, d], ds⟩
    | none => singleMark c cs

/-- The piece at the start of `c :: cs`. -/
def scan (c : Char) (cs : List Char) : Piece :=
  if isBlank c then run isBlank (fun _ => .blank) (c :: cs)
  else if c = '#' then run (· ≠ '\n') (fun _ => .blank) (c :: cs)
  else if c.isDigit then number (c :: cs)
  else if isWordStart c then run isWordPart wordReading (c :: cs)
  else if c = '"' then text cs
  else mark c cs

/-- A piece of text that is no token. -/
structure Misread where
  fault : LexicalFault
  span : Span

/-- Tokens from position `p`, after those in `read`, which are in reverse order. Every piece takes
a character, so as much fuel as there are characters is enough. -/
def tokensFrom : (fuel : Nat) → (p : Position) → (cs : List Char) → (read : List Token) →
    Except Misread (List Token)
  | fuel + 1, p, c :: cs, read =>
    let piece := scan c cs
    let q := p.walk piece.taken
    match piece.reading with
    | .blank => tokensFrom fuel q piece.rest read
    | .token kind => tokensFrom fuel q piece.rest (⟨kind, ⟨p, q⟩⟩ :: read)
    | .fault fault => .error ⟨fault, ⟨p, q⟩⟩
  | _, p, _, read => .ok (⟨.mark .stop, .emptyAt p⟩ :: read).reverse

end Lexer

/-- The tokens of a text; the last of them is the end of the text. -/
def tokenize (text : String) : Except Lexer.Misread (List Token) :=
  let cs := text.toList
  Lexer.tokensFrom cs.length .origin cs []

end Scriptlet
