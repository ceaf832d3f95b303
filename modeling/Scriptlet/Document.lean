/-!
# Documents

Trees of named fields and lists, written with two spaces for each level or on
one line. Numbers are kept as the text that stands for them.
-/

set_option autoImplicit false

namespace Scriptlet

inductive Document where
  | null
  | bool (b : Bool)
  | number (digits : String)
  | text (s : String)
  | list (items : List Document)
  | record (fields : List (String × Document))

namespace Document

def ofNat (n : Nat) : Document := .number (toString n)

def hexByte (n : Nat) : List Char :=
  let ds := Nat.toDigits 16 n
  List.replicate (4 - ds.length) '0' ++ ds

def encodeChar (c : Char) : List Char :=
  if c = '"' then ['\\', '"']
  else if c = '\\' then ['\\', '\\']
  else if c = '\n' then ['\\', 'n']
  else if c = '\r' then ['\\', 'r']
  else if c = '\t' then ['\\', 't']
  else if c = '\x08' then ['\\', 'b']
  else if c = '\x0c' then ['\\', 'f']
  else if c.toNat < 32 then '\\' :: 'u' :: hexByte c.toNat
  else [c]

def encode (s : String) : String := String.ofList ('"' :: s.toList.flatMap encodeChar ++ ['"'])

/-- A new line, indented by `depth` levels. -/
def newline (depth : Nat) : String := String.ofList ('\n' :: List.replicate (2 * depth) ' ')

/-- Items between brackets, each on its own line; nothing stands between the brackets if there
are none. -/
def bracket (depth : Nat) (left right : String) : List String → String
  | [] => left ++ right
  | items => left ++ newline (depth + 1) ++ ("," ++ newline (depth + 1)).intercalate items
      ++ newline depth ++ right

mutual

def prettyAt (depth : Nat) : Document → String
  | .null => "null"
  | .bool b => if b then "true" else "false"
  | .number digits => digits
  | .text s => encode s
  | .list items => bracket depth "[" "]" (prettyItems (depth + 1) items)
  | .record fields => bracket depth "\x7b" "\x7d" (prettyFields (depth + 1) fields)

def prettyItems (depth : Nat) : List Document → List String
  | [] => []
  | d :: ds => prettyAt depth d :: prettyItems depth ds

def prettyFields (depth : Nat) : List (String × Document) → List String
  | [] => []
  | (name, d) :: rest => (encode name ++ ": " ++ prettyAt depth d) :: prettyFields depth rest

end

def pretty (d : Document) : String := prettyAt 0 d

end Document

end Scriptlet
