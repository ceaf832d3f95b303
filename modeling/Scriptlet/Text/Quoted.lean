import Scriptlet.Text.Extender

/-!
# Quoted text

A text between double quotes in which every character shows: quotes,
backslashes and the usual controls are written with a backslash, and what
has no visible form, or would change the look of the character before it, is
written by its code point.
-/

set_option autoImplicit false

namespace Scriptlet.Text.Quoted

/-- Lower-case hexadecimal digits, the first of them no zero unless it is the only one. -/
def hex (n : Nat) : List Char := Nat.toDigits 16 n

def codePoint (c : Char) : List Char := '\\' :: 'u' :: '\x7b' :: hex c.toNat ++ ['\x7d']

def encodeChar (c : Char) : List Char :=
  if c = '\x00' then ['\\', '0']
  else if c = '\t' then ['\\', 't']
  else if c = '\r' then ['\\', 'r']
  else if c = '\n' then ['\\', 'n']
  else if c = '"' then ['\\', '"']
  else if c = '\\' then ['\\', '\\']
  else if ' ' ≤ c ∧ c ≤ '~' then [c]
  else if isExtender c || isInvisible c then codePoint c
  else [c]

def encode (cs : List Char) : List Char := '"' :: cs.flatMap encodeChar ++ ['"']

end Quoted

/-- The text between quotes, with escapes. -/
def quoted (s : String) : String := String.ofList (Quoted.encode s.toList)

end Scriptlet.Text
