import Scriptlet.Text.Position

/-!
# Named texts

A source is a text with a name. A span cuts out a slice by byte offsets, and
`line` gives one line without its newline.
-/

set_option autoImplicit false

namespace Scriptlet

namespace Text

/-- What is left after the characters that begin before byte `n`. -/
def dropBytes : Nat → List Char → List Char
  | 0, cs => cs
  | _ + 1, [] => []
  | n + 1, c :: cs => dropBytes (n + 1 - c.utf8Size) cs

/-- The characters that begin before byte `n`. -/
def takeBytes : Nat → List Char → List Char
  | 0, _ => []
  | _ + 1, [] => []
  | n + 1, c :: cs => c :: takeBytes (n + 1 - c.utf8Size) cs

theorem takeBytes_append_dropBytes (n : Nat) (cs : List Char) :
    takeBytes n cs ++ dropBytes n cs = cs := by
  induction cs generalizing n with
  | nil => cases n <;> rfl
  | cons c cs ih => cases n with
    | zero => rfl
    | succ n => simp [takeBytes, dropBytes, ih]

/-- What follows the first newline. -/
def afterLine? : List Char → Option (List Char)
  | [] => none
  | c :: cs => if c = '\n' then some cs else afterLine? cs

def firstLine (cs : List Char) : List Char := cs.takeWhile (· ≠ '\n')

/-- What is left after `n` lines. -/
def afterLines? : Nat → List Char → Option (List Char)
  | 0, cs => some cs
  | n + 1, cs => (afterLine? cs).bind (afterLines? n)

end Text

structure Source where
  name : String
  text : String
  deriving DecidableEq, Inhabited

namespace Source

/-- The text under a span; an end past the text is the end of the text. -/
def slice (s : Source) (span : Span) : String :=
  let stop := min span.stop.index s.text.utf8ByteSize
  let start := min span.start.index stop
  String.ofList (Text.takeBytes (stop - start) (Text.dropBytes start s.text.toList))

/-- Line `n`, counted from zero. -/
def line? (s : Source) (n : Nat) : Option String :=
  (Text.afterLines? n s.text.toList).map fun cs => String.ofList (Text.firstLine cs)

end Source

end Scriptlet
