/-!
# Positions and spans

A position counts what stands before it in a text: bytes, newlines, and the
characters since the last newline. A span is a pair of positions, its end
exclusive. Positions are reached by stepping over characters, so `walk` over
a text that is put together from two parts is the walk over one part after
the other.
-/

set_option autoImplicit false

namespace Scriptlet

structure Position where
  index : Nat
  line : Nat
  column : Nat
  deriving DecidableEq, Inhabited

structure Span where
  start : Position
  stop : Position
  deriving DecidableEq, Inhabited

namespace Position

/-- The position before any character. -/
def origin : Position := ⟨0, 0, 0⟩

def advance (p : Position) (c : Char) : Position :=
  if c = '\n' then ⟨p.index + c.utf8Size, p.line + 1, 0⟩
  else ⟨p.index + c.utf8Size, p.line, p.column + 1⟩

def walk (p : Position) (cs : List Char) : Position := cs.foldl advance p

/-- The positions reached after each character. -/
def reached (p : Position) : List Char → List Position
  | [] => []
  | c :: cs => p.advance c :: reached (p.advance c) cs

/-- Line and column as people count them, from one. -/
def display (p : Position) : String := s!"{p.line + 1}:{p.column + 1}"

theorem walk_nil (p : Position) : p.walk [] = p := rfl

theorem walk_cons (p : Position) (c : Char) (cs : List Char) :
    p.walk (c :: cs) = (p.advance c).walk cs := rfl

theorem walk_append (p : Position) (cs ds : List Char) :
    p.walk (cs ++ ds) = (p.walk cs).walk ds := by
  simp [walk]

end Position

namespace Span

/-- The empty span at a position, for what is missing there. -/
def emptyAt (p : Position) : Span := ⟨p, p⟩

/-- The least span around two spans; each end keeps the first of two equal candidates. -/
def merge (a b : Span) : Span :=
  ⟨if b.start.index < a.start.index then b.start else a.start,
   if a.stop.index < b.stop.index then b.stop else a.stop⟩

def isEmpty (s : Span) : Bool := s.stop.index ≤ s.start.index

def display (s : Span) : String := s!"{s.start.index}..{s.stop.index}"

end Span

end Scriptlet
