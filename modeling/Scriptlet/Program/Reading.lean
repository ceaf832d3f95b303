import Scriptlet.Diagnostic
import Scriptlet.Program.Grammar

/-!
# From a source to its program
-/

set_option autoImplicit false

namespace Scriptlet

namespace Source

def tokens (s : Source) : Except Diagnostic (List Token) :=
  match tokenize s.text with
  | .ok tokens => .ok tokens
  | .error misread => .error ⟨.lexical misread.fault, misread.span, s, []⟩

/-- The program that tokens of this source stand for. -/
def programOf (s : Source) (tokens : List Token) : Except Diagnostic Program :=
  match Program.ofTokens tokens with
  | .ok program => .ok program
  | .error misfit => .error ⟨.syntactic misfit.expected, misfit.span, s, []⟩

def program (s : Source) : Except Diagnostic Program :=
  match s.tokens with
  | .ok tokens => s.programOf tokens
  | .error d => .error d

end Source

end Scriptlet
