import Scriptlet.Program.Node
import Scriptlet.Text.Quoted
import Scriptlet.Decimal.Style

/-!
# The compact form

One line of nested parentheses for a node, without its spans.
-/

set_option autoImplicit false

namespace Scriptlet

/-- Pieces with a space between neighbours. -/
def spaced (pieces : List String) : String := " ".intercalate pieces

mutual

def Node.compact : Node → String
  | .mk e _ => e.compact

def Expr.compact : Expr → String
  | .int n => toString n.toInt
  | .float x => Decimal.render x
  | .text s => Text.quoted s
  | .list items => "[" ++ spaced (compactAll items) ++ "]"
  | .var name => name
  | .assign name value declare =>
    "(" ++ spaced [if declare then "var" else "set", name, value.compact] ++ ")"
  | .binary op left right => "(" ++ spaced [op.symbol, left.compact, right.compact] ++ ")"
  | .unary op operand => "(" ++ spaced [op.symbol, operand.compact] ++ ")"
  | .ifElse branches otherwise =>
    "(" ++ spaced ("if" :: compactBranches branches ++ compactOption "else" otherwise) ++ ")"
  | .forTo var start stop step body =>
    "(" ++ spaced (["for", var, start.compact, stop.compact] ++ compactOption "step" step
      ++ [body.compact]) ++ ")"
  | .whileDo test body => "(" ++ spaced ["while", test.compact, body.compact] ++ ")"
  | .function name params body =>
    "(" ++ spaced ["fun", name.getD "_", "(" ++ spaced (params.map Param.name) ++ ")",
      body.compact] ++ ")"
  | .call callee args => "(" ++ spaced ("call" :: callee.compact :: compactAll args) ++ ")"
  | .index target index => "(" ++ spaced ["index", target.compact, index.compact] ++ ")"
  | .return none => "(return)"
  | .return (some value) => "(return " ++ value.compact ++ ")"
  | .continue => "(continue)"
  | .break => "(break)"
  | .block body => "(" ++ spaced ("block" :: compactAll body) ++ ")"

def compactAll : List Node → List String
  | [] => []
  | n :: ns => n.compact :: compactAll ns

def compactBranches : List (Node × Node) → List String
  | [] => []
  | (test, body) :: rest =>
    ("(" ++ spaced [test.compact, body.compact] ++ ")") :: compactBranches rest

def compactOption (word : String) : Option Node → List String
  | none => []
  | some n => ["(" ++ spaced [word, n.compact] ++ ")"]

end

/-- One line for each statement. -/
def Program.compact (p : Program) : String := "\n".intercalate (compactAll p.statements)

end Scriptlet
