import Scriptlet.Text.Position

/-!
# Program trees

A node is an expression, or a statement, together with the span it was read
from. A block is the body of a compound statement that stands on lines of its
own; what compound statements give as their value depends on it, so a body
keeps the form it was written in.
-/

set_option autoImplicit false

namespace Scriptlet

inductive BinaryOp where
  | add | sub | mul | div | intDiv | mod | pow
  | eq | ne | lt | gt | le | ge
  | and | or
  deriving DecidableEq

inductive UnaryOp where
  | neg | pos | not
  deriving DecidableEq

/-- A parameter of a function, where it was written. -/
structure Param where
  name : String
  span : Span
  deriving DecidableEq

mutual

inductive Node where
  | mk (expr : Expr) (span : Span)

inductive Expr where
  | int (n : Int64)
  | float (x : Float)
  | text (s : String)
  | list (items : List Node)
  | var (name : String)
  /-- Binds the name here if `declare`, else rebinds it where it is bound. -/
  | assign (name : String) (value : Node) (declare : Bool)
  | binary (op : BinaryOp) (left right : Node)
  | unary (op : UnaryOp) (operand : Node)
  | ifElse (branches : List (Node × Node)) (otherwise : Option Node)
  | forTo (var : String) (start stop : Node) (step : Option Node) (body : Node)
  | whileDo (test body : Node)
  | function (name : Option String) (params : List Param) (body : Node)
  | call (callee : Node) (args : List Node)
  | index (target index : Node)
  | return (value : Option Node)
  | continue
  | break
  | block (body : List Node)

end

namespace Node

def expr : Node → Expr
  | mk e _ => e

def span : Node → Span
  | mk _ s => s

/-- Whether the node is a body on lines of its own. -/
def isBlock : Node → Bool
  | mk (.block _) _ => true
  | _ => false

end Node

structure Program where
  statements : List Node
  span : Span

namespace BinaryOp

def symbol : BinaryOp → String
  | add => "+"
  | sub => "-"
  | mul => "*"
  | div => "/"
  | intDiv => "|"
  | mod => "%"
  | pow => "^"
  | eq => "=="
  | ne => "!="
  | lt => "<"
  | gt => ">"
  | le => "<="
  | ge => ">="
  | and => "AND"
  | or => "OR"

def label : BinaryOp → String
  | add => "Add"
  | sub => "Sub"
  | mul => "Mul"
  | div => "Div"
  | intDiv => "IntDiv"
  | mod => "Mod"
  | pow => "Pow"
  | eq => "Eq"
  | ne => "Ne"
  | lt => "Lt"
  | gt => "Gt"
  | le => "Le"
  | ge => "Ge"
  | and => "And"
  | or => "Or"

/-- Whether a zero on the right is an error. -/
def divides : BinaryOp → Bool
  | div | intDiv | mod => true
  | _ => false

end BinaryOp

namespace UnaryOp

def symbol : UnaryOp → String
  | neg => "-"
  | pos => "+"
  | not => "NOT"

def label : UnaryOp → String
  | neg => "Neg"
  | pos => "Pos"
  | not => "Not"

end UnaryOp

end Scriptlet
