import Scriptlet.Program.Node
import Scriptlet.Value

/-!
# What can go wrong in a running program
-/

set_option autoImplicit false

namespace Scriptlet

/-- What was applied to operands that it is not defined for. -/
inductive Operation where
  | binary (op : BinaryOp)
  | unary (op : UnaryOp)
  | index
  | call
  | forTo
  | builtin (b : Builtin)
  deriving DecidableEq

def Operation.display : Operation → String
  | binary op => op.symbol
  | unary op => op.symbol
  | index => "[]"
  | call => "call"
  | forTo => "FOR"
  | builtin b => b.name

inductive Fault where
  | divisionByZero
  | moduloByZero
  | undefined (name : String)
  | operandTypes (operation : Operation) (left : ValueKind) (right : Option ValueKind)
  | argumentCount (name : String) (expected actual : Nat)
  | indexOutOfRange (index : Int64) (length : Nat)
  | recursionLimit (limit : Nat)
  | textTooLong
  deriving DecidableEq

namespace Fault

/-- The most bytes that a repeated text may have. -/
def textLimit : Nat := 1 <<< 30

def name : Fault → String
  | divisionByZero => "DivisionByZero"
  | moduloByZero => "ModuloByZero"
  | undefined _ => "UndefinedVariable"
  | operandTypes .. => "TypeMismatch"
  | argumentCount .. => "WrongArgCount"
  | indexOutOfRange .. => "IndexOutOfRange"
  | recursionLimit _ => "MaxRecursionDepth"
  | textTooLong => "StringTooLong"

def quote (s : String) : String := "'" ++ s ++ "'"

def message : Fault → String
  | divisionByZero => "division by zero"
  | moduloByZero => "modulo by zero"
  | undefined name => quote name ++ " is not defined"
  | operandTypes operation left none =>
    "unsupported operand type for " ++ operation.display ++ ": " ++ quote left.name
  | operandTypes operation left (some right) =>
    "unsupported operand types for " ++ operation.display ++ ": " ++ quote left.name ++ " and "
      ++ quote right.name
  | argumentCount name expected actual =>
    name ++ s!" takes {expected} argument(s) but {actual} were given"
  | indexOutOfRange index length =>
    s!"index {index.toInt} is out of range for length {length}"
  | recursionLimit limit => s!"maximum recursion depth of {limit} exceeded"
  | textTooLong => s!"string result would exceed {textLimit} bytes"

end Fault

end Scriptlet
