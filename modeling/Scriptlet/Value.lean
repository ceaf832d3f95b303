/-!
# Values

Numbers, texts and the names of built-in functions are values in themselves.
A list or a function is a reference to something that is kept elsewhere, so
that two values can be the same list, and a list can hold itself.
-/

set_option autoImplicit false

namespace Scriptlet

inductive Number where
  | int (n : Int64)
  | float (x : Float)

inductive Builtin where
  | print | printRet | isNum | isStr | isList | isFun | append | extend | pop | len
  deriving DecidableEq

namespace Builtin

def all : List Builtin :=
  [.print, .printRet, .isNum, .isStr, .isList, .isFun, .append, .extend, .pop, .len]

def name : Builtin → String
  | print => "PRINT"
  | printRet => "PRINT_RET"
  | isNum => "IS_NUM"
  | isStr => "IS_STR"
  | isList => "IS_LIST"
  | isFun => "IS_FUN"
  | append => "APPEND"
  | extend => "EXTEND"
  | pop => "POP"
  | len => "LEN"

/-- How many arguments it takes. -/
def arity : Builtin → Nat
  | append | extend | pop => 2
  | _ => 1

def ofName? (s : String) : Option Builtin := all.find? fun b => b.name = s

theorem ofName?_name (b : Builtin) : ofName? b.name = some b := by
  cases b <;> decide

end Builtin

abbrev ListId := Nat
abbrev FunctionId := Nat

inductive Value where
  | number (n : Number)
  | text (s : String)
  | list (id : ListId)
  | function (id : FunctionId)
  | builtin (b : Builtin)
  | nothing

/-- What error messages tell of a value. -/
inductive ValueKind where
  | int | float | text | list | function | builtin | nothing
  deriving DecidableEq

namespace ValueKind

def name : ValueKind → String
  | int => "int"
  | float => "float"
  | text => "string"
  | list => "list"
  | function => "function"
  | builtin => "built-in function"
  | nothing => "nothing"

end ValueKind

namespace Number

/-- A whole number as a double. Its size is rounded, if it must be, and then has its sign. -/
def wholeToFloat (n : Int64) : Float :=
  let size := n.toInt.natAbs.toUInt64.toFloat
  if n.toInt < 0 then -size else size

/-- The number as a double. -/
def toFloat : Number → Float
  | int n => wholeToFloat n
  | float x => x

def isZero : Number → Bool
  | int n => n = 0
  | float x => x == 0.0

def kind : Number → ValueKind
  | int _ => .int
  | float _ => .float

end Number

namespace Value

def int (n : Int64) : Value := .number (.int n)

def float (x : Float) : Value := .number (.float x)

def truth (b : Bool) : Value := .int (if b then 1 else 0)

def kind : Value → ValueKind
  | number n => n.kind
  | text _ => .text
  | list _ => .list
  | function _ => .function
  | builtin _ => .builtin
  | nothing => .nothing

def isNumber : Value → Bool
  | number _ => true
  | _ => false

/-- Whether the value is a number equal to zero. -/
def isZero : Value → Bool
  | number n => n.isZero
  | _ => false

def toFloat? : Value → Option Float
  | number n => some n.toFloat
  | _ => none

end Value

end Scriptlet
