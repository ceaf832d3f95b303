import Scriptlet.Text.Position
import Scriptlet.Text.Quoted
import Scriptlet.Decimal.Style

/-!
# Tokens

The words and marks of the language, each with its spelling and with the
name that token listings show.
-/

set_option autoImplicit false

namespace Scriptlet

inductive Keyword where
  | var | and | or | not | if | then | elif | else | for | to | step | while | fun | close
  | return | continue | break
  deriving DecidableEq

namespace Keyword

def all : List Keyword :=
  [.var, .and, .or, .not, .if, .then, .elif, .else, .for, .to, .step, .while, .fun, .close,
    .return, .continue, .break]

def spelling : Keyword → String
  | .var => "VAR"
  | .and => "AND"
  | .or => "OR"
  | .not => "NOT"
  | .if => "IF"
  | .then => "THEN"
  | .elif => "ELIF"
  | .else => "ELSE"
  | .for => "FOR"
  | .to => "TO"
  | .step => "STEP"
  | .while => "WHILE"
  | .fun => "FUN"
  | .close => "END"
  | .return => "RETURN"
  | .continue => "CONTINUE"
  | .break => "BREAK"

def label : Keyword → String
  | .var => "Var"
  | .and => "And"
  | .or => "Or"
  | .not => "Not"
  | .if => "If"
  | .then => "Then"
  | .elif => "Elif"
  | .else => "Else"
  | .for => "For"
  | .to => "To"
  | .step => "Step"
  | .while => "While"
  | .fun => "Fun"
  | .close => "End"
  | .return => "Return"
  | .continue => "Continue"
  | .break => "Break"

/-- The reserved word with this spelling. -/
def ofSpelling? (s : String) : Option Keyword := all.find? fun k => k.spelling = s

theorem ofSpelling?_spelling (k : Keyword) : ofSpelling? k.spelling = some k := by
  cases k <;> decide

end Keyword

/-- Operators, brackets and separators. `separator` stands between statements, `stop` after
everything. -/
inductive Mark where
  | plus | minus | times | slash | bar | percent | caret
  | equal | equalEqual | notEqual | less | greater | lessEqual | greaterEqual | arrow
  | leftParen | rightParen | leftSquare | rightSquare | comma | separator | stop
  deriving DecidableEq

namespace Mark

def display : Mark → String
  | .plus => "+"
  | .minus => "-"
  | .times => "*"
  | .slash => "/"
  | .bar => "|"
  | .percent => "%"
  | .caret => "^"
  | .equal => "="
  | .equalEqual => "=="
  | .notEqual => "!="
  | .less => "<"
  | .greater => ">"
  | .lessEqual => "<="
  | .greaterEqual => ">="
  | .arrow => "->"
  | .leftParen => "("
  | .rightParen => ")"
  | .leftSquare => "["
  | .rightSquare => "]"
  | .comma => ","
  | .separator => "newline"
  | .stop => "end of input"

def label : Mark → String
  | .plus => "Plus"
  | .minus => "Minus"
  | .times => "Mul"
  | .slash => "Div"
  | .bar => "IntDiv"
  | .percent => "Mod"
  | .caret => "Pow"
  | .equal => "Eq"
  | .equalEqual => "EqEq"
  | .notEqual => "NotEq"
  | .less => "Lt"
  | .greater => "Gt"
  | .lessEqual => "LtEq"
  | .greaterEqual => "GtEq"
  | .arrow => "Arrow"
  | .leftParen => "LParen"
  | .rightParen => "RParen"
  | .leftSquare => "LSquare"
  | .rightSquare => "RSquare"
  | .comma => "Comma"
  | .separator => "Newline"
  | .stop => "Eof"

end Mark

namespace Token

inductive Kind where
  | int (n : Int64)
  | float (x : Float)
  | text (s : String)
  | identifier (name : String)
  | keyword (word : Keyword)
  | mark (m : Mark)

namespace Kind

def isKeyword (word : Keyword) : Kind → Bool
  | .keyword w => w = word
  | _ => false

def isMark (m : Mark) : Kind → Bool
  | .mark n => n = m
  | _ => false

def display : Kind → String
  | .int n => toString n.toInt
  | .float x => Decimal.render x
  | .text s => Text.quoted s
  | .identifier name => name
  | .keyword word => word.spelling
  | .mark m => m.display

def label : Kind → String
  | .int n => "Int(" ++ toString n.toInt ++ ")"
  | .float x => "Float(" ++ Decimal.render x ++ ")"
  | .text s => "Str(" ++ Text.quoted s ++ ")"
  | .identifier name => "Identifier(" ++ Text.quoted name ++ ")"
  | .keyword word => "Keyword(" ++ word.label ++ ")"
  | .mark m => m.label

end Kind

end Token

structure Token where
  kind : Token.Kind
  span : Span

end Scriptlet
