import Scriptlet.Program.Node
import Scriptlet.Document
import Scriptlet.Decimal.Style

/-!
# Program trees as documents

Every node becomes a record of what it is and where it stands. How a
floating-point literal is shown is left to the caller.
-/

set_option autoImplicit false

namespace Scriptlet

def Position.outline (p : Position) : Document :=
  .record [("index", .ofNat p.index), ("line", .ofNat p.line), ("column", .ofNat p.column)]

def Span.outline (s : Span) : Document :=
  .record [("start", s.start.outline), ("end", s.stop.outline)]

def Param.outline (p : Param) : Document :=
  .record [("node", .text p.name), ("span", p.span.outline)]

/-- A document with one field, named for the kind of thing that it holds. -/
def Document.tagged (tag : String) (d : Document) : Document := .record [(tag, d)]

section

variable (float : Float → Document)

mutual

def Node.outline : Node → Document
  | .mk e span => .record [("node", e.outline), ("span", span.outline)]

def Expr.outline : Expr → Document
  | .int n => .tagged "IntLit" (.number (toString n.toInt))
  | .float x => .tagged "FloatLit" (float x)
  | .text s => .tagged "StringLit" (.text s)
  | .list items => .tagged "ListLit" (.list (outlineAll items))
  | .var name => .tagged "VarAccess" (.text name)
  | .assign name value declare =>
    .tagged "VarAssign"
      (.record [("name", .text name), ("value", value.outline), ("declare", .bool declare)])
  | .binary op left right =>
    .tagged "Binary"
      (.record [("left", left.outline), ("op", .text op.label), ("right", right.outline)])
  | .unary op operand =>
    .tagged "Unary" (.record [("op", .text op.label), ("expr", operand.outline)])
  | .ifElse branches otherwise =>
    .tagged "If"
      (.record [("branches", .list (outlineBranches branches)),
        ("else_branch", outlineOption otherwise)])
  | .forTo var start stop step body =>
    .tagged "For"
      (.record [("var", .text var), ("start", start.outline), ("end", stop.outline),
        ("step", outlineOption step), ("body", body.outline)])
  | .whileDo test body =>
    .tagged "While" (.record [("cond", test.outline), ("body", body.outline)])
  | .function name params body =>
    .tagged "FuncDef"
      (.record [("name", (name.map Document.text).getD .null),
        ("params", .list (params.map Param.outline)), ("body", body.outline)])
  | .call callee args =>
    .tagged "Call" (.record [("callee", callee.outline), ("args", .list (outlineAll args))])
  | .index target index =>
    .tagged "Index" (.record [("target", target.outline), ("index", index.outline)])
  | .return value => .tagged "Return" (outlineOption value)
  | .continue => .text "Continue"
  | .break => .text "Break"
  | .block body => .tagged "Block" (.list (outlineAll body))

def outlineAll : List Node → List Document
  | [] => []
  | n :: ns => n.outline :: outlineAll ns

def outlineBranches : List (Node × Node) → List Document
  | [] => []
  | (test, body) :: rest => .list [test.outline, body.outline] :: outlineBranches rest

def outlineOption : Option Node → Document
  | none => .null
  | some n => n.outline

end

def Program.outline (p : Program) : Document :=
  .record [("statements", .list (outlineAll float p.statements)), ("span", p.span.outline)]

end

/-- A floating-point number in a document; what is no finite number is left out. -/
def Document.ofFloat (x : Float) : Document :=
  match Decimal.Binary.ofFloat x with
  | .finite .. => .number (Decimal.Style.document.render x)
  | _ => .null

end Scriptlet
