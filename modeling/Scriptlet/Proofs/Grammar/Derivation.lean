import Scriptlet.Proofs.Grammar.Form
import Scriptlet.Proofs.Token.Lexing
import Scriptlet.Program.Grammar

/-!
# The grammar as a relation

`Reads phrase ts k` says that the tokens `ts` are read as the phrase when a
token of kind `k` comes next. There is one rule for each way through a
reader, and nothing in it of how many levels or turns a reader may take. The
kind of the next token matters where a reader goes on as long as it can.
-/

set_option autoImplicit false

namespace Scriptlet

open Token (Kind)

/-- The end of the last of some tokens, after a token that ended at `p`. -/
def endFrom (p : Position) (ts : List Token) : Position := ts.foldl (fun _ t => t.span.stop) p

@[simp] theorem endFrom_nil (p : Position) : endFrom p [] = p := rfl

@[simp] theorem endFrom_cons (p : Position) (t : Token) (ts : List Token) :
    endFrom p (t :: ts) = endFrom t.span.stop ts := rfl

@[simp] theorem endFrom_append (p : Position) (ts us : List Token) :
    endFrom p (ts ++ us) = endFrom (endFrom p ts) us := by
  simp [endFrom]

/-- The kind of what comes next where `ts` are before a token of kind `k`. -/
def following (ts : List Token) (k : Kind) : Kind := (ts.head?.map Token.kind).getD k

namespace Grammar

/-- The productions for a node, from the tightest to the loosest. -/
inductive Level where
  | atom | application | power | factor | product | sum | comparison | expression | statement

/-- The productions that join operands, with operators of one level between them. -/
inductive Chain where
  | product | sum | comparison | logic

namespace Chain

def op? : Chain → Kind → Option BinaryOp
  | .product => productOp?
  | .sum => sumOp?
  | .comparison => comparisonOp?
  | .logic => logicOp?

def operand : Chain → Level
  | .product => .factor
  | .sum => .product
  | .comparison => .sum
  | .logic => .comparison

def level : Chain → Level
  | .product => .product
  | .sum => .sum
  | .comparison => .comparison
  | .logic => .expression

end Chain

inductive Phrase where
  | node (level : Level) (n : Node)
  /-- Operands so far, joined. -/
  | operands (chain : Chain) (n : Node)
  /-- An atom with the argument lists and indexes after it so far, from `start` on. -/
  | applied (start : Position) (n : Node)
  /-- What stands between brackets. -/
  | items (ns : List Node)
  /-- Further items, each after a comma. -/
  | further (ns : List Node)
  | lines (close : List Keyword) (ns : List Node)
  /-- A body on lines of its own, after a token that ended at `opened`. -/
  | block (close : List Keyword) (opened : Position) (n : Node)
  | body (opened : Position) (n : Node)
  | routine (opened : Position) (n : Node)
  | step (s : Option Node)
  /-- A condition and what is done under it. -/
  | arm (lined : Bool) (test inner : Node)
  | branches (bs : List (Node × Node)) (otherwise : Option Node)

def literal? : Kind → Option Expr
  | .int n => some (.int n)
  | .float x => some (.float x)
  | .text s => some (.text s)
  | .identifier name => some (.var name)
  | _ => none

/-- Whether an identifier and an equals sign come first. -/
def assigns : List Kind → Bool
  | .identifier _ :: k :: _ => k.isMark .equal
  | _ => false

/-- Whether a block ends before a token of this kind. -/
def closes (close : List Keyword) (k : Kind) : Bool := close.any fun w => k.isKeyword w

def Separators (ts : List Token) : Prop := ts ≠ [] ∧ ∀ t ∈ ts, t.kind = .mark .separator

/-- The name of a function, which may be left out. -/
inductive Named : Option String → List Token → Prop where
  | none : Named none []
  | some {t : Token} {name : String} (ht : t.kind = .identifier name) : Named (some name) [t]

/-- Parameters with commas between them. -/
inductive FurtherParams : List Param → List Token → Prop where
  | nil : FurtherParams [] []
  | cons {c t : Token} {name : String} {ps : List Param} {ts : List Token}
      (hc : c.kind = .mark .comma) (ht : t.kind = .identifier name) (h : FurtherParams ps ts) :
      FurtherParams (⟨name, t.span⟩ :: ps) (c :: t :: ts)

inductive Params : List Param → List Token → Prop where
  | nil : Params [] []
  | cons {t : Token} {name : String} {ps : List Param} {ts : List Token}
      (ht : t.kind = .identifier name) (h : FurtherParams ps ts) :
      Params (⟨name, t.span⟩ :: ps) (t :: ts)

inductive Reads : Phrase → List Token → Kind → Prop where
  -- Atoms.
  | literal {t : Token} {e : Expr} {k : Kind} (h : literal? t.kind = some e) :
      Reads (.node .atom (.mk e t.span)) [t] k
  | parens {o c : Token} {inner : Node} {ts : List Token} {k : Kind}
      (ho : o.kind = .mark .leftParen) (h : Reads (.node .expression inner) ts c.kind)
      (hc : c.kind = .mark .rightParen) :
      Reads (.node .atom (.mk inner.expr ⟨o.span.start, c.span.stop⟩)) (o :: (ts ++ [c])) k
  | list {o c : Token} {ns : List Node} {ts : List Token} {k : Kind}
      (ho : o.kind = .mark .leftSquare) (h : Reads (.items ns) ts c.kind)
      (hc : c.kind = .mark .rightSquare) :
      Reads (.node .atom (.mk (.list ns) ⟨o.span.start, c.span.stop⟩)) (o :: (ts ++ [c])) k
  | ifElse {w : Token} {bs : List (Node × Node)} {otherwise : Option Node} {ts : List Token}
      {k : Kind} (hw : w.kind = .keyword .if) (h : Reads (.branches bs otherwise) ts k) :
      Reads (.node .atom (.mk (.ifElse bs otherwise) ⟨w.span.start, endFrom w.span.stop ts⟩))
        (w :: ts) k
  | forTo {w v q u t : Token} {name : String} {first limit inner : Node} {step : Option Node}
      {ts₁ ts₂ ts₃ ts₄ : List Token} {k : Kind} (hw : w.kind = .keyword .for)
      (hv : v.kind = .identifier name) (hq : q.kind = .mark .equal)
      (h₁ : Reads (.node .expression first) ts₁ u.kind) (hu : u.kind = .keyword .to)
      (h₂ : Reads (.node .expression limit) ts₂ (following ts₃ t.kind))
      (h₃ : Reads (.step step) ts₃ t.kind) (ht : t.kind = .keyword .then)
      (h₄ : Reads (.body t.span.stop inner) ts₄ k) :
      Reads (.node .atom (.mk (.forTo name first limit step inner)
          ⟨w.span.start, endFrom t.span.stop ts₄⟩))
        (w :: v :: q :: (ts₁ ++ u :: (ts₂ ++ (ts₃ ++ t :: ts₄)))) k
  | whileDo {w t : Token} {test inner : Node} {ts us : List Token} {k : Kind}
      (hw : w.kind = .keyword .while) (h₁ : Reads (.node .expression test) ts t.kind)
      (ht : t.kind = .keyword .then) (h₂ : Reads (.body t.span.stop inner) us k) :
      Reads (.node .atom (.mk (.whileDo test inner) ⟨w.span.start, endFrom t.span.stop us⟩))
        (w :: (ts ++ t :: us)) k
  | function {w o c : Token} {name : Option String} {params : List Param} {inner : Node}
      {names ts us : List Token} {k : Kind} (hw : w.kind = .keyword .fun) (hn : Named name names)
      (ho : o.kind = .mark .leftParen) (hp : Params params ts) (hc : c.kind = .mark .rightParen)
      (h : Reads (.routine c.span.stop inner) us k) :
      Reads (.node .atom (.mk (.function name params inner)
          ⟨w.span.start, endFrom c.span.stop us⟩))
        (w :: (names ++ o :: (ts ++ c :: us))) k
  | noStep {k : Kind} (hk : k ≠ .keyword .step) : Reads (.step none) [] k
  | step {w : Token} {s : Node} {ts : List Token} {k : Kind} (hw : w.kind = .keyword .step)
      (h : Reads (.node .expression s) ts k) : Reads (.step (some s)) (w :: ts) k
  | arrow {a : Token} {opened : Position} {n : Node} {ts : List Token} {k : Kind}
      (ha : a.kind = .mark .arrow) (h : Reads (.node .expression n) ts k) :
      Reads (.routine opened n) (a :: ts) k
  | routine {e : Token} {opened : Position} {n : Node} {ts : List Token} {k : Kind}
      (h : Reads (.block [.close] opened n) ts e.kind) (he : e.kind = .keyword .close) :
      Reads (.routine opened n) (ts ++ [e]) k
  -- Argument lists and indexes.
  | target {start : Position} {n : Node} {ts : List Token} {k : Kind}
      (h : Reads (.node .atom n) ts k) : Reads (.applied start n) ts k
  | call {start : Position} {f : Node} {args : List Node} {o c : Token} {ts us : List Token}
      {k : Kind} (hf : Reads (.applied start f) ts o.kind) (ho : o.kind = .mark .leftParen)
      (ha : Reads (.items args) us c.kind) (hc : c.kind = .mark .rightParen) :
      Reads (.applied start (.mk (.call f args) ⟨start, c.span.stop⟩)) (ts ++ o :: (us ++ [c])) k
  | index {start : Position} {target place : Node} {o c : Token} {ts us : List Token} {k : Kind}
      (ht : Reads (.applied start target) ts o.kind) (ho : o.kind = .mark .leftSquare)
      (hp : Reads (.node .expression place) us c.kind) (hc : c.kind = .mark .rightSquare) :
      Reads (.applied start (.mk (.index target place) ⟨start, c.span.stop⟩))
        (ts ++ o :: (us ++ [c])) k
  | application {n : Node} {ts : List Token} {k : Kind}
      (h : Reads (.applied (covering ts).start n) ts k) (hp : k ≠ .mark .leftParen)
      (hs : k ≠ .mark .leftSquare) : Reads (.node .application n) ts k
  -- Operators.
  | base {n : Node} {ts : List Token} {k : Kind} (h : Reads (.node .application n) ts k)
      (hk : k ≠ .mark .caret) : Reads (.node .power n) ts k
  | power {o : Token} {b x : Node} {ts us : List Token} {k : Kind}
      (hb : Reads (.node .application b) ts o.kind) (ho : o.kind = .mark .caret)
      (hx : Reads (.node .factor x) us k) : Reads (.node .power (joined b .pow x)) (ts ++ o :: us) k
  | unsigned {n : Node} {ts : List Token} {k : Kind} (h : Reads (.node .power n) ts k) :
      Reads (.node .factor n) ts k
  | signed {s : Token} {op : UnaryOp} {x : Node} {ts : List Token} {k : Kind}
      (hs : signOp? s.kind = some op) (h : Reads (.node .factor x) ts k) :
      Reads (.node .factor (.mk (.unary op x) ⟨s.span.start, endFrom s.span.stop ts⟩)) (s :: ts) k
  | first {chain : Chain} {n : Node} {ts : List Token} {k : Kind}
      (h : Reads (.node chain.operand n) ts k) : Reads (.operands chain n) ts k
  | joined {chain : Chain} {op : BinaryOp} {l r : Node} {o : Token} {ts us : List Token} {k : Kind}
      (hl : Reads (.operands chain l) ts o.kind) (ho : chain.op? o.kind = some op)
      (hr : Reads (.node chain.operand r) us k) :
      Reads (.operands chain (joined l op r)) (ts ++ o :: us) k
  | chain {chain : Chain} {n : Node} {ts : List Token} {k : Kind}
      (h : Reads (.operands chain n) ts k) (hk : chain.op? k = none)
      (ha : chain = .logic → assigns (kinds ts ++ [k]) = false) :
      Reads (.node chain.level n) ts k
  | not {w : Token} {x : Node} {ts : List Token} {k : Kind} (hw : w.kind = .keyword .not)
      (h : Reads (.node .comparison x) ts k) :
      Reads (.node .comparison (.mk (.unary .not x) ⟨w.span.start, endFrom w.span.stop ts⟩))
        (w :: ts) k
  -- Assignments and statements.
  | declare {w v q : Token} {name : String} {x : Node} {ts : List Token} {k : Kind}
      (hw : w.kind = .keyword .var) (hv : v.kind = .identifier name) (hq : q.kind = .mark .equal)
      (h : Reads (.node .expression x) ts k) :
      Reads (.node .expression (.mk (.assign name x true)
          ⟨w.span.start, endFrom q.span.stop ts⟩))
        (w :: v :: q :: ts) k
  | rebind {v q : Token} {name : String} {x : Node} {ts : List Token} {k : Kind}
      (hv : v.kind = .identifier name) (hq : q.kind = .mark .equal)
      (h : Reads (.node .expression x) ts k) :
      Reads (.node .expression (.mk (.assign name x false)
          ⟨v.span.start, endFrom q.span.stop ts⟩))
        (v :: q :: ts) k
  | returnNothing {w : Token} {k : Kind} (hw : w.kind = .keyword .return)
      (hk : startsExpression k = false) :
      Reads (.node .statement (.mk (.return none) w.span)) [w] k
  | returnValue {w : Token} {x : Node} {ts : List Token} {k : Kind}
      (hw : w.kind = .keyword .return) (h : Reads (.node .expression x) ts k) :
      Reads (.node .statement (.mk (.return (some x))
          ⟨w.span.start, endFrom w.span.stop ts⟩))
        (w :: ts) k
  | continue {w : Token} {k : Kind} (hw : w.kind = .keyword .continue) :
      Reads (.node .statement (.mk .continue w.span)) [w] k
  | break {w : Token} {k : Kind} (hw : w.kind = .keyword .break) :
      Reads (.node .statement (.mk .break w.span)) [w] k
  | expression {n : Node} {ts : List Token} {k : Kind} (h : Reads (.node .expression n) ts k) :
      Reads (.node .statement n) ts k
  -- Items.
  | noItems {k : Kind} : Reads (.items []) [] k
  | items {x : Node} {ns : List Node} {ts us : List Token} {k : Kind}
      (h : Reads (.node .expression x) ts (following us k)) (hr : Reads (.further ns) us k) :
      Reads (.items (x :: ns)) (ts ++ us) k
  | noFurther {k : Kind} (hk : k ≠ .mark .comma) : Reads (.further []) [] k
  | further {c : Token} {x : Node} {ns : List Node} {ts us : List Token} {k : Kind}
      (hc : c.kind = .mark .comma) (h : Reads (.node .expression x) ts (following us k))
      (hr : Reads (.further ns) us k) : Reads (.further (x :: ns)) (c :: (ts ++ us)) k
  -- Bodies.
  | noLines {close : List Keyword} {k : Kind} (hk : k = .mark .stop ∨ closes close k) :
      Reads (.lines close []) [] k
  | lastLine {close : List Keyword} {n : Node} {ts : List Token} {k : Kind}
      (h : Reads (.node .statement n) ts k) (hk : k ≠ .mark .separator) :
      Reads (.lines close [n]) ts k
  | line {close : List Keyword} {n : Node} {ns : List Node} {ts seps us : List Token} {k : Kind}
      (h : Reads (.node .statement n) ts (.mark .separator)) (hs : Separators seps)
      (hr : Reads (.lines close ns) us k) :
      Reads (.lines close (n :: ns)) (ts ++ (seps ++ us)) k
  | block {close : List Keyword} {opened : Position} {ns : List Node} {seps ts : List Token}
      {k : Kind} (hs : Separators seps) (h : Reads (.lines close ns) ts k) (hk : closes close k) :
      Reads (.block close opened (.mk (.block ns) (spanOf (.emptyAt opened) ns))) (seps ++ ts) k
  | lined {e : Token} {opened : Position} {n : Node} {ts : List Token} {k : Kind}
      (h : Reads (.block [.close] opened n) ts e.kind) (he : e.kind = .keyword .close) :
      Reads (.body opened n) (ts ++ [e]) k
  | inline {opened : Position} {n : Node} {ts : List Token} {k : Kind}
      (h : Reads (.node .statement n) ts k) : Reads (.body opened n) ts k
  -- Branches.
  | armLined {t : Token} {test inner : Node} {ts us : List Token} {k : Kind}
      (h₁ : Reads (.node .expression test) ts t.kind) (ht : t.kind = .keyword .then)
      (h₂ : Reads (.block [.close, .elif, .else] t.span.stop inner) us k) :
      Reads (.arm true test inner) (ts ++ t :: us) k
  | armInline {t : Token} {test inner : Node} {ts us : List Token} {k : Kind}
      (h₁ : Reads (.node .expression test) ts t.kind) (ht : t.kind = .keyword .then)
      (h₂ : Reads (.node .statement inner) us k) : Reads (.arm false test inner) (ts ++ t :: us) k
  | closed {e : Token} {test inner : Node} {ts : List Token} {k : Kind}
      (h : Reads (.arm true test inner) ts e.kind) (he : e.kind = .keyword .close) :
      Reads (.branches [(test, inner)] none) (ts ++ [e]) k
  | only {test inner : Node} {ts : List Token} {k : Kind} (h : Reads (.arm false test inner) ts k)
      (hk : k ≠ .keyword .elif) (hk' : k ≠ .keyword .else) :
      Reads (.branches [(test, inner)] none) ts k
  | elif {lined : Bool} {e : Token} {test inner : Node} {bs : List (Node × Node)}
      {otherwise : Option Node} {ts us : List Token} {k : Kind}
      (h : Reads (.arm lined test inner) ts e.kind) (he : e.kind = .keyword .elif)
      (hr : Reads (.branches bs otherwise) us k) :
      Reads (.branches ((test, inner) :: bs) otherwise) (ts ++ e :: us) k
  | otherwise {lined : Bool} {e : Token} {test inner other : Node} {ts us : List Token} {k : Kind}
      (h : Reads (.arm lined test inner) ts e.kind) (he : e.kind = .keyword .else)
      (hr : Reads (.body e.span.stop other) us k) :
      Reads (.branches [(test, inner)] (some other)) (ts ++ e :: us) k

end Grammar

end Scriptlet
