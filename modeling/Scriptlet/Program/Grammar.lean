import Scriptlet.Program.Cursor
import Scriptlet.Program.Node

/-!
# The grammar

One reader for each production, from the loosest operators to the tightest:
assignment, `AND` and `OR`, comparisons after any `NOT`, sums, products,
signs, powers, calls and indexes, atoms. Operators of one level associate to
the left; a power takes a signed factor on its right, so that it associates
to the right and binds tighter than a sign before it.

A production reads what it nests through `sub`, one reader for each of the
four goals that can nest, and only after it has passed a token. So as many
levels of nesting are enough as there are tokens.
-/

set_option autoImplicit false

namespace Scriptlet

open Token (Kind)

namespace Grammar

open Reader

inductive Goal where
  | statement | expression | comparison | factor

/-- The node that began at `start` and ended with the last token. -/
def node (start : Position) (e : Expr) : Reader Node := do
  return .mk e ⟨start, ← lastEnd⟩

def joined (left : Node) (op : BinaryOp) (right : Node) : Node :=
  .mk (.binary op left right) (left.span.merge right.span)

/-- Further operands, each after an operator, joined to what stands on their left. -/
def chainAfter (op? : Kind → Option BinaryOp) (operand : Reader Node) :
    (bound : Nat) → Node → Reader Node
  | 0, left => return left
  | bound + 1, left => do
    match op? (← kind) with
    | none => return left
    | some op =>
      let _ ← pass
      let right ← operand
      chainAfter op? operand bound (joined left op right)

def chain (op? : Kind → Option BinaryOp) (operand : Reader Node) : Reader Node := do
  let first ← operand
  chainAfter op? operand (← remaining) first

def logicOp? : Kind → Option BinaryOp
  | .keyword .and => some .and
  | .keyword .or => some .or
  | _ => none

def comparisonOp? : Kind → Option BinaryOp
  | .mark .equalEqual => some .eq
  | .mark .notEqual => some .ne
  | .mark .less => some .lt
  | .mark .greater => some .gt
  | .mark .lessEqual => some .le
  | .mark .greaterEqual => some .ge
  | _ => none

def sumOp? : Kind → Option BinaryOp
  | .mark .plus => some .add
  | .mark .minus => some .sub
  | _ => none

def productOp? : Kind → Option BinaryOp
  | .mark .times => some .mul
  | .mark .slash => some .div
  | .mark .bar => some .intDiv
  | .mark .percent => some .mod
  | _ => none

def signOp? : Kind → Option UnaryOp
  | .mark .plus => some .pos
  | .mark .minus => some .neg
  | _ => none

/-- Whether an expression can begin with a token of this kind. -/
def startsExpression : Kind → Bool
  | .int _ | .float _ | .text _ | .identifier _ => true
  | .mark m => m = .plus || m = .minus || m = .leftParen || m = .leftSquare
  | .keyword w =>
    w = .var || w = .not || w = .if || w = .for || w = .while || w = .fun

section

variable (sub : Goal → Reader Node)

/-- Statements with separators between them, up to one of the closing words. -/
def statementsUntil (close : List Keyword) : (bound : Nat) → Reader (List Node)
  | 0 => return []
  | bound + 1 => do
    if (← atMark .stop) || (← atAnyKeyword close) then return []
    else
      let first ← sub .statement
      if ← skipSeparators then
        let rest ← statementsUntil close bound
        return first :: rest
      else return [first]

def statements (close : List Keyword) : Reader (List Node) := do
  let _ ← skipSeparators
  statementsUntil sub close ((← remaining) + 1)

/-- The span from the first to the last node; the given one if there is none. -/
def spanOf (default : Span) : List Node → Span
  | [] => default
  | first :: rest => first.span.merge ((rest.getLast?.getD first).span)

/-- A body on lines of its own, up to one of the closing words, which is not passed. -/
def block (close : List Keyword) : Reader Node := do
  let opened ← lastEnd
  let body ← statements sub close
  if ← atAnyKeyword close then return .mk (.block body) (spanOf (.emptyAt opened) body)
  else fail (.keywords close)

/-- A body on lines of its own with `END` after it, or else one statement. -/
def body : Reader Node := do
  if ← atMark .separator then
    let b ← block sub [.close]
    let _ ← pass
    return b
  else sub .statement

/-- Branches from a condition on. A body on lines of its own ends with `END`, which also ends the
branches, or with the word that begins the next one. -/
def branches : (bound : Nat) → Reader (List (Node × Node) × Option Node)
  | 0 => fail .operand
  | bound + 1 => do
    let test ← sub .expression
    let _ ← expectKeyword .then
    let lined ← atMark .separator
    let inner ← if lined then block sub [.close, .elif, .else] else sub .statement
    if lined && (← atKeyword .close) then
      let _ ← pass
      return ([(test, inner)], none)
    else if ← atKeyword .elif then
      let _ ← pass
      let (more, otherwise) ← branches bound
      return ((test, inner) :: more, otherwise)
    else if ← atKeyword .else then
      let _ ← pass
      let otherwise ← body sub
      return ([(test, inner)], some otherwise)
    else return ([(test, inner)], none)

def ifElse : Reader Node := do
  let word ← expectKeyword .if
  let (bs, otherwise) ← branches sub (← remaining)
  node word.start (.ifElse bs otherwise)

def forTo : Reader Node := do
  let word ← expectKeyword .for
  let (var, _) ← identifier
  let _ ← expectMark .equal
  let first ← sub .expression
  let _ ← expectKeyword .to
  let limit ← sub .expression
  let step ← if ← atKeyword .step then do
      let _ ← pass
      let s ← sub .expression
      pure (some s)
    else pure none
  let _ ← expectKeyword .then
  let inner ← body sub
  node word.start (.forTo var first limit step inner)

def whileDo : Reader Node := do
  let word ← expectKeyword .while
  let test ← sub .expression
  let _ ← expectKeyword .then
  let inner ← body sub
  node word.start (.whileDo test inner)

def param : Reader Param := do
  let (name, span) ← identifier
  return ⟨name, span⟩

def function : Reader Node := do
  let word ← expectKeyword .fun
  let name ← match ← kind with
    | .identifier name => do
      let _ ← pass
      pure (some name)
    | .mark .leftParen => pure none
    | _ => fail .identifierOrParen
  let _ ← expectMark .leftParen
  let params ← itemsUntil .rightParen param
  let inner ← if ← atMark .arrow then do
      let _ ← pass
      sub .expression
    else if ← atMark .separator then do
      let b ← block sub [.close]
      let _ ← pass
      pure b
    else fail .functionBody
  node word.start (.function name params inner)

def list : Reader Node := do
  let opening ← expectMark .leftSquare
  let items ← itemsUntil .rightSquare (sub .expression)
  node opening.start (.list items)

/-- The parentheses belong to the span of what is between them. -/
def parenthesised : Reader Node := do
  let opening ← expectMark .leftParen
  let inner ← sub .expression
  let _ ← expectMark .rightParen
  node opening.start inner.expr

def literal (e : Expr) : Reader Node := do
  return .mk e (← pass)

def atom : Reader Node := do
  match ← kind with
  | .int n => literal (.int n)
  | .float x => literal (.float x)
  | .text s => literal (.text s)
  | .identifier name => literal (.var name)
  | .mark .leftParen => parenthesised sub
  | .mark .leftSquare => list sub
  | .keyword .if => ifElse sub
  | .keyword .for => forTo sub
  | .keyword .while => whileDo sub
  | .keyword .fun => function sub
  | _ => fail .operand

/-- Argument lists and indexes after what they apply to. -/
def trailersAfter (start : Position) : (bound : Nat) → Node → Reader Node
  | 0, target => return target
  | bound + 1, target => do
    if ← atMark .leftParen then
      let _ ← pass
      let args ← itemsUntil .rightParen (sub .expression)
      let applied ← node start (.call target args)
      trailersAfter start bound applied
    else if ← atMark .leftSquare then
      let _ ← pass
      let index ← sub .expression
      let _ ← expectMark .rightSquare
      let indexed ← node start (.index target index)
      trailersAfter start bound indexed
    else return target

def application : Reader Node := do
  let start ← here
  let target ← atom sub
  trailersAfter sub start (← remaining) target

def power : Reader Node := do
  let base ← application sub
  if ← atMark .caret then
    let _ ← pass
    let exponent ← sub .factor
    return joined base .pow exponent
  else return base

def factor : Reader Node := do
  match signOp? (← kind) with
  | some op =>
    let sign ← pass
    let operand ← sub .factor
    node sign.start (.unary op operand)
  | none => power sub

def product : Reader Node := chain productOp? (factor sub)

def sum : Reader Node := chain sumOp? (product sub)

def comparison : Reader Node := do
  if ← atKeyword .not then
    let word ← pass
    let operand ← sub .comparison
    node word.start (.unary .not operand)
  else chain comparisonOp? (sum sub)

def atAssignment : Reader Bool := fun c => .ok (c.atAssignment, c)

def expression : Reader Node := do
  let start ← here
  if ← atKeyword .var then
    let _ ← pass
    let (name, _) ← identifier
    let _ ← expectMark .equal
    let value ← sub .expression
    node start (.assign name value true)
  else if ← atAssignment then
    let (name, _) ← identifier
    let _ ← pass
    let value ← sub .expression
    node start (.assign name value false)
  else chain logicOp? (comparison sub)

def statement : Reader Node := do
  let start ← here
  if ← atKeyword .return then
    let _ ← pass
    if startsExpression (← kind) then
      let value ← sub .expression
      node start (.return (some value))
    else node start (.return none)
  else if ← atKeyword .continue then
    let _ ← pass
    node start .continue
  else if ← atKeyword .break then
    let _ ← pass
    node start .break
  else expression sub

def produce : Goal → Reader Node
  | .statement => statement sub
  | .expression => expression sub
  | .comparison => comparison sub
  | .factor => factor sub

end

/-- The reader for a goal, down to `depth` levels of nesting. -/
def reader : (depth : Nat) → Goal → Reader Node
  | 0, _ => fail .operand
  | depth + 1, goal => produce (reader depth) goal

def program : Reader Program := do
  let start ← here
  let body ← statements (reader ((← remaining) + 1)) []
  if ← atMark .stop then
    let stop : Span ← fun c => .ok (c.span, c)
    return ⟨body, ⟨start, stop.stop⟩⟩
  else fail .operatorOrEnd

/-- Tokens that are cut off before the end of their text end with their last token. -/
def closed (tokens : List Token) : List Token :=
  match tokens.getLast? with
  | none => [⟨.mark .stop, .emptyAt .origin⟩]
  | some last =>
    if last.kind.isMark .stop then tokens
    else tokens ++ [⟨.mark .stop, .emptyAt last.span.stop⟩]

end Grammar

/-- The program that a row of tokens stands for. -/
def Program.ofTokens (tokens : List Token) : Except Misfit Program :=
  match Grammar.program (.ofTokens (Grammar.closed tokens)) with
  | .ok (p, _) => .ok p
  | .error e => .error e

end Scriptlet
