import Scriptlet.Proofs.Grammar.Readers

/-!
# The readers cut into pieces

The longer readers are put together from a reader for each phrase in them, so
that what is true of a reader follows from what is true of its pieces.
-/

set_option autoImplicit false

namespace Scriptlet

open Token (Kind)

namespace Reader

variable {α β : Type}

theorem ite_bind (p : Prop) [Decidable p] (A B : Reader α) (f : α → Reader β) :
    (if p then A else B) >>= f = if p then A >>= f else B >>= f := by
  split <;> rfl

/-- Items with commas between them, before the closing mark. -/
def itemsBefore (close : Mark) (item : Reader α) : Reader (List α) := do
  if ← atMark close then return [] else
    let x ← item
    let xs ← itemsAfter item (← remaining)
    return x :: xs

theorem itemsUntil_eq (close : Mark) (item : Reader α) : itemsUntil close item = (do
    let items ← itemsBefore close item
    if ← atMark close then
      let _ ← pass
      return items
    else fail (.commaOr close)) := by
  simp only [itemsUntil, itemsBefore, bind_assoc, ite_bind, pure_bind]

end Reader

namespace Grammar

open Reader

def Goal.level : Goal → Level
  | .statement => .statement
  | .expression => .expression
  | .comparison => .comparison
  | .factor => .factor

/-- The reader for a production. -/
def Level.reader (sub : Goal → Reader Node) : Level → Reader Node
  | .atom => Grammar.atom sub
  | .application => Grammar.application sub
  | .power => Grammar.power sub
  | .factor => Grammar.factor sub
  | .product => Grammar.product sub
  | .sum => Grammar.sum sub
  | .comparison => Grammar.comparison sub
  | .expression => Grammar.expression sub
  | .statement => Grammar.statement sub

theorem atAssignment_bind {β : Type} {c : Cursor} (f : Bool → Reader β) :
    (atAssignment >>= f) c = f c.atAssignment c := rfl

theorem reader_succ (depth : Nat) (goal : Goal) :
    reader (depth + 1) goal = goal.level.reader (reader depth) := by
  cases goal <;> rfl

theorem expectMark_of_isMark {m : Mark} {c : Cursor} (hk : c.kind.isMark m = true) :
    expectMark m c = pass c := by
  show (if c.kind.isMark m = true then pass else fail (.mark m)) c = _
  rw [if_pos hk]

theorem identifier_bind {β : Type} {name : String} {c : Cursor} (hk : c.kind = .identifier name)
    (f : String × Span → Reader β) : (identifier >>= f) c = f (name, c.span) c.next := by
  rw [identifier, bind_assoc, kind_bind, hk]
  rfl

/-- After an identifier that an assignment begins with, the equals sign is there. -/
theorem expression_eq (sub : Goal → Reader Node) : expression sub = (do
    let start ← here
    if ← atKeyword .var then
      let _ ← pass
      let (name, _) ← identifier
      let _ ← expectMark .equal
      let value ← sub .expression
      node start (.assign name value true)
    else if ← atAssignment then
      let (name, _) ← identifier
      let _ ← expectMark .equal
      let value ← sub .expression
      node start (.assign name value false)
    else chain logicOp? (comparison sub)) := by
  funext c
  simp only [expression, here_bind, atKeyword_bind]
  split
  · rfl
  · rw [atAssignment_bind, atAssignment_bind]
    split
    · next hassign =>
      obtain ⟨rest, last, content⟩ := c
      match rest with
      | ⟨.identifier name, s⟩ :: t :: rest =>
        have hequal : (Cursor.next ⟨⟨.identifier name, s⟩ :: t :: rest, last, content⟩).kind.isMark
            .equal = true := hassign
        rw [identifier_bind rfl, identifier_bind rfl]
        show Except.bind _ _ = Except.bind _ _
        rw [expectMark_of_isMark hequal]
        rfl
    · rfl

variable (sub : Goal → Reader Node)

/-- The statements from the first on, up to one of the closing words. -/
def lines (close : List Keyword) : Reader (List Node) := do
  statementsUntil sub close ((← remaining) + 1)

theorem statements_eq (close : List Keyword) : statements sub close = (do
    let _ ← skipSeparators
    lines sub close) := rfl

theorem block_eq (close : List Keyword) : block sub close = (do
    let opened ← lastEnd
    let _ ← skipSeparators
    let body ← lines sub close
    if ← atAnyKeyword close then return .mk (.block body) (spanOf (.emptyAt opened) body)
    else fail (.keywords close)) := by
  simp only [block, statements_eq, bind_assoc]

def stepClause : Reader (Option Node) := do
  if ← atKeyword .step then
    let _ ← pass
    let s ← sub .expression
    return some s
  else return none

theorem forTo_eq : forTo sub = (do
    let word ← expectKeyword .for
    let (var, _) ← identifier
    let _ ← expectMark .equal
    let first ← sub .expression
    let _ ← expectKeyword .to
    let limit ← sub .expression
    let step ← stepClause sub
    let _ ← expectKeyword .then
    let inner ← body sub
    node word.start (.forTo var first limit step inner)) := by
  simp only [forTo, stepClause, bind_assoc, ite_bind, pure_bind]

def functionName : Reader (Option String) := do
  match ← kind with
  | .identifier name =>
    let _ ← pass
    return some name
  | .mark .leftParen => return none
  | _ => fail .identifierOrParen

/-- What a function does. -/
def routine : Reader Node := do
  let arrow ← atMark .arrow
  let lined ← atMark .separator
  if arrow then
    let _ ← pass
    sub .expression
  else if lined then
    let b ← block sub [.close]
    let _ ← pass
    return b
  else fail .functionBody

theorem function_eq : function sub = (do
    let word ← expectKeyword .fun
    let name ← functionName
    let _ ← expectMark .leftParen
    let params ← itemsUntil .rightParen param
    let inner ← routine sub
    node word.start (.function name params inner)) := by
  simp only [function, functionName, routine, bind_assoc, ite_bind, pure_bind]
  refine bind_congr fun _ => bind_congr fun k => ?_
  split <;> simp only [bind_assoc, pure_bind]

/-- What is done under a condition. -/
def armBody (lined : Bool) : Reader Node :=
  if lined then block sub [.close, .elif, .else] else sub .statement

/-- A condition with what is done under it, and whether that stands on lines of its own. -/
def arm : Reader (Bool × Node × Node) := do
  let test ← sub .expression
  let _ ← expectKeyword .then
  let lined ← atMark .separator
  let inner ← armBody sub lined
  return (lined, test, inner)

theorem branches_succ (bound : Nat) : branches sub (bound + 1) = (do
    let (lined, test, inner) ← arm sub
    if lined && (← atKeyword .close) then
      let _ ← pass
      return ([(test, inner)], none)
    else if ← atKeyword .elif then
      let _ ← pass
      let (more, otherwise) ← branches sub bound
      return ((test, inner) :: more, otherwise)
    else if ← atKeyword .else then
      let _ ← pass
      let otherwise ← body sub
      return ([(test, inner)], some otherwise)
    else return ([(test, inner)], none)) := by
  simp only [branches, arm, armBody, bind_assoc, ite_bind, pure_bind]

end Grammar

end Scriptlet
