import Scriptlet.Program.Node

/-!
# The form of a node

What a node is without its spans, and the nodes that it is made of.
-/

set_option autoImplicit false

namespace Scriptlet

def Param.bare (p : Param) : Param := ⟨p.name, default⟩

mutual

/-- The node with every span in it replaced by one and the same. -/
def Node.bare : Node → Node
  | .mk e _ => .mk e.bare default

def Expr.bare : Expr → Expr
  | .int n => .int n
  | .float x => .float x
  | .text s => .text s
  | .list items => .list (bareAll items)
  | .var name => .var name
  | .assign name value declare => .assign name value.bare declare
  | .binary op left right => .binary op left.bare right.bare
  | .unary op operand => .unary op operand.bare
  | .ifElse branches otherwise => .ifElse (bareBranches branches) (bareOption otherwise)
  | .forTo var start stop step body =>
    .forTo var start.bare stop.bare (bareOption step) body.bare
  | .whileDo test body => .whileDo test.bare body.bare
  | .function name params body => .function name (params.map Param.bare) body.bare
  | .call callee args => .call callee.bare (bareAll args)
  | .index target place => .index target.bare place.bare
  | .return value => .return (bareOption value)
  | .continue => .continue
  | .break => .break
  | .block body => .block (bareAll body)

def bareAll : List Node → List Node
  | [] => []
  | n :: ns => n.bare :: bareAll ns

def bareBranches : List (Node × Node) → List (Node × Node)
  | [] => []
  | (test, body) :: rest => (test.bare, body.bare) :: bareBranches rest

def bareOption : Option Node → Option Node
  | none => none
  | some n => some n.bare

end

/-- The nodes that an expression is made of directly, in their order. -/
def Expr.children : Expr → List Node
  | .list items => items
  | .assign _ value _ => [value]
  | .binary _ left right => [left, right]
  | .unary _ operand => [operand]
  | .ifElse branches otherwise =>
    (branches.flatMap fun b => [b.1, b.2]) ++ otherwise.toList
  | .forTo _ start stop step body => [start, stop] ++ step.toList ++ [body]
  | .whileDo test body => [test, body]
  | .function _ _ body => [body]
  | .call callee args => callee :: args
  | .index target place => [target, place]
  | .return value => value.toList
  | .block body => body
  | _ => []

namespace Node

/-- A node is part of another if it is that node or part of one of its children. -/
inductive PartOf : Node → Node → Prop where
  | self (n : Node) : PartOf n n
  | child {n m whole : Node} (hm : m ∈ whole.expr.children) (hn : PartOf n m) : PartOf n whole

/-- The statements of a block; any other node is a statement itself. -/
def statements : Node → List Node
  | .mk (.block body) _ => body
  | n => [n]

theorem statements_of_not_block {n : Node} (h : n.isBlock = false) : n.statements = [n] := by
  obtain ⟨e, span⟩ := n
  cases e <;> first | rfl | cases h

@[simp] theorem bare_mk (e : Expr) (span : Span) : (Node.mk e span).bare = .mk e.bare default := by
  simp only [Node.bare]

theorem bare_eq_iff {m n : Node} : m.bare = n.bare ↔ m.expr.bare = n.expr.bare := by
  cases m
  cases n
  simp [Node.bare, Node.expr]

end Node

theorem bareAll_eq_map (ns : List Node) : bareAll ns = ns.map Node.bare := by
  induction ns with
  | nil => rfl
  | cons n ns ih => simp only [bareAll, List.map_cons, ih]

theorem bareBranches_eq_map (bs : List (Node × Node)) :
    bareBranches bs = bs.map fun b => (b.1.bare, b.2.bare) := by
  induction bs with
  | nil => rfl
  | cons b bs ih =>
    obtain ⟨test, body⟩ := b
    simp only [bareBranches, List.map_cons, ih]

theorem bareOption_eq_map (o : Option Node) : bareOption o = o.map Node.bare := by
  cases o <;> rfl

end Scriptlet
