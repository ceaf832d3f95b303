import Scriptlet.Proofs.Compact.Shape

/-!
# Reading the compact form back

A term is read by its first word and by where it stands, and what is read from
the term of a node is the shape of the node.
-/

set_option autoImplicit false

namespace Scriptlet

def UnaryOp.ofSymbol? (s : String) : Option UnaryOp :=
  [UnaryOp.neg, .pos, .not].find? fun op => op.symbol = s

def BinaryOp.ofSymbol? (s : String) : Option BinaryOp :=
  [BinaryOp.add, .sub, .mul, .div, .intDiv, .mod, .pow, .eq, .ne, .lt, .gt, .le, .ge, .and,
    .or].find? fun op => op.symbol = s

theorem UnaryOp.ofSymbol?_symbol (op : UnaryOp) : ofSymbol? op.symbol = some op := by
  cases op <;> decide

theorem BinaryOp.ofSymbol?_symbol (op : BinaryOp) : ofSymbol? op.symbol = some op := by
  cases op <;> decide

namespace Sexp

/-- The name that stands alone in a term. -/
def name : Sexp → String
  | .atom (.name s) => s
  | _ => ""

mutual

/-- The node that a term is written for; of no matter for other terms. -/
def node : Sexp → Node
  | .atom a => .mk a.expr default
  | .list .square items => .mk (.list (nodes items)) default
  | .list .round (.atom (.name head) :: items) => .mk (formed head items) default
  | .list .round _ => .mk .break default

def formed : String → List Sexp → Expr
  | "var", [x, value] => .assign x.name value.node true
  | "set", [x, value] => .assign x.name value.node false
  | "if", items => .ifElse (branches items) none
  | "for", [x, start, stop, body] => .forTo x.name start.node stop.node none body.node
  | "for", [x, start, stop, .list .round [_, step], body] =>
    .forTo x.name start.node stop.node (some step.node) body.node
  | "while", [test, body] => .whileDo test.node body.node
  | "fun", [x, .list .round params, body] =>
    .function (some x.name) (params.map fun p => ⟨p.name, default⟩) body.node
  | "call", callee :: args => .call callee.node (nodes args)
  | "index", [target, place] => .index target.node place.node
  | "return", [] => .return none
  | "return", [value] => .return (some value.node)
  | "continue", [] => .continue
  | "break", [] => .break
  | "block", items => .block (nodes items)
  | symbol, [operand] =>
    match UnaryOp.ofSymbol? symbol with
    | some op => .unary op operand.node
    | none => .break
  | symbol, [left, right] =>
    match BinaryOp.ofSymbol? symbol with
    | some op => .binary op left.node right.node
    | none => .break
  | _, _ => .break

def nodes : List Sexp → List Node
  | [] => []
  | s :: rest => s.node :: nodes rest

def branches : List Sexp → List (Node × Node)
  | .list .round [test, body] :: rest => (test.node, body.node) :: branches rest
  | _ => []

end

theorem formed_unary (op : UnaryOp) (s : Sexp) : formed op.symbol [s] = .unary op s.node := by
  have h := op.ofSymbol?_symbol
  cases op <;> simp_all [formed, UnaryOp.symbol]

theorem formed_binary (op : BinaryOp) (s t : Sexp) :
    formed op.symbol [s, t] = .binary op s.node t.node := by
  have h := op.ofSymbol?_symbol
  cases op <;> simp_all [formed, BinaryOp.symbol]

end Sexp

open Sexp (word form)

theorem Sexp.node_form (head : String) (items : List Sexp) :
    (form head items).node = .mk (formed head items) default := by
  rw [form, word, node]

theorem nodes_sexpAll {ns : List Node} (h : ∀ n ∈ ns, n.sexp.node = n.shape) :
    Sexp.nodes (sexpAll ns) = rebuildAll .narrow ns := by
  induction ns with
  | nil => rw [sexpAll, Sexp.nodes, rebuildAll]
  | cons n ns ih =>
    obtain ⟨hn, hns⟩ := List.forall_mem_cons.mp h
    rw [sexpAll, Sexp.nodes, hn, ih hns, rebuildAll, Node.shape]

theorem branches_append {bs : List (Node × Node)} {otherwise : Option Node}
    (hb : ∀ n ∈ bs.flatMap fun b => [b.1, b.2], n.sexp.node = n.shape)
    (ho : ∀ n ∈ otherwise.toList, n.sexp.node = n.shape) :
    Sexp.branches (sexpBranches bs ++ sexpOption "else" otherwise) =
      rebuildBranches .narrow bs ++ (rebuildOption .narrow otherwise).toList.map (elseTest, ·) := by
  induction bs with
  | nil =>
    cases otherwise with
    | none => simp [sexpBranches, sexpOption, Sexp.branches, rebuildBranches, rebuildOption]
    | some n =>
      have hn := ho n (List.mem_cons_self ..)
      simp [sexpBranches, sexpOption, Sexp.branches, rebuildBranches, rebuildOption,
        form, word, Sexp.node, hn, elseTest, Atom.expr, Node.shape]
  | cons b bs ih =>
    obtain ⟨test, body⟩ := b
    simp only [List.flatMap_cons, List.forall_mem_append, List.forall_mem_cons] at hb
    obtain ⟨⟨htest, hbody, -⟩, hbs⟩ := hb
    rw [sexpBranches, List.cons_append, Sexp.branches, htest, hbody, ih hbs, rebuildBranches,
      List.cons_append]
    rfl

theorem Node.shape_mk (e : Expr) (span : Span) :
    (Node.mk e span).shape = .mk (e.rebuild .narrow).narrow default := by
  rw [Node.shape, Node.rebuild]

/-- What is read from the term of a node is the shape of the node. -/
theorem Node.node_sexp : ∀ n : Node, n.sexp.node = n.shape := by
  apply Node.induction
  intro e span ih
  rw [Node.sexp, Node.shape_mk]
  cases e with
  | int | text =>
    rw [Expr.sexp, Sexp.node]
    rfl
  | float x =>
    rw [Expr.sexp, Sexp.node]
    rfl
  | var =>
    rw [Expr.sexp, word, Sexp.node]
    rfl
  | list items =>
    have hitems : Sexp.nodes (sexpAll items) = rebuildAll .narrow items := nodes_sexpAll ih
    rw [Expr.sexp, Sexp.node, hitems]
    rfl
  | assign name value declare =>
    have hvalue : value.sexp.node = value.shape := ih value (List.mem_cons_self ..)
    cases declare <;> simp [Expr.sexp, Sexp.node_form, Sexp.formed, hvalue] <;> rfl
  | binary op left right =>
    simp only [Expr.children, List.forall_mem_cons] at ih
    obtain ⟨hleft, hright, -⟩ := ih
    rw [Expr.sexp, Sexp.node_form, Sexp.formed_binary, hleft, hright]
    rfl
  | unary op operand =>
    have hoperand : operand.sexp.node = operand.shape := ih operand (List.mem_cons_self ..)
    rw [Expr.sexp, Sexp.node_form, Sexp.formed_unary, hoperand]
    rfl
  | whileDo test body =>
    simp only [Expr.children, List.forall_mem_cons] at ih
    obtain ⟨htest, hbody, -⟩ := ih
    rw [Expr.sexp, Sexp.node_form, Sexp.formed, htest, hbody]
    rfl
  | index target place =>
    simp only [Expr.children, List.forall_mem_cons] at ih
    obtain ⟨htarget, hplace, -⟩ := ih
    rw [Expr.sexp, Sexp.node_form, Sexp.formed, htarget, hplace]
    rfl
  | call callee args =>
    obtain ⟨hcallee, hargs⟩ := List.forall_mem_cons.mp ih
    rw [Expr.sexp, Sexp.node_form, Sexp.formed, hcallee, nodes_sexpAll hargs]
    rfl
  | block body =>
    have hbody : Sexp.nodes (sexpAll body) = rebuildAll .narrow body := nodes_sexpAll ih
    rw [Expr.sexp, Sexp.node_form, Sexp.formed, hbody]
    rfl
  | ifElse branches otherwise =>
    obtain ⟨hbranches, hotherwise⟩ := List.forall_mem_append.mp ih
    rw [Expr.sexp, Sexp.node_form, Sexp.formed, branches_append hbranches hotherwise]
    rfl
  | forTo var start stop step body =>
    simp only [Expr.children, List.forall_mem_append, List.forall_mem_cons] at ih
    obtain ⟨⟨⟨hstart, hstop, -⟩, hstep⟩, hbody, -⟩ := ih
    cases step with
    | none =>
      simp only [Expr.sexp, Sexp.node_form, sexpOption, List.cons_append, List.nil_append,
        Sexp.formed, hstart, hstop, hbody]
      rfl
    | some step =>
      have hstep : step.sexp.node = step.shape := hstep step (List.mem_cons_self ..)
      rw [Expr.sexp, Sexp.node_form]
      simp only [sexpOption, form, List.cons_append, List.nil_append, Sexp.formed, hstart, hstop,
        hstep, hbody]
      rfl
  | function name params body =>
    have hbody : body.sexp.node = body.shape := ih body (List.mem_cons_self ..)
    rw [Expr.sexp, Sexp.node_form, Sexp.formed, hbody, List.map_map]
    rfl
  | «return» value =>
    cases value with
    | none =>
      rw [Expr.sexp, Sexp.node_form, Sexp.formed]
      rfl
    | some value =>
      have hvalue : value.sexp.node = value.shape := ih value (List.mem_cons_self ..)
      rw [Expr.sexp, Sexp.node_form, Sexp.formed, hvalue]
      rfl
  | «continue» | «break» =>
    rw [Expr.sexp, Sexp.node_form, Sexp.formed]
    rfl

end Scriptlet
