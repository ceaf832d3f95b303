import Scriptlet.Program.Compact
import Scriptlet.Proofs.Grammar.Form
import Scriptlet.Proofs.Compact.Sexp

/-!
# What the compact form shows

The compact form is the text of a term in brackets, and the term can be read
back. What is read is the shape of the node: its bare form, but for three
things that are written like others. A function without a name is written
like one with the name `_`, an `ELSE` like an `ELIF` that asks for a variable
`else`, and a literal that is no finite number like a variable of that name.
-/

set_option autoImplicit false

namespace Scriptlet

/-! ## Induction -/

/-- A property that a node has if its children have it. -/
def Inherited (P : Node → Prop) : Prop := ∀ e span, (∀ n ∈ e.children, P n) → P (.mk e span)

section

variable {P : Node → Prop}

mutual

theorem Node.induction (h : Inherited P) : ∀ n, P n
  | .mk e span => h e span (e.induction h)

theorem Expr.induction (h : Inherited P) : ∀ (e : Expr), ∀ n ∈ e.children, P n
  | .list items | .block items => induction_all h items
  | .assign _ value _ => List.forall_mem_singleton.mpr (value.induction h)
  | .unary _ operand => List.forall_mem_singleton.mpr (operand.induction h)
  | .function _ _ body => List.forall_mem_singleton.mpr (body.induction h)
  | .binary _ left right =>
    List.forall_mem_cons.mpr ⟨left.induction h, List.forall_mem_singleton.mpr (right.induction h)⟩
  | .whileDo test body =>
    List.forall_mem_cons.mpr ⟨test.induction h, List.forall_mem_singleton.mpr (body.induction h)⟩
  | .index target place =>
    List.forall_mem_cons.mpr
      ⟨target.induction h, List.forall_mem_singleton.mpr (place.induction h)⟩
  | .call callee args => List.forall_mem_cons.mpr ⟨callee.induction h, induction_all h args⟩
  | .ifElse branches otherwise =>
    List.forall_mem_append.mpr ⟨induction_branches h branches, induction_option h otherwise⟩
  | .forTo _ start stop step body =>
    List.forall_mem_append.mpr ⟨List.forall_mem_append.mpr
      ⟨List.forall_mem_cons.mpr
        ⟨start.induction h, List.forall_mem_singleton.mpr (stop.induction h)⟩,
        induction_option h step⟩, List.forall_mem_singleton.mpr (body.induction h)⟩
  | .return value => induction_option h value
  | .int _ | .float _ | .text _ | .var _ | .continue | .break => nofun

theorem induction_all (h : Inherited P) : ∀ ns : List Node, ∀ n ∈ ns, P n
  | [] => nofun
  | n :: ns => List.forall_mem_cons.mpr ⟨n.induction h, induction_all h ns⟩

theorem induction_branches (h : Inherited P) :
    ∀ bs : List (Node × Node), ∀ n ∈ bs.flatMap fun b => [b.1, b.2], P n
  | [] => nofun
  | (test, body) :: bs => List.forall_mem_cons.mpr ⟨test.induction h,
      List.forall_mem_cons.mpr ⟨body.induction h, induction_branches h bs⟩⟩

theorem induction_option (h : Inherited P) : ∀ o : Option Node, ∀ n ∈ o.toList, P n
  | none => nofun
  | some n => List.forall_mem_singleton.mpr (n.induction h)

end

end

/-! ## Rebuilding -/

mutual

/-- The node with every expression in it replaced, the inner ones first, and every span by one and
the same. -/
def Node.rebuild (f : Expr → Expr) : Node → Node
  | .mk e _ => .mk (f (e.rebuild f)) default

def Expr.rebuild (f : Expr → Expr) : Expr → Expr
  | .int n => .int n
  | .float x => .float x
  | .text s => .text s
  | .list items => .list (rebuildAll f items)
  | .var name => .var name
  | .assign name value declare => .assign name (value.rebuild f) declare
  | .binary op left right => .binary op (left.rebuild f) (right.rebuild f)
  | .unary op operand => .unary op (operand.rebuild f)
  | .ifElse branches otherwise =>
    .ifElse (rebuildBranches f branches) (rebuildOption f otherwise)
  | .forTo var start stop step body =>
    .forTo var (start.rebuild f) (stop.rebuild f) (rebuildOption f step) (body.rebuild f)
  | .whileDo test body => .whileDo (test.rebuild f) (body.rebuild f)
  | .function name params body => .function name (params.map Param.bare) (body.rebuild f)
  | .call callee args => .call (callee.rebuild f) (rebuildAll f args)
  | .index target place => .index (target.rebuild f) (place.rebuild f)
  | .return value => .return (rebuildOption f value)
  | .continue => .continue
  | .break => .break
  | .block body => .block (rebuildAll f body)

def rebuildAll (f : Expr → Expr) : List Node → List Node
  | [] => []
  | n :: ns => n.rebuild f :: rebuildAll f ns

def rebuildBranches (f : Expr → Expr) : List (Node × Node) → List (Node × Node)
  | [] => []
  | (test, body) :: rest => (test.rebuild f, body.rebuild f) :: rebuildBranches f rest

def rebuildOption (f : Expr → Expr) : Option Node → Option Node
  | none => none
  | some n => some (n.rebuild f)

end

/-- The expression with every node in it directly replaced, and without the spans of parameters. -/
def Expr.mapNodes (φ : Node → Node) : Expr → Expr
  | .list items => .list (items.map φ)
  | .assign name value declare => .assign name (φ value) declare
  | .binary op left right => .binary op (φ left) (φ right)
  | .unary op operand => .unary op (φ operand)
  | .ifElse branches otherwise =>
    .ifElse (branches.map fun b => (φ b.1, φ b.2)) (otherwise.map φ)
  | .forTo x start stop step body => .forTo x (φ start) (φ stop) (step.map φ) (φ body)
  | .whileDo test body => .whileDo (φ test) (φ body)
  | .function name params body => .function name (params.map Param.bare) (φ body)
  | .call callee args => .call (φ callee) (args.map φ)
  | .index target place => .index (φ target) (φ place)
  | .return value => .return (value.map φ)
  | .block body => .block (body.map φ)
  | e => e

section

variable {f : Expr → Expr}

theorem rebuildAll_eq_map (ns : List Node) : rebuildAll f ns = ns.map (Node.rebuild f) := by
  induction ns with
  | nil => rfl
  | cons n ns ih => rw [rebuildAll, List.map_cons, ih]

theorem rebuildBranches_eq_map (bs : List (Node × Node)) :
    rebuildBranches f bs = bs.map fun b => (b.1.rebuild f, b.2.rebuild f) := by
  induction bs with
  | nil => rfl
  | cons b bs ih =>
    obtain ⟨test, body⟩ := b
    rw [rebuildBranches, List.map_cons, ih]

theorem rebuildBranches_append (bs cs : List (Node × Node)) :
    rebuildBranches f (bs ++ cs) = rebuildBranches f bs ++ rebuildBranches f cs := by
  simp [rebuildBranches_eq_map]

theorem rebuildOption_eq_map (o : Option Node) : rebuildOption f o = o.map (Node.rebuild f) := by
  cases o <;> rfl

theorem Expr.rebuild_eq_mapNodes (e : Expr) : e.rebuild f = e.mapNodes (Node.rebuild f) := by
  cases e <;>
    simp [Expr.rebuild, mapNodes, rebuildAll_eq_map, rebuildBranches_eq_map, rebuildOption_eq_map]

theorem Expr.bare_eq_mapNodes (e : Expr) : e.bare = e.mapNodes Node.bare := by
  cases e <;> simp [Expr.bare, mapNodes, bareAll_eq_map, bareBranches_eq_map, bareOption_eq_map]

end

theorem Expr.mapNodes_mapNodes {φ ψ χ : Node → Node} {e : Expr}
    (h : ∀ n ∈ e.children, ψ (φ n) = χ n) : (e.mapNodes φ).mapNodes ψ = e.mapNodes χ := by
  have hoption (o : Option Node) (ho : ∀ n ∈ o.toList, n ∈ e.children) :
      (o.map φ).map ψ = o.map χ := by
    rw [Option.map_map]
    exact Option.map_congr fun n hn => h n (ho n (Option.mem_toList.mpr hn))
  cases e with
  | ifElse branches otherwise =>
    have hotherwise := hoption otherwise fun n hn => List.mem_append_right _ hn
    have hbranches : (branches.map fun b => (φ b.1, φ b.2)).map (fun b => (ψ b.1, ψ b.2)) =
        branches.map fun b => (χ b.1, χ b.2) := by
      rw [List.map_map]
      refine List.map_congr_left fun b hb => ?_
      have hb (n : Node) (hn : n ∈ [b.1, b.2]) : ψ (φ n) = χ n :=
        h n (List.mem_append_left _ (List.mem_flatMap_of_mem hb hn))
      exact Prod.ext (hb b.1 (by simp)) (hb b.2 (by simp))
    rw [mapNodes, mapNodes, hbranches, hotherwise, mapNodes]
  | forTo x start stop step body =>
    have hstep := hoption step fun n hn => by simp [children, hn]
    simp_all [mapNodes, children]
  | «return» value =>
    have hvalue := hoption value fun n hn => hn
    simp_all [mapNodes, children]
  | _ => simp_all [mapNodes, children, Param.bare]

theorem Node.rebuild_bare (f : Expr → Expr) : ∀ n : Node, n.bare.rebuild f = n.rebuild f := by
  apply Node.induction
  intro e span ih
  rw [Node.bare_mk, Node.rebuild, Node.rebuild, Expr.bare_eq_mapNodes, Expr.rebuild_eq_mapNodes,
    Expr.mapNodes_mapNodes ih, Expr.rebuild_eq_mapNodes]

/-! ## Shapes -/

/-- How a floating-point literal is written: like a name where it is no finite number. -/
def Atom.ofFloat (x : Float) : Atom :=
  match Decimal.Binary.ofFloat x with
  | .finite .. => .float x
  | _ => .name (Decimal.render x)

/-- What a word stands for by itself. -/
def Atom.expr : Atom → Expr
  | .int n => .int n
  | .float x => .float x
  | .text s => .text s
  | .name s => .var s

/-- What an `ELSE` is written like. -/
def elseTest : Node := .mk (.var "else") default

/-- The expression that is written in the same way, of all those that are. -/
def Expr.narrow : Expr → Expr
  | .float x => (Atom.ofFloat x).expr
  | .ifElse branches otherwise => .ifElse (branches ++ otherwise.toList.map (elseTest, ·)) none
  | .function name params body => .function (some (name.getD "_")) params body
  | e => e

/-- What the compact form shows of a node. -/
def Node.shape : Node → Node := Node.rebuild Expr.narrow

/-! ## Terms -/

namespace Sexp

def word (s : String) : Sexp := .atom (.name s)

/-- A form of the notation, with its word first. -/
def form (head : String) (items : List Sexp) : Sexp := .list .round (word head :: items)

end Sexp

open Sexp (word form)

mutual

def Node.sexp : Node → Sexp
  | .mk e _ => e.sexp

def Expr.sexp : Expr → Sexp
  | .int n => .atom (.int n)
  | .float x => .atom (.ofFloat x)
  | .text s => .atom (.text s)
  | .list items => .list .square (sexpAll items)
  | .var name => word name
  | .assign name value declare => form (if declare then "var" else "set") [word name, value.sexp]
  | .binary op left right => form op.symbol [left.sexp, right.sexp]
  | .unary op operand => form op.symbol [operand.sexp]
  | .ifElse branches otherwise => form "if" (sexpBranches branches ++ sexpOption "else" otherwise)
  | .forTo var start stop step body =>
    form "for" ([word var, start.sexp, stop.sexp] ++ sexpOption "step" step ++ [body.sexp])
  | .whileDo test body => form "while" [test.sexp, body.sexp]
  | .function name params body =>
    form "fun" [word (name.getD "_"), .list .round (params.map fun p => word p.name), body.sexp]
  | .call callee args => form "call" (callee.sexp :: sexpAll args)
  | .index target place => form "index" [target.sexp, place.sexp]
  | .return none => form "return" []
  | .return (some value) => form "return" [value.sexp]
  | .continue => form "continue" []
  | .break => form "break" []
  | .block body => form "block" (sexpAll body)

def sexpAll : List Node → List Sexp
  | [] => []
  | n :: ns => n.sexp :: sexpAll ns

def sexpBranches : List (Node × Node) → List Sexp
  | [] => []
  | (test, body) :: rest => .list .round [test.sexp, body.sexp] :: sexpBranches rest

def sexpOption (head : String) : Option Node → List Sexp
  | none => []
  | some n => [form head [n.sexp]]

end

/-! ## The text of the term -/

/-- The text of a node is that of its term. -/
def Node.Spelled (n : Node) : Prop := n.compact.toList = n.sexp.spelling

@[simp] theorem Sexp.spelling_word (s : String) : (word s).spelling = s.toList := rfl

theorem spellings_append (xs ys : List Sexp) :
    spellings (xs ++ ys) = spellings xs ++ spellings ys := by
  simp [spellings_eq_map]

theorem bracketed_spelled {pieces : List String} {items : List Sexp}
    (h : pieces.map String.toList = spellings items) :
    ("(" ++ spaced pieces ++ ")").toList = (Sexp.list .round items).spelling := by
  simp only [spaced, String.toList_append, String.toList_intercalate, h]
  rfl

theorem form_spelled (head : String) {pieces : List String} {items : List Sexp}
    (h : pieces.map String.toList = spellings items) :
    ("(" ++ spaced (head :: pieces) ++ ")").toList = (form head items).spelling :=
  bracketed_spelled (by rw [List.map_cons, h, spellings, Sexp.spelling_word])

theorem compactAll_spelled {ns : List Node} (h : ∀ n ∈ ns, n.Spelled) :
    (compactAll ns).map String.toList = spellings (sexpAll ns) := by
  induction ns with
  | nil => rfl
  | cons n ns ih =>
    obtain ⟨hn, hns⟩ := List.forall_mem_cons.mp h
    rw [compactAll, List.map_cons, hn, ih hns, sexpAll, spellings]

theorem compactBranches_spelled {bs : List (Node × Node)}
    (h : ∀ n ∈ bs.flatMap fun b => [b.1, b.2], n.Spelled) :
    (compactBranches bs).map String.toList = spellings (sexpBranches bs) := by
  induction bs with
  | nil => rfl
  | cons b bs ih =>
    obtain ⟨test, body⟩ := b
    simp only [List.flatMap_cons, List.forall_mem_append] at h
    have hpair := compactAll_spelled h.1
    rw [compactBranches, List.map_cons, ih h.2, sexpBranches, spellings]
    exact congrArg (· :: _) (bracketed_spelled hpair)

theorem compactOption_spelled (head : String) {o : Option Node} (h : ∀ n ∈ o.toList, n.Spelled) :
    (compactOption head o).map String.toList = spellings (sexpOption head o) := by
  cases o with
  | none => rfl
  | some n => exact congrArg (· :: []) (form_spelled head (compactAll_spelled h))

theorem Node.spelled : ∀ n : Node, n.Spelled := by
  apply Node.induction
  intro e span ih
  unfold Node.Spelled Node.compact Node.sexp
  cases e with
  | int n => rfl
  | float x =>
    unfold Expr.compact Expr.sexp Atom.ofFloat
    split <;> rfl
  | text s =>
    unfold Expr.compact Expr.sexp
    rw [Text.quoted, String.toList_ofList]
    rfl
  | list items =>
    have hitems : (compactAll items).map String.toList = spellings (sexpAll items) :=
      compactAll_spelled ih
    unfold Expr.compact Expr.sexp
    simp only [spaced, String.toList_append, String.toList_intercalate, hitems]
    rfl
  | var name => rfl
  | assign name value declare =>
    have hpieces : [name, value.compact].map String.toList = spellings [word name, value.sexp] :=
      congrArg (name.toList :: ·) (compactAll_spelled ih)
    exact form_spelled _ hpieces
  | binary op left right => exact form_spelled _ (compactAll_spelled ih)
  | unary op operand => exact form_spelled _ (compactAll_spelled ih)
  | whileDo test body => exact form_spelled _ (compactAll_spelled ih)
  | index target place => exact form_spelled _ (compactAll_spelled ih)
  | call callee args => exact form_spelled _ (compactAll_spelled ih)
  | block body => exact form_spelled _ (compactAll_spelled ih)
  | ifElse branches otherwise =>
    obtain ⟨hbranches, hotherwise⟩ := List.forall_mem_append.mp ih
    have hpieces : (compactBranches branches ++ compactOption "else" otherwise).map String.toList =
        spellings (sexpBranches branches ++ sexpOption "else" otherwise) := by
      rw [List.map_append, compactBranches_spelled hbranches, compactOption_spelled _ hotherwise,
        spellings_append]
    exact form_spelled _ hpieces
  | forTo var start stop step body =>
    simp only [Expr.children, List.forall_mem_append] at ih
    obtain ⟨⟨hends, hstep⟩, hbody⟩ := ih
    have hpieces : ([var, start.compact, stop.compact] ++ compactOption "step" step ++
        [body.compact]).map String.toList = spellings
          ([word var, start.sexp, stop.sexp] ++ sexpOption "step" step ++ [body.sexp]) := by
      have hfirst : [var, start.compact, stop.compact].map String.toList =
          spellings [word var, start.sexp, stop.sexp] :=
        congrArg (var.toList :: ·) (compactAll_spelled hends)
      have hlast : [body.compact].map String.toList = spellings [body.sexp] :=
        compactAll_spelled hbody
      rw [List.map_append, List.map_append, hfirst, compactOption_spelled _ hstep, hlast,
        spellings_append, spellings_append]
    exact form_spelled _ hpieces
  | function name params body =>
    have hparams : ("(" ++ spaced (params.map Param.name) ++ ")").toList =
        (Sexp.list .round (params.map fun p => word p.name)).spelling :=
      bracketed_spelled (by simp [spellings_eq_map])
    have hbody : body.compact.toList = body.sexp.spelling := ih body (List.mem_cons_self ..)
    exact form_spelled _ (by simp only [List.map_cons, List.map_nil, hparams, hbody, spellings,
      Sexp.spelling_word])
  | «return» value =>
    cases value with
    | none => rfl
    | some value =>
      have hform : ("(" ++ spaced ["return", value.compact] ++ ")").toList =
          (form "return" [value.sexp]).spelling := form_spelled _ (compactAll_spelled ih)
      unfold Expr.compact Expr.sexp
      rw [← hform]
      simp [spaced]
  | «continue» => rfl
  | «break» => rfl

/-! ## The term of the shape -/

theorem sexpAll_shape {ns : List Node} (h : ∀ n ∈ ns, n.shape.sexp = n.sexp) :
    sexpAll (rebuildAll .narrow ns) = sexpAll ns := by
  induction ns with
  | nil => rfl
  | cons n ns ih =>
    obtain ⟨hn, hns⟩ := List.forall_mem_cons.mp h
    rw [rebuildAll, sexpAll, ← Node.shape, hn, ih hns, sexpAll]

theorem sexpBranches_shape {bs : List (Node × Node)}
    (h : ∀ n ∈ bs.flatMap fun b => [b.1, b.2], n.shape.sexp = n.sexp) :
    sexpBranches (rebuildBranches .narrow bs) = sexpBranches bs := by
  induction bs with
  | nil => rfl
  | cons b bs ih =>
    obtain ⟨test, body⟩ := b
    simp only [List.flatMap_cons, List.forall_mem_append] at h
    have hpair : [test.shape.sexp, body.shape.sexp] = [test.sexp, body.sexp] := sexpAll_shape h.1
    rw [rebuildBranches, sexpBranches, ← Node.shape, hpair, ih h.2, sexpBranches]

theorem sexpOption_shape (head : String) {o : Option Node}
    (h : ∀ n ∈ o.toList, n.shape.sexp = n.sexp) :
    sexpOption head (rebuildOption .narrow o) = sexpOption head o := by
  cases o with
  | none => rfl
  | some n => exact congrArg (fun s => [form head [s]]) (h n (List.mem_cons_self ..))

theorem sexpBranches_append (bs cs : List (Node × Node)) :
    sexpBranches (bs ++ cs) = sexpBranches bs ++ sexpBranches cs := by
  induction bs with
  | nil => rfl
  | cons b bs ih =>
    obtain ⟨test, body⟩ := b
    rw [List.cons_append, sexpBranches, sexpBranches, ih, List.cons_append]

theorem Atom.sexp_expr_ofFloat (x : Float) : (Atom.ofFloat x).expr.sexp = .atom (.ofFloat x) := by
  cases hx : Decimal.Binary.ofFloat x <;> simp [Atom.ofFloat, hx, Atom.expr, Expr.sexp, word]

/-- A node is written like its shape. -/
theorem Node.shape_sexp : ∀ n : Node, n.shape.sexp = n.sexp := by
  apply Node.induction
  intro e span ih
  unfold Node.shape Node.rebuild Node.sexp
  cases e with
  | float x => exact Atom.sexp_expr_ofFloat x
  | list items => exact congrArg (Sexp.list .square) (sexpAll_shape ih)
  | assign name value declare =>
    exact congrArg (fun ss => form _ (word name :: ss)) (sexpAll_shape ih)
  | binary op left right => exact congrArg (form _) (sexpAll_shape ih)
  | unary op operand => exact congrArg (form _) (sexpAll_shape ih)
  | whileDo test body => exact congrArg (form _) (sexpAll_shape ih)
  | index target place => exact congrArg (form _) (sexpAll_shape ih)
  | call callee args => exact congrArg (form _) (sexpAll_shape ih)
  | block body => exact congrArg (form _) (sexpAll_shape ih)
  | ifElse branches otherwise =>
    obtain ⟨hbranches, hotherwise⟩ := List.forall_mem_append.mp ih
    have hlast : sexpBranches ((rebuildOption .narrow otherwise).toList.map (elseTest, ·)) =
        sexpOption "else" otherwise := by
      rw [← sexpOption_shape "else" hotherwise]
      cases otherwise <;> rfl
    change form "if" (sexpBranches (rebuildBranches .narrow branches ++
      (rebuildOption .narrow otherwise).toList.map (elseTest, ·)) ++ sexpOption "else" none) = _
    rw [sexpBranches_append, sexpBranches_shape hbranches, hlast]
    exact congrArg (form _) (List.append_nil _)
  | forTo var start stop step body =>
    simp only [Expr.children, List.forall_mem_append] at ih
    obtain ⟨⟨hends, hstep⟩, hbody⟩ := ih
    have hfirst : [start.shape.sexp, stop.shape.sexp] = [start.sexp, stop.sexp] :=
      sexpAll_shape hends
    have hlast : [body.shape.sexp] = [body.sexp] := sexpAll_shape hbody
    change form "for" ([word var, start.shape.sexp, stop.shape.sexp] ++
      sexpOption "step" (rebuildOption .narrow step) ++ [body.shape.sexp]) = _
    rw [hfirst, hlast, sexpOption_shape _ hstep, Expr.sexp]
  | function name params body =>
    have hbody : body.shape.sexp = body.sexp := ih body (List.mem_cons_self ..)
    change form "fun" [word (name.getD "_"),
      .list .round ((params.map Param.bare).map fun p => word p.name), body.shape.sexp] = _
    rw [hbody, List.map_map]
    rfl
  | «return» value =>
    cases value with
    | none => rfl
    | some value => exact congrArg (form _) (sexpAll_shape ih)
  | _ => rfl

end Scriptlet
