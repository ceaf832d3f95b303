import Scriptlet.Proofs.Grammar.Derivation

/-!
# The written grammar of operators

The productions as they are written down, with no regard to what comes next:

    program    : NEWLINE* statement (NEWLINE+ statement)* NEWLINE* EOF
    statement  : RETURN expr? | CONTINUE | BREAK | expr
    expr       : VAR IDENT '=' expr | IDENT '=' expr | comp ((AND|OR) comp)*
    comp       : NOT comp | arith (('=='|'!='|'<'|'>'|'<='|'>=') arith)*
    arith      : term (('+'|'-') term)*
    term       : factor (('*'|'/'|'|'|'%') factor)*
    factor     : ('+'|'-') factor | power
    power      : call ('^' factor)?
    call       : atom ( '(' (expr (',' expr)*)? ')' | '[' expr ']' )*
    atom       : INT | FLOAT | STRING | IDENT | '(' expr ')' | list

Each rule says which tree its derivation stands for. The atoms that begin with
`IF`, `FOR`, `WHILE` or `FUN` are left out.
-/

set_option autoImplicit false

namespace Scriptlet

open Token (Kind)

namespace Grammar

/-- A node of a tree that has no places. -/
def unplaced (e : Expr) : Node := .mk e default

/-- The operators of a production. -/
inductive Joins : Chain → Kind → BinaryOp → Prop where
  | mul : Joins .product (.mark .times) .mul
  | div : Joins .product (.mark .slash) .div
  | intDiv : Joins .product (.mark .bar) .intDiv
  | mod : Joins .product (.mark .percent) .mod
  | add : Joins .sum (.mark .plus) .add
  | sub : Joins .sum (.mark .minus) .sub
  | eq : Joins .comparison (.mark .equalEqual) .eq
  | ne : Joins .comparison (.mark .notEqual) .ne
  | lt : Joins .comparison (.mark .less) .lt
  | gt : Joins .comparison (.mark .greater) .gt
  | le : Joins .comparison (.mark .lessEqual) .le
  | ge : Joins .comparison (.mark .greaterEqual) .ge
  | and : Joins .logic (.keyword .and) .and
  | or : Joins .logic (.keyword .or) .or

inductive Signs : Kind → UnaryOp → Prop where
  | pos : Signs (.mark .plus) .pos
  | neg : Signs (.mark .minus) .neg

/-- The first operand joined to the others from the left on. -/
def fromLeft (first : Node) (rest : List (BinaryOp × Node)) : Node :=
  rest.foldl (fun left r => unplaced (.binary r.1 left r.2)) first

/-- An argument list or an index after what it applies to. -/
inductive Trailer where
  | args (ns : List Node)
  | place (n : Node)

def Trailer.on (target : Node) : Trailer → Node
  | .args ns => unplaced (.call target ns)
  | .place n => unplaced (.index target n)

/-- The tree of an atom and what comes after it, from the left on. -/
def applyAll (target : Node) (trailers : List Trailer) : Node := trailers.foldl Trailer.on target

theorem fromLeft_concat (first : Node) (rest : List (BinaryOp × Node)) (r : BinaryOp × Node) :
    fromLeft first (rest ++ [r]) = unplaced (.binary r.1 (fromLeft first rest) r.2) := by
  simp [fromLeft]

theorem applyAll_concat (target : Node) (trailers : List Trailer) (t : Trailer) :
    applyAll target (trailers ++ [t]) = t.on (applyAll target trailers) := by
  simp [applyAll]

/-- What is derived, with its tree. -/
inductive Symbol where
  | node (level : Level) (n : Node)
  /-- `(op operand)*` -/
  | rest (chain : Chain) (operands : List (BinaryOp × Node))
  /-- `('(' (expr (',' expr)*)? ')' | '[' expr ']')*` -/
  | trailers (ts : List Trailer)
  /-- `(expr (',' expr)*)?` -/
  | items (ns : List Node)
  /-- `(',' expr)*` -/
  | further (ns : List Node)
  /-- `statement (NEWLINE+ statement)*` -/
  | rows (ns : List Node)
  | program (ns : List Node)

inductive Derives : Symbol → List Kind → Prop where
  | int (n : Int64) : Derives (.node .atom (unplaced (.int n))) [.int n]
  | float (x : Float) : Derives (.node .atom (unplaced (.float x))) [.float x]
  | text (s : String) : Derives (.node .atom (unplaced (.text s))) [.text s]
  | identifier (name : String) :
      Derives (.node .atom (unplaced (.var name))) [.identifier name]
  | parens {n : Node} {ks : List Kind} (h : Derives (.node .expression n) ks) :
      Derives (.node .atom n) (.mark .leftParen :: (ks ++ [.mark .rightParen]))
  | list {ns : List Node} {ks : List Kind} (h : Derives (.items ns) ks) :
      Derives (.node .atom (unplaced (.list ns)))
        (.mark .leftSquare :: (ks ++ [.mark .rightSquare]))
  | noItems : Derives (.items []) []
  | items {n : Node} {ns : List Node} {ks ls : List Kind} (h : Derives (.node .expression n) ks)
      (hr : Derives (.further ns) ls) : Derives (.items (n :: ns)) (ks ++ ls)
  | noFurther : Derives (.further []) []
  | further {n : Node} {ns : List Node} {ks ls : List Kind} (h : Derives (.node .expression n) ks)
      (hr : Derives (.further ns) ls) :
      Derives (.further (n :: ns)) (.mark .comma :: (ks ++ ls))
  | application {n : Node} {ts : List Trailer} {ks ls : List Kind} (h : Derives (.node .atom n) ks)
      (ht : Derives (.trailers ts) ls) : Derives (.node .application (applyAll n ts)) (ks ++ ls)
  | noTrailers : Derives (.trailers []) []
  | call {ns : List Node} {ts : List Trailer} {ks ls : List Kind} (h : Derives (.items ns) ks)
      (ht : Derives (.trailers ts) ls) :
      Derives (.trailers (.args ns :: ts))
        (.mark .leftParen :: (ks ++ .mark .rightParen :: ls))
  | index {n : Node} {ts : List Trailer} {ks ls : List Kind} (h : Derives (.node .expression n) ks)
      (ht : Derives (.trailers ts) ls) :
      Derives (.trailers (.place n :: ts))
        (.mark .leftSquare :: (ks ++ .mark .rightSquare :: ls))
  | base {n : Node} {ks : List Kind} (h : Derives (.node .application n) ks) :
      Derives (.node .power n) ks
  | power {b x : Node} {ks ls : List Kind} (hb : Derives (.node .application b) ks)
      (hx : Derives (.node .factor x) ls) :
      Derives (.node .power (unplaced (.binary .pow b x))) (ks ++ .mark .caret :: ls)
  | unsigned {n : Node} {ks : List Kind} (h : Derives (.node .power n) ks) :
      Derives (.node .factor n) ks
  | signed {k : Kind} {op : UnaryOp} {x : Node} {ks : List Kind} (hs : Signs k op)
      (h : Derives (.node .factor x) ks) :
      Derives (.node .factor (unplaced (.unary op x))) (k :: ks)
  | chain {chain : Chain} {n : Node} {rest : List (BinaryOp × Node)} {ks ls : List Kind}
      (h : Derives (.node chain.operand n) ks) (hr : Derives (.rest chain rest) ls) :
      Derives (.node chain.level (fromLeft n rest)) (ks ++ ls)
  | noRest {chain : Chain} : Derives (.rest chain []) []
  | rest {chain : Chain} {k : Kind} {op : BinaryOp} {n : Node} {rest : List (BinaryOp × Node)}
      {ks ls : List Kind} (hj : Joins chain k op) (h : Derives (.node chain.operand n) ks)
      (hr : Derives (.rest chain rest) ls) :
      Derives (.rest chain ((op, n) :: rest)) (k :: (ks ++ ls))
  | not {x : Node} {ks : List Kind} (h : Derives (.node .comparison x) ks) :
      Derives (.node .comparison (unplaced (.unary .not x))) (.keyword .not :: ks)
  | declare {name : String} {x : Node} {ks : List Kind} (h : Derives (.node .expression x) ks) :
      Derives (.node .expression (unplaced (.assign name x true)))
        (.keyword .var :: .identifier name :: .mark .equal :: ks)
  | rebind {name : String} {x : Node} {ks : List Kind} (h : Derives (.node .expression x) ks) :
      Derives (.node .expression (unplaced (.assign name x false)))
        (.identifier name :: .mark .equal :: ks)
  | returnNothing : Derives (.node .statement (unplaced (.return none))) [.keyword .return]
  | returnValue {x : Node} {ks : List Kind} (h : Derives (.node .expression x) ks) :
      Derives (.node .statement (unplaced (.return (some x)))) (.keyword .return :: ks)
  | continue : Derives (.node .statement (unplaced .continue)) [.keyword .continue]
  | break : Derives (.node .statement (unplaced .break)) [.keyword .break]
  | expression {n : Node} {ks : List Kind} (h : Derives (.node .expression n) ks) :
      Derives (.node .statement n) ks
  | row {n : Node} {ks : List Kind} (h : Derives (.node .statement n) ks) :
      Derives (.rows [n]) ks
  | rows {n : Node} {ns : List Node} {ks seps ls : List Kind}
      (h : Derives (.node .statement n) ks) (hne : seps ≠ [])
      (hs : ∀ k ∈ seps, k = .mark .separator) (hr : Derives (.rows ns) ls) :
      Derives (.rows (n :: ns)) (ks ++ (seps ++ ls))
  | program {ns : List Node} {seps ks seps' : List Kind} (hs : ∀ k ∈ seps, k = .mark .separator)
      (h : Derives (.rows ns) ks) (hs' : ∀ k ∈ seps', k = .mark .separator) :
      Derives (.program ns) (seps ++ (ks ++ seps'))

theorem joins_iff {chain : Chain} {k : Kind} {op : BinaryOp} :
    Joins chain k op ↔ chain.op? k = some op := by
  constructor
  · intro h
    cases h <;> rfl
  · intro h
    cases chain with
    | logic =>
      cases k with
      | keyword w => cases w <;> simp [Chain.op?, logicOp?] at h <;> subst h <;> constructor
      | _ => cases h
    | _ =>
      cases k with
      | mark m =>
        cases m <;> simp [Chain.op?, productOp?, sumOp?, comparisonOp?] at h <;> subst h <;>
          constructor
      | _ => cases h

theorem signs_iff {k : Kind} {op : UnaryOp} : Signs k op ↔ signOp? k = some op := by
  constructor
  · intro h
    cases h <;> rfl
  · intro h
    cases k with
    | mark m => cases m <;> simp [signOp?] at h <;> subst h <;> constructor
    | _ => cases h

/-- One operand more on the right. -/
theorem Derives.rest_concat {chain : Chain} {rest : List (BinaryOp × Node)} {k : Kind}
    {op : BinaryOp} {n : Node} {ks ls : List Kind} (hr : Derives (.rest chain rest) ls)
    (hj : Joins chain k op) (h : Derives (.node chain.operand n) ks) :
    Derives (.rest chain (rest ++ [(op, n)])) (ls ++ k :: ks) := by
  induction rest generalizing ls with
  | nil =>
    cases hr
    simpa using Derives.rest hj h .noRest
  | cons r rest ih =>
    cases hr with
    | rest hj' h' hr' => simpa using Derives.rest hj' h' (ih hr')

/-- One trailer more on the right. -/
theorem Derives.trailers_append {ts us : List Trailer} {ks ls : List Kind}
    (ht : Derives (.trailers ts) ks) (hu : Derives (.trailers us) ls) :
    Derives (.trailers (ts ++ us)) (ks ++ ls) := by
  induction ts generalizing ks with
  | nil =>
    cases ht
    exact hu
  | cons t ts ih =>
    cases ht with
    | call h ht' => simpa using Derives.call h (ih ht')
    | index h ht' => simpa using Derives.index h (ih ht')

end Grammar

end Scriptlet
