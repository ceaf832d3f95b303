import Scriptlet.Proofs.Grammar.Form
import Scriptlet.Program.Grammar

/-!
# Moving what has a place

A map of positions that keeps their order moves tokens and nodes with their
spans. Spans that are put together from others move with these.
-/

set_option autoImplicit false

namespace Scriptlet

/-- A map of positions that keeps the order in which they stand in a text. -/
structure Move where
  on : Position → Position
  lt_iff : ∀ p q, (on p).index < (on q).index ↔ p.index < q.index

namespace Move

def none : Move := ⟨id, fun _ _ => Iff.rfl⟩

/-- Past a text of so many bytes and lines, to the beginning of a line. -/
def past (bytes lines : Nat) : Move :=
  ⟨fun p => ⟨p.index + bytes, p.line + lines, p.column⟩, fun p q => by simp⟩

end Move

/-- What is moved with the positions in it. -/
class Movable (α : Type) where
  moved : Move → α → α

export Movable (moved)

section

variable {α β : Type} [Movable α] [Movable β]

instance : Movable Position := ⟨Move.on⟩

instance : Movable Span := ⟨fun μ s => ⟨moved μ s.start, moved μ s.stop⟩⟩

instance : Movable Unit := ⟨fun _ u => u⟩

instance : Movable Bool := ⟨fun _ b => b⟩

instance : Movable String := ⟨fun _ s => s⟩

instance : Movable Token := ⟨fun μ t => ⟨t.kind, moved μ t.span⟩⟩

instance : Movable Param := ⟨fun μ p => ⟨p.name, moved μ p.span⟩⟩

instance : Movable (List α) := ⟨fun μ xs => xs.map (moved μ)⟩

instance : Movable (Option α) := ⟨fun μ x => x.map (moved μ)⟩

instance : Movable (α × β) := ⟨fun μ x => (moved μ x.1, moved μ x.2)⟩

theorem moved_bool (μ : Move) (b : Bool) : moved μ b = b := rfl

theorem moved_pair (μ : Move) (x : α) (y : β) : moved μ (x, y) = (moved μ x, moved μ y) := rfl

end

mutual

def Node.moved (μ : Move) : Node → Node
  | .mk e span => .mk (e.moved μ) (Movable.moved μ span)

def Expr.moved (μ : Move) : Expr → Expr
  | .int n => .int n
  | .float x => .float x
  | .text s => .text s
  | .list items => .list (movedAll μ items)
  | .var name => .var name
  | .assign name value declare => .assign name (value.moved μ) declare
  | .binary op left right => .binary op (left.moved μ) (right.moved μ)
  | .unary op operand => .unary op (operand.moved μ)
  | .ifElse branches otherwise => .ifElse (movedBranches μ branches) (movedOption μ otherwise)
  | .forTo var start stop step body =>
    .forTo var (start.moved μ) (stop.moved μ) (movedOption μ step) (body.moved μ)
  | .whileDo test body => .whileDo (test.moved μ) (body.moved μ)
  | .function name params body => .function name (Movable.moved μ params) (body.moved μ)
  | .call callee args => .call (callee.moved μ) (movedAll μ args)
  | .index target place => .index (target.moved μ) (place.moved μ)
  | .return value => .return (movedOption μ value)
  | .continue => .continue
  | .break => .break
  | .block body => .block (movedAll μ body)

def movedAll (μ : Move) : List Node → List Node
  | [] => []
  | n :: ns => n.moved μ :: movedAll μ ns

def movedBranches (μ : Move) : List (Node × Node) → List (Node × Node)
  | [] => []
  | (test, body) :: rest => (test.moved μ, body.moved μ) :: movedBranches μ rest

def movedOption (μ : Move) : Option Node → Option Node
  | .none => .none
  | .some n => .some (n.moved μ)

end

instance : Movable Node := ⟨Node.moved⟩

instance : Movable Expr := ⟨Expr.moved⟩

instance : Movable Program := ⟨fun μ p => ⟨moved μ p.statements, moved μ p.span⟩⟩

variable {μ : Move}

theorem movedAll_eq (ns : List Node) : movedAll μ ns = moved μ ns := by
  induction ns with
  | nil => rfl
  | cons n ns ih => rw [movedAll, ih]; rfl

theorem movedBranches_eq (bs : List (Node × Node)) : movedBranches μ bs = moved μ bs := by
  induction bs with
  | nil => rfl
  | cons b bs ih => rw [movedBranches, ih]; rfl

theorem movedOption_eq (n : Option Node) : movedOption μ n = moved μ n := by
  cases n <;> rfl

theorem moved_list (items : List Node) : moved μ (Expr.list items) = .list (moved μ items) :=
  congrArg Expr.list (movedAll_eq items)

theorem moved_block (body : List Node) : moved μ (Expr.block body) = .block (moved μ body) :=
  congrArg Expr.block (movedAll_eq body)

theorem moved_call (callee : Node) (args : List Node) :
    moved μ (Expr.call callee args) = .call (moved μ callee) (moved μ args) :=
  congrArg (Expr.call _) (movedAll_eq args)

theorem moved_forTo (var : String) (start stop : Node) (step : Option Node) (body : Node) :
    moved μ (Expr.forTo var start stop step body) =
      .forTo var (moved μ start) (moved μ stop) (moved μ step) (moved μ body) :=
  congrArg (Expr.forTo _ _ _ · _) (movedOption_eq step)

theorem moved_ifElse (branches : List (Node × Node)) (otherwise : Option Node) :
    moved μ (Expr.ifElse branches otherwise) = .ifElse (moved μ branches) (moved μ otherwise) := by
  rw [← movedBranches_eq, ← movedOption_eq]
  rfl

/-! ## Nothing moves -/

mutual

theorem Node.moved_none : (n : Node) → n.moved .none = n
  | .mk e _ => by rw [Node.moved, e.moved_none]; rfl

theorem Expr.moved_none : (e : Expr) → e.moved .none = e
  | .int _ | .float _ | .text _ | .var _ | .continue | .break => rfl
  | .list items | .block items => by rw [Expr.moved, movedAll_none items]
  | .assign _ value _ => by rw [Expr.moved, value.moved_none]
  | .binary _ left right => by rw [Expr.moved, left.moved_none, right.moved_none]
  | .unary _ operand => by rw [Expr.moved, operand.moved_none]
  | .ifElse branches otherwise => by
    rw [Expr.moved, movedBranches_none branches, movedOption_none otherwise]
  | .forTo _ start stop step body => by
    rw [Expr.moved, start.moved_none, stop.moved_none, movedOption_none step, body.moved_none]
  | .whileDo test body => by rw [Expr.moved, test.moved_none, body.moved_none]
  | .function _ params body => by
    rw [Expr.moved, body.moved_none]
    exact congrArg (Expr.function _ · body) (List.map_id params)
  | .call callee args => by rw [Expr.moved, callee.moved_none, movedAll_none args]
  | .index target place => by rw [Expr.moved, target.moved_none, place.moved_none]
  | .return value => by rw [Expr.moved, movedOption_none value]

theorem movedAll_none : (ns : List Node) → movedAll .none ns = ns
  | [] => rfl
  | n :: ns => by rw [movedAll, n.moved_none, movedAll_none ns]

theorem movedBranches_none : (bs : List (Node × Node)) → movedBranches .none bs = bs
  | [] => rfl
  | (test, body) :: bs => by
    rw [movedBranches, test.moved_none, body.moved_none, movedBranches_none bs]

theorem movedOption_none : (n : Option Node) → movedOption .none n = n
  | .none => rfl
  | .some n => by rw [movedOption, n.moved_none]

end

section

variable {α β : Type} [Movable α] [Movable β]

theorem moved_none_list (h : ∀ x : α, moved .none x = x) (xs : List α) : moved .none xs = xs :=
  (List.map_congr_left fun x _ => h x).trans (List.map_id xs)

theorem moved_none_option (h : ∀ x : α, moved .none x = x) (x : Option α) : moved .none x = x := by
  cases x with
  | none => rfl
  | some x => exact congrArg some (h x)

theorem moved_none_pair (h : ∀ x : α, moved .none x = x) (h' : ∀ y : β, moved .none y = y)
    (x : α × β) : moved .none x = x := Prod.ext (h x.1) (h' x.2)

end

/-! ## Spans put together -/

theorem Span.moved_merge (a b : Span) :
    moved μ (a.merge b) = Span.merge (moved μ a) (moved μ b) := by
  have hif (c : Prop) [Decidable c] (p q : Position) :
      μ.on (if c then p else q) = if c then μ.on p else μ.on q := apply_ite ..
  simp only [Span.merge, moved, μ.lt_iff, hif]

theorem moved_span (n : Node) : moved μ n.span = (moved μ n).span := by
  cases n
  rfl

namespace Grammar

theorem moved_joined (l : Node) (op : BinaryOp) (r : Node) :
    moved μ (joined l op r) = joined (moved μ l) op (moved μ r) := by
  show Node.mk _ (moved μ (l.span.merge r.span)) = _
  rw [Span.moved_merge, moved_span, moved_span]
  rfl

theorem moved_spanOf (d : Span) (ns : List Node) :
    moved μ (spanOf d ns) = spanOf (moved μ d) (moved μ ns) := by
  cases ns with
  | nil => rfl
  | cons n ns =>
    show moved μ (n.span.merge _) = Span.merge (moved μ n).span _
    rw [Span.moved_merge, moved_span, moved_span, List.getLast?_map]
    cases ns.getLast? <;> rfl

end Grammar

end Scriptlet
