import Scriptlet.Proofs.Grammar.Reparse

/-!
# Well-formed trees

Where each kind of node may stand. An `IF` has a branch, a block is the body of
a compound expression only, and `RETURN`, `CONTINUE` and `BREAK` are statements,
of a program, of a block, or as the body of a compound expression other than a
function. Whatever the readers give is well formed.
-/

set_option autoImplicit false

namespace Scriptlet

open Token (Kind)

namespace Grammar

/-- What a node stands for in the tree around it. -/
inductive Role where
  | expression
  /-- A statement of a program or a block. -/
  | statement
  /-- The body of a branch or a loop. -/
  | body
  /-- The body of a function. -/
  | routine

inductive Formed : Role → Node → Prop where
  | int (n : Int64) (span : Span) : Formed .expression (.mk (.int n) span)
  | float (x : Float) (span : Span) : Formed .expression (.mk (.float x) span)
  | text (s : String) (span : Span) : Formed .expression (.mk (.text s) span)
  | var (name : String) (span : Span) : Formed .expression (.mk (.var name) span)
  | list {items : List Node} (h : ∀ n ∈ items, Formed .expression n) (span : Span) :
      Formed .expression (.mk (.list items) span)
  | assign {value : Node} (h : Formed .expression value) (name : String) (declare : Bool)
      (span : Span) : Formed .expression (.mk (.assign name value declare) span)
  | binary {left right : Node} (hl : Formed .expression left) (hr : Formed .expression right)
      (op : BinaryOp) (span : Span) : Formed .expression (.mk (.binary op left right) span)
  | unary {operand : Node} (h : Formed .expression operand) (op : UnaryOp) (span : Span) :
      Formed .expression (.mk (.unary op operand) span)
  | ifElse {branches : List (Node × Node)} {otherwise : Option Node} (hne : branches ≠ [])
      (ht : ∀ b ∈ branches, Formed .expression b.1) (hb : ∀ b ∈ branches, Formed .body b.2)
      (ho : ∀ n ∈ otherwise, Formed .body n) (span : Span) :
      Formed .expression (.mk (.ifElse branches otherwise) span)
  | forTo {start stop body : Node} {step : Option Node} (h₁ : Formed .expression start)
      (h₂ : Formed .expression stop) (h₃ : ∀ n ∈ step, Formed .expression n)
      (h₄ : Formed .body body) (var : String) (span : Span) :
      Formed .expression (.mk (.forTo var start stop step body) span)
  | whileDo {test body : Node} (h₁ : Formed .expression test) (h₂ : Formed .body body)
      (span : Span) : Formed .expression (.mk (.whileDo test body) span)
  | function {body : Node} (h : Formed .routine body) (name : Option String)
      (params : List Param) (span : Span) :
      Formed .expression (.mk (.function name params body) span)
  | call {callee : Node} {args : List Node} (hc : Formed .expression callee)
      (ha : ∀ n ∈ args, Formed .expression n) (span : Span) :
      Formed .expression (.mk (.call callee args) span)
  | index {target place : Node} (ht : Formed .expression target) (hp : Formed .expression place)
      (span : Span) : Formed .expression (.mk (.index target place) span)
  | alone {n : Node} (h : Formed .expression n) : Formed .statement n
  | return {value : Option Node} (h : ∀ n ∈ value, Formed .expression n) (span : Span) :
      Formed .statement (.mk (.return value) span)
  | continue (span : Span) : Formed .statement (.mk .continue span)
  | break (span : Span) : Formed .statement (.mk .break span)
  | inline {n : Node} (h : Formed .statement n) : Formed .body n
  | lined {ns : List Node} (h : ∀ n ∈ ns, Formed .statement n) (span : Span) :
      Formed .body (.mk (.block ns) span)
  | arrow {n : Node} (h : Formed .expression n) : Formed .routine n
  | routine {ns : List Node} (h : ∀ n ∈ ns, Formed .statement n) (span : Span) :
      Formed .routine (.mk (.block ns) span)

/-- A node may stand where it stood before, wherever it was written. -/
theorem Formed.moved {n : Node} (h : Formed .expression n) (span : Span) :
    Formed .expression (.mk n.expr span) := by
  cases h <;> constructor <;> assumption

theorem Formed.notBlock {n : Node} {role : Role} (h : Formed role n)
    (hr : role = .expression ∨ role = .statement) : n.isBlock = false := by
  have hexpr {n : Node} (h : Formed .expression n) : n.isBlock = false := by
    cases h <;> rfl
  cases h with
  | alone h => exact hexpr h
  | lined _ _ | inline _ | arrow _ | routine _ _ => simp at hr
  | _ => rfl

/-- What is known of the nodes of a phrase. -/
def Phrase.Formed : Phrase → Prop
  | .node .statement n => Grammar.Formed .statement n
  | .node _ n | .operands _ n | .applied _ n => Grammar.Formed .expression n
  | .items ns | .further ns => ∀ n ∈ ns, Grammar.Formed .expression n
  | .lines _ ns => ∀ n ∈ ns, Grammar.Formed .statement n
  | .block _ _ n => ∃ ns span, n = .mk (.block ns) span ∧ ∀ m ∈ ns, Grammar.Formed .statement m
  | .body _ n => Grammar.Formed .body n
  | .routine _ n => Grammar.Formed .routine n
  | .step s => ∀ n ∈ s, Grammar.Formed .expression n
  | .arm _ test inner => Grammar.Formed .expression test ∧ Grammar.Formed .body inner
  | .branches bs otherwise => bs ≠ [] ∧ (∀ b ∈ bs, Grammar.Formed .expression b.1) ∧
      (∀ b ∈ bs, Grammar.Formed .body b.2) ∧ ∀ n ∈ otherwise, Grammar.Formed .body n

theorem Reads.formed {p : Phrase} {ts : List Token} {k : Kind} (h : Reads p ts k) :
    p.Formed := by
  induction h with
  | @literal t e k h =>
    cases hk : t.kind <;> simp only [hk, literal?, Option.some.injEq, reduceCtorEq] at h <;>
      subst h <;> constructor
  | parens _ _ _ ih => exact Formed.moved ih _
  | list _ _ _ ih => exact .list ih _
  | ifElse _ _ ih => exact .ifElse ih.1 ih.2.1 ih.2.2.1 ih.2.2.2 _
  | forTo _ _ _ _ _ _ _ _ _ ih₁ ih₂ ih₃ ih₄ => exact .forTo ih₁ ih₂ ih₃ ih₄ _ _
  | whileDo _ _ _ _ ih₁ ih₂ => exact .whileDo ih₁ ih₂ _
  | function _ _ _ _ _ _ ih => exact .function ih _ _ _
  | noStep _ => simp [Phrase.Formed]
  | step _ _ ih => exact fun _ hn => Option.some.inj hn ▸ ih
  | arrow _ _ ih => exact .arrow ih
  | routine _ _ ih =>
    obtain ⟨ns, span, rfl, hns⟩ := ih
    exact .routine hns span
  | call _ _ _ _ ih ih' => exact .call ih ih' _
  | index _ _ _ _ ih ih' => exact .index ih ih' _
  | power _ _ _ ih ih' => exact .binary ih ih' _ _
  | signed _ _ ih => exact .unary ih _ _
  | @first chain n ts k _ ih => cases chain <;> exact ih
  | @joined chain op l r o ts us k _ _ _ ih ih' => cases chain <;> exact .binary ih ih' _ _
  | @chain chain n ts k _ _ _ ih => cases chain <;> exact ih
  | not _ _ ih => exact .unary ih _ _
  | declare _ _ _ _ ih => exact .assign ih _ _ _
  | rebind _ _ _ ih => exact .assign ih _ _ _
  | returnNothing _ _ => exact .return (by simp) _
  | returnValue _ _ ih => exact .return (fun _ hn => Option.some.inj hn ▸ ih) _
  | «continue» _ => exact .continue _
  | «break» _ => exact .break _
  | expression _ ih => exact .alone ih
  | noItems | noFurther _ | noLines _ => exact List.forall_mem_nil _
  | items _ _ ih ih' | further _ _ _ ih ih' | line _ _ _ ih ih' =>
    exact List.forall_mem_cons.mpr ⟨ih, ih'⟩
  | lastLine _ _ ih => exact List.forall_mem_singleton.mpr ih
  | block _ _ _ ih => exact ⟨_, _, rfl, ih⟩
  | lined _ _ ih =>
    obtain ⟨ns, span, rfl, hns⟩ := ih
    exact .lined hns span
  | inline _ ih => exact .inline ih
  | armLined _ _ _ ih ih' =>
    obtain ⟨ns, span, rfl, hns⟩ := ih'
    exact ⟨ih, .lined hns span⟩
  | armInline _ _ _ ih ih' => exact ⟨ih, .inline ih'⟩
  | closed _ _ ih | only _ _ _ ih =>
    exact ⟨by simp, by simpa using ih.1, by simpa using ih.2, by simp⟩
  | elif _ _ _ ih ih' =>
    exact ⟨by simp, List.forall_mem_cons.mpr ⟨ih.1, ih'.2.1⟩,
      List.forall_mem_cons.mpr ⟨ih.2, ih'.2.2.1⟩, ih'.2.2.2⟩
  | otherwise _ _ _ ih ih' =>
    exact ⟨by simp, by simpa using ih.1, by simpa using ih.2, fun _ hn => Option.some.inj hn ▸ ih'⟩
  | _ => assumption

end Grammar

theorem Program.ofTokens_formed {ts : List Token} {p : Program} (h : Program.ofTokens ts = .ok p) :
    ∀ n ∈ p.statements, Grammar.Formed .statement n := by
  unfold Program.ofTokens at h
  split at h
  · rename_i q c' hrun
    obtain rfl := Except.ok.inj h
    obtain ⟨-, _, -, -, hr, -⟩ := Grammar.program_sound hrun
    exact hr.formed
  · cases h

end Scriptlet
