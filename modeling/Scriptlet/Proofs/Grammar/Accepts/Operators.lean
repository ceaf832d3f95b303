import Scriptlet.Proofs.Grammar.Accepts.Atoms

/-!
# What the readers of operators accept

Operators from the tightest to the loosest, assignments, and statements.
-/

set_option autoImplicit false

namespace Scriptlet

open Token (Kind)

namespace Grammar

open Reader

variable {sub : Goal → Reader Node} {ks ls : List Kind} {k : Kind} {n : Node} {span : Span}
  {start : Position}

/-! ## Operators -/

section

variable {m target place : Node} {args : List Node} {b : Nat} {P : Node → Prop}

theorem trailersAfter_none (hround : k ≠ .mark .leftParen) (hsquare : k ≠ .mark .leftSquare)
    (hm : Like n m) : Accepts (trailersAfter sub start b m) (Like n) [] k := by
  cases b with
  | zero => exact Accepts.pure hm
  | succ b =>
    apply Accepts.atMark
    rw [ahead_nil, if_neg fun h => hround (Kind.isMark_iff.mp h)]
    apply Accepts.atMark
    rw [ahead_nil, if_neg fun h => hsquare (Kind.isMark_iff.mp h)]
    exact Accepts.pure hm

theorem trailersAfter_call (hm : Like target m)
    (h : Accepts (itemsBefore .rightParen (sub .expression)) (LikeAll args) ks
      (.mark .rightParen))
    (hr : ∀ m', Like (.mk (.call target args) span) m' →
      Accepts (trailersAfter sub start b m') P ls k) :
    Accepts (trailersAfter sub start (b + 1) m) P
      (.mark .leftParen :: (ks ++ .mark .rightParen :: ls)) k := by
  apply Accepts.atMark
  rw [ahead_cons, if_pos (Kind.isMark_iff.mpr rfl)]
  apply Accepts.pass
  intro _
  rw [← List.singleton_append, ← List.append_assoc]
  apply Accepts.bind (itemsUntil_accepts h)
  intro ms hms
  exact Accepts.still (node_accepts (by simp only [Expr.bare, hm, hms])) hr

theorem trailersAfter_index (hm : Like target m)
    (h : Accepts (sub .expression) (Like place) ks (.mark .rightSquare))
    (hr : ∀ m', Like (.mk (.index target place) span) m' →
      Accepts (trailersAfter sub start b m') P ls k) :
    Accepts (trailersAfter sub start (b + 1) m) P
      (.mark .leftSquare :: (ks ++ .mark .rightSquare :: ls)) k := by
  apply Accepts.atMark
  rw [ahead_cons, if_neg nofun]
  apply Accepts.atMark
  rw [ahead_cons, if_pos (Kind.isMark_iff.mpr rfl)]
  apply Accepts.pass
  intro _
  apply Accepts.bind h
  intro q hq
  apply Accepts.expectMark
  intro _
  exact Accepts.still (node_accepts (by simp only [Expr.bare, hm, hq])) hr

theorem application_accepts (h : Accepts (atom sub) (Like n) ks (ahead ls k))
    (hr : ∀ start m b, Like n m → ls.length ≤ b →
      Accepts (trailersAfter sub start b m) P ls k) :
    Accepts (application sub) P (ks ++ ls) k := by
  apply Accepts.here
  intro p
  apply Accepts.bind h
  intro m hm
  apply Accepts.remaining
  exact fun b hb => hr p m b hm hb

end

theorem power_base (hk : k ≠ .mark .caret) (h : Accepts (application sub) (Like n) ks k) :
    Accepts (power sub) (Like n) ks k := by
  apply Accepts.last h
  intro m hm
  apply Accepts.atMark
  rw [ahead_nil, if_neg fun h => hk (Kind.isMark_iff.mp h)]
  exact Accepts.pure hm

theorem joined_like {l r l' r' : Node} {op : BinaryOp} (hl : Like l l') (hr : Like r r') :
    Like (joined l op r) (joined l' op r') := by
  have hl : l'.bare = l.bare := hl
  have hr : r'.bare = r.bare := hr
  simp only [Like, joined, Node.bare_mk, Expr.bare, hl, hr]

theorem power_accepts {base exponent : Node}
    (h : Accepts (application sub) (Like base) ks (.mark .caret))
    (hx : Accepts (sub .factor) (Like exponent) ls k) :
    Accepts (power sub) (Like (joined base .pow exponent)) (ks ++ .mark .caret :: ls) k := by
  apply Accepts.bind h
  intro m hm
  apply Accepts.atMark
  rw [ahead_cons, if_pos (Kind.isMark_iff.mpr rfl)]
  apply Accepts.pass
  intro _
  apply Accepts.last hx
  intro x hx
  exact Accepts.pure (joined_like hm hx)

theorem factor_unsigned (hk : signOp? (ahead ks k) = none)
    (h : Accepts (power sub) (Like n) ks k) : Accepts (factor sub) (Like n) ks k := by
  apply Accepts.kind
  rw [hk]
  exact h

theorem factor_signed {l : Kind} {op : UnaryOp} (hl : signOp? l = some op)
    (h : Accepts (sub .factor) (Like n) ks k) :
    Accepts (factor sub) (Like (.mk (.unary op n) span)) (l :: ks) k := by
  apply Accepts.kind
  rw [ahead_cons, hl]
  apply Accepts.pass
  intro s
  apply Accepts.last h
  intro m hm
  exact node_accepts (by simp only [Expr.bare, hm])

section

variable {op? : Kind → Option BinaryOp} {operand : Reader Node} {left : Node} {b : Nat}

theorem chainAfter_none (hk : op? k = none) (hl : Like n left) :
    Accepts (chainAfter op? operand b left) (Like n) [] k := by
  cases b with
  | zero => exact Accepts.pure hl
  | succ b =>
    apply Accepts.kind
    rw [ahead_nil, hk]
    exact Accepts.pure hl

theorem chainAfter_joined {l : Kind} {op : BinaryOp} {right : Node} {P : Node → Prop}
    (hop : op? l = some op) (hl : Like n left) (h : Accepts operand (Like right) ks (ahead ls k))
    (hr : ∀ m, Like (joined n op right) m → Accepts (chainAfter op? operand b m) P ls k) :
    Accepts (chainAfter op? operand (b + 1) left) P (l :: (ks ++ ls)) k := by
  apply Accepts.kind
  rw [ahead_cons, hop]
  apply Accepts.pass
  intro _
  apply Accepts.bind h
  intro r hright
  exact hr _ (joined_like hl hright)

theorem chain_accepts {P : Node → Prop} (h : Accepts operand (Like n) ks (ahead ls k))
    (hr : ∀ m b, Like n m → ls.length ≤ b → Accepts (chainAfter op? operand b m) P ls k) :
    Accepts (chain op? operand) P (ks ++ ls) k := by
  apply Accepts.bind h
  intro m hm
  apply Accepts.remaining
  exact fun b hb => hr m b hm hb

end

theorem comparison_not (h : Accepts (sub .comparison) (Like n) ks k) :
    Accepts (comparison sub) (Like (.mk (.unary .not n) span)) (.keyword .not :: ks) k := by
  apply Accepts.atKeyword
  rw [ahead_cons, if_pos (Kind.isKeyword_iff.mpr rfl)]
  apply Accepts.pass
  intro s
  apply Accepts.last h
  intro m hm
  exact node_accepts (by simp only [Expr.bare, hm])

theorem comparison_chain (hk : ahead ks k ≠ .keyword .not)
    (h : Accepts (chain comparisonOp? (sum sub)) (Like n) ks k) :
    Accepts (comparison sub) (Like n) ks k := by
  apply Accepts.atKeyword
  rw [if_neg fun h => hk (Kind.isKeyword_iff.mp h)]
  exact h

/-! ## Assignments and statements -/

theorem atAssignment_accepts {P : Node → Prop} {f : Bool → Reader Node} (hks : ks ≠ [])
    (h : Accepts (f (assigns (ks ++ [k]))) P ks k) :
    Accepts (atAssignment >>= f) P ks k := by
  intro c us rest hc hus hk
  have hafter : c.After us ⟨rest, endFrom c.lastEnd us, Cursor.contentFrom c.contentEnd us⟩ :=
    ⟨hc, rfl, rfl⟩
  have hne : us ≠ [] := by
    rintro rfl
    exact hks hus.symm
  have hassign := hafter.assigns hne
  rw [Cursor.kind_eq, hk, hus] at hassign
  rw [atAssignment_bind, ← hassign]
  exact h c us rest hc hus hk

theorem expression_declare {name : String} (h : Accepts (sub .expression) (Like n) ks k) :
    Accepts (expression sub) (Like (.mk (.assign name n true) span))
      (.keyword .var :: .identifier name :: .mark .equal :: ks) k := by
  apply Accepts.here
  intro p
  apply Accepts.atKeyword
  rw [ahead_cons, if_pos (Kind.isKeyword_iff.mpr rfl)]
  apply Accepts.pass
  intro _
  apply Accepts.identifier
  intro _
  apply Accepts.expectMark
  intro _
  apply Accepts.last h
  intro m hm
  exact node_accepts (by simp only [Expr.bare, hm])

theorem expression_rebind {name : String} (h : Accepts (sub .expression) (Like n) ks k) :
    Accepts (expression sub) (Like (.mk (.assign name n false) span))
      (.identifier name :: .mark .equal :: ks) k := by
  apply Accepts.here
  intro p
  apply Accepts.atKeyword
  rw [ahead_cons, if_neg nofun]
  apply atAssignment_accepts (by simp)
  have hassign : assigns (.identifier name :: .mark .equal :: ks ++ [k]) = true := rfl
  rw [hassign, if_pos rfl]
  apply Accepts.identifier
  intro _
  apply Accepts.pass
  intro _
  apply Accepts.last h
  intro m hm
  exact node_accepts (by simp only [Expr.bare, hm])

theorem expression_chain (hks : ks ≠ []) (hvar : ahead ks k ≠ .keyword .var)
    (ha : assigns (ks ++ [k]) = false)
    (h : Accepts (chain logicOp? (comparison sub)) (Like n) ks k) :
    Accepts (expression sub) (Like n) ks k := by
  apply Accepts.here
  intro p
  apply Accepts.atKeyword
  rw [if_neg fun h => hvar (Kind.isKeyword_iff.mp h)]
  apply atAssignment_accepts hks
  rw [ha]
  exact h

theorem statement_returnNothing (hk : startsExpression k = false) :
    Accepts (statement sub) (Like (.mk (.return none) span)) [.keyword .return] k := by
  apply Accepts.here
  intro p
  apply Accepts.atKeyword
  rw [ahead_cons, if_pos (Kind.isKeyword_iff.mpr rfl)]
  apply Accepts.pass
  intro _
  apply Accepts.kind
  rw [ahead_nil, hk]
  exact node_accepts rfl

theorem statement_returnValue (hk : startsExpression (ahead ks k) = true)
    (h : Accepts (sub .expression) (Like n) ks k) :
    Accepts (statement sub) (Like (.mk (.return (some n)) span)) (.keyword .return :: ks) k := by
  apply Accepts.here
  intro p
  apply Accepts.atKeyword
  rw [ahead_cons, if_pos (Kind.isKeyword_iff.mpr rfl)]
  apply Accepts.pass
  intro _
  apply Accepts.kind
  rw [hk]
  apply Accepts.last h
  intro m hm
  exact node_accepts (by simp only [Expr.bare, bareOption, hm])

theorem statement_continue (k : Kind) :
    Accepts (statement sub) (Like (.mk .continue span)) [.keyword .continue] k := by
  apply Accepts.here
  intro p
  apply Accepts.atKeyword
  rw [ahead_cons, if_neg nofun]
  apply Accepts.atKeyword
  rw [ahead_cons, if_pos (Kind.isKeyword_iff.mpr rfl)]
  exact Accepts.pass fun _ => node_accepts rfl

theorem statement_break (k : Kind) :
    Accepts (statement sub) (Like (.mk .break span)) [.keyword .break] k := by
  apply Accepts.here
  intro p
  apply Accepts.atKeyword
  rw [ahead_cons, if_neg nofun]
  apply Accepts.atKeyword
  rw [ahead_cons, if_neg nofun]
  apply Accepts.atKeyword
  rw [ahead_cons, if_pos (Kind.isKeyword_iff.mpr rfl)]
  exact Accepts.pass fun _ => node_accepts rfl

theorem statement_expression (hk : startsExpression (ahead ks k) = true)
    (h : Accepts (expression sub) (Like n) ks k) : Accepts (statement sub) (Like n) ks k := by
  have hword {w : Keyword} (hw : startsExpression (.keyword w) = false) :
      ¬(ahead ks k).isKeyword w = true := by
    intro he
    rw [Kind.isKeyword_iff.mp he, hw] at hk
    cases hk
  apply Accepts.here
  intro p
  apply Accepts.atKeyword
  rw [if_neg (hword rfl)]
  apply Accepts.atKeyword
  rw [if_neg (hword rfl)]
  apply Accepts.atKeyword
  rw [if_neg (hword rfl)]
  exact h

end Grammar

end Scriptlet
