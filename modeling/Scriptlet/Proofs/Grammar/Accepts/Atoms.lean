import Scriptlet.Proofs.Grammar.Accepts.Bodies

/-!
# What the readers of atoms accept

Literals, what stands in brackets, and the compound atoms that begin with a
word.
-/

set_option autoImplicit false

namespace Scriptlet

open Token (Kind)

namespace Grammar

open Reader

variable {sub : Goal → Reader Node} {ks ls ms : List Kind} {k : Kind} {n : Node} {span : Span}
  {start : Position}

theorem node_accepts {e e' : Expr} (h : e'.bare = e.bare) :
    Accepts (node start e') (Like (.mk e span)) [] k := by
  apply Accepts.lastEnd
  intro p
  apply Accepts.pure
  show Node.bare _ = Node.bare _
  rw [Node.bare_mk, Node.bare_mk, h]

theorem literal_accepts {e : Expr} (he : literal? k = some e) (k' : Kind) :
    Accepts (atom sub) (Like (.mk e span)) [k] k' := by
  have hlit : Accepts (literal e) (Like (.mk e span)) [k] k' := by
    apply Accepts.pass
    exact fun s => Accepts.pure (by simp [Like])
  apply Accepts.kind
  cases k with
  | keyword w => cases he
  | mark m => cases he
  | _ =>
    obtain rfl := Option.some.inj he
    exact hlit

theorem parens_accepts (h : Accepts (sub .expression) (Like n) ks (.mark .rightParen)) :
    Accepts (atom sub) (Like (.mk n.expr span))
      (.mark .leftParen :: (ks ++ [.mark .rightParen])) k := by
  apply Accepts.kind
  apply Accepts.expectMark
  intro s
  apply Accepts.bind h
  intro m hm
  apply Accepts.expectMark
  intro _
  exact node_accepts (Node.bare_eq_iff.mp hm)

theorem list_accepts {ns : List Node}
    (h : Accepts (itemsBefore .rightSquare (sub .expression))
      (LikeAll ns) ks (.mark .rightSquare)) :
    Accepts (atom sub) (Like (.mk (.list ns) span))
      (.mark .leftSquare :: (ks ++ [.mark .rightSquare])) k := by
  apply Accepts.kind
  apply Accepts.expectMark
  intro s
  apply Accepts.last (itemsUntil_accepts h)
  intro ms hms
  exact node_accepts (by simp only [Expr.bare, hms])

theorem ifElse_accepts {bs : List (Node × Node)} {otherwise : Option Node}
    (h : ∀ b, ks.length ≤ b → Accepts (branches sub b) (LikeBranches bs otherwise) ks k) :
    Accepts (atom sub) (Like (.mk (.ifElse bs otherwise) span)) (.keyword .if :: ks) k := by
  apply Accepts.kind
  apply Accepts.expectKeyword
  intro s
  apply Accepts.remaining
  intro b hb
  apply Accepts.last (h b hb)
  intro x hx
  exact node_accepts (by simp only [Expr.bare, hx.1, hx.2])

theorem forTo_accepts {name : String} {first limit inner : Node} {step : Option Node}
    {ns : List Kind}
    (h₁ : Accepts (sub .expression) (Like first) ks (.keyword .to))
    (h₂ : Accepts (sub .expression) (Like limit) ls (ahead ms (.keyword .then)))
    (h₃ : Accepts (stepClause sub) (fun x => bareOption x = bareOption step) ms (.keyword .then))
    (h₄ : Accepts (body sub) (Like inner) ns k) :
    Accepts (atom sub) (Like (.mk (.forTo name first limit step inner) span))
      (.keyword .for :: .identifier name :: .mark .equal :: (ks ++ .keyword .to ::
        (ls ++ (ms ++ .keyword .then :: ns)))) k := by
  apply Accepts.kind
  show Accepts (forTo sub) _ _ _
  rw [forTo_eq]
  apply Accepts.expectKeyword
  intro s
  apply Accepts.identifier
  intro _
  apply Accepts.expectMark
  intro _
  apply Accepts.bind h₁
  intro f hf
  apply Accepts.expectKeyword
  intro _
  apply Accepts.bind (by simpa using h₂)
  intro l hl
  apply Accepts.bind h₃
  intro x hx
  apply Accepts.expectKeyword
  intro _
  apply Accepts.last h₄
  intro i hi
  exact node_accepts (by simp only [Expr.bare, hf, hl, hx, hi])

theorem whileDo_accepts {test inner : Node}
    (h₁ : Accepts (sub .expression) (Like test) ks (.keyword .then))
    (h₂ : Accepts (body sub) (Like inner) ls k) :
    Accepts (atom sub) (Like (.mk (.whileDo test inner) span))
      (.keyword .while :: (ks ++ .keyword .then :: ls)) k := by
  apply Accepts.kind
  apply Accepts.expectKeyword
  intro s
  apply Accepts.bind h₁
  intro t ht
  apply Accepts.expectKeyword
  intro _
  apply Accepts.last h₂
  intro i hi
  exact node_accepts (by simp only [Expr.bare, ht, hi])

/-! ## Functions -/

theorem param_accepts {t : Token} {name : String} (ht : t.kind = .identifier name) (k : Kind) :
    Accepts param (fun q => q.bare = Param.bare ⟨name, t.span⟩) [t.kind] k := by
  rw [ht]
  apply Accepts.identifier
  exact fun s => Accepts.pure rfl

theorem furtherParams_accepts {ps : List Param} {ts : List Token} (h : FurtherParams ps ts)
    {b : Nat} (hb : ts.length ≤ b) :
    Accepts (itemsAfter param b) (fun qs => qs.map Param.bare = ps.map Param.bare) (kinds ts)
      (.mark .rightParen) := by
  induction h generalizing b with
  | nil => exact itemsAfter_none (by simp) rfl
  | @cons c t name ps ts hc ht h ih =>
    cases b with
    | zero => simp at hb
    | succ b =>
      rw [kinds_cons, hc]
      show Accepts _ _ (.mark .comma :: ([t.kind] ++ kinds ts)) _
      apply itemsAfter_more (param_accepts ht _) (ih (by simp at hb; omega))
      intro q qs hq hqs
      rw [List.map_cons, List.map_cons, hq, hqs]

theorem params_accepts {ps : List Param} {ts : List Token} (h : Params ps ts) :
    Accepts (itemsBefore .rightParen param) (fun qs => qs.map Param.bare = ps.map Param.bare)
      (kinds ts) (.mark .rightParen) := by
  cases h with
  | nil => exact itemsBefore_none rfl
  | @cons t name ps ts ht h =>
    show Accepts _ _ ([t.kind] ++ kinds ts) _
    apply itemsBefore_some (by simp [ht]) (param_accepts ht _)
      fun b hb => furtherParams_accepts h (by simpa using hb)
    intro q qs hq hqs
    rw [List.map_cons, List.map_cons, hq, hqs]

theorem functionName_accepts {name : Option String} {ts : List Token} (h : Named name ts) :
    Accepts functionName (· = name) (kinds ts) (.mark .leftParen) := by
  cases h with
  | none =>
    apply Accepts.kind
    exact Accepts.pure rfl
  | some ht =>
    apply Accepts.kind
    rw [kinds_cons, ahead_cons, ht]
    exact Accepts.pass fun _ => Accepts.pure rfl

theorem arrow_accepts (h : Accepts (sub .expression) (Like n) ks k) :
    Accepts (routine sub) (Like n) (.mark .arrow :: ks) k := by
  apply Accepts.atMark
  apply Accepts.atMark
  rw [ahead_cons, if_pos (Kind.isMark_iff.mpr rfl)]
  exact Accepts.pass fun _ => h

theorem routine_lined (hsep : ∀ l, ahead ks l = .mark .separator)
    (h : Accepts (block sub [.close]) (Like n) ks (.keyword .close)) :
    Accepts (routine sub) (Like n) (ks ++ [.keyword .close]) k := by
  apply Accepts.atMark
  apply Accepts.atMark
  rw [ahead_append, hsep, if_neg nofun, if_pos (Kind.isMark_iff.mpr rfl)]
  exact closedBlock_accepts h

theorem function_accepts {name : Option String} {ps : List Param} {inner : Node}
    {names ts : List Token} (hn : Named name names) (hp : Params ps ts)
    (h : Accepts (routine sub) (Like inner) ks k) :
    Accepts (atom sub) (Like (.mk (.function name ps inner) span))
      (.keyword .fun :: (kinds names ++ .mark .leftParen :: (kinds ts ++ .mark .rightParen :: ks)))
      k := by
  apply Accepts.kind
  show Accepts (function sub) _ _ _
  rw [function_eq]
  apply Accepts.expectKeyword
  intro s
  apply Accepts.bind (functionName_accepts hn)
  rintro _ rfl
  apply Accepts.expectMark
  intro _
  have hparams := itemsUntil_accepts (k := ahead ks k) (params_accepts hp)
  rw [← List.singleton_append, ← List.append_assoc]
  apply Accepts.bind hparams
  intro qs hqs
  apply Accepts.last h
  intro i hi
  exact node_accepts (by simp only [Expr.bare, hqs, hi])

end Grammar

end Scriptlet
