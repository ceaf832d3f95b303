import Scriptlet.Proofs.Grammar.Accepts
import Scriptlet.Proofs.Grammar.Form

/-!
# What the readers of bodies accept

What each reader accepts, from what the readers it calls accept. What it gives
is known but for spans. Here are the readers of items and of bodies.
-/

set_option autoImplicit false

namespace Scriptlet

open Token (Kind)

namespace Grammar

open Reader

/-- The same node but for spans. -/
abbrev Like (n m : Node) : Prop := m.bare = n.bare

abbrev LikeAll (ns ms : List Node) : Prop := bareAll ms = bareAll ns

def LikeArm (lined : Bool) (test inner : Node) (x : Bool × Node × Node) : Prop :=
  x.1 = lined ∧ Like test x.2.1 ∧ Like inner x.2.2

def LikeBranches (bs : List (Node × Node)) (otherwise : Option Node)
    (x : List (Node × Node) × Option Node) : Prop :=
  bareBranches x.1 = bareBranches bs ∧ bareOption x.2 = bareOption otherwise

variable {sub : Goal → Reader Node} {ks ls : List Kind} {k : Kind} {n : Node} {span : Span}

/-! ## Items -/

section

variable {α : Type} {item : Reader α} {Q : α → Prop} {P R : List α → Prop} {b : Nat}

theorem itemsAfter_none (hk : k ≠ .mark .comma) (hP : P []) :
    Accepts (itemsAfter item b) P [] k := by
  cases b with
  | zero => exact Accepts.pure hP
  | succ b =>
    apply Accepts.atMark
    rw [ahead_nil, if_neg fun h => hk (Kind.isMark_iff.mp h)]
    exact Accepts.pure hP

theorem itemsAfter_more (h : Accepts item Q ks (ahead ls k))
    (hr : Accepts (itemsAfter item b) P ls k) (hR : ∀ x xs, Q x → P xs → R (x :: xs)) :
    Accepts (itemsAfter item (b + 1)) R (.mark .comma :: (ks ++ ls)) k := by
  apply Accepts.atMark
  rw [ahead_cons, if_pos (Kind.isMark_iff.mpr rfl)]
  apply Accepts.pass
  intro _
  apply Accepts.bind h
  intro x hx
  apply Accepts.last hr
  intro xs hxs
  exact Accepts.pure (hR x xs hx hxs)

theorem itemsBefore_none {close : Mark} (hP : P []) :
    Accepts (itemsBefore close item) P [] (.mark close) := by
  apply Accepts.atMark
  rw [ahead_nil, if_pos (Kind.isMark_iff.mpr rfl)]
  exact Accepts.pure hP

theorem itemsBefore_some {close : Mark} (hfirst : ahead (ks ++ ls) k ≠ .mark close)
    (h : Accepts item Q ks (ahead ls k))
    (hr : ∀ b, ls.length ≤ b → Accepts (itemsAfter item b) P ls k)
    (hR : ∀ x xs, Q x → P xs → R (x :: xs)) :
    Accepts (itemsBefore close item) R (ks ++ ls) k := by
  apply Accepts.atMark
  rw [if_neg fun h => hfirst (Kind.isMark_iff.mp h)]
  apply Accepts.bind h
  intro x hx
  apply Accepts.remaining
  intro b hb
  apply Accepts.last (hr b hb)
  intro xs hxs
  exact Accepts.pure (hR x xs hx hxs)

theorem itemsUntil_accepts {α : Type} {close : Mark} {item : Reader α} {P : List α → Prop}
    (h : Accepts (itemsBefore close item) P ks (.mark close)) :
    Accepts (itemsUntil close item) P (ks ++ [.mark close]) k := by
  rw [itemsUntil_eq]
  apply Accepts.bind h
  intro xs hxs
  apply Accepts.atMark
  rw [ahead_cons, if_pos (Kind.isMark_iff.mpr rfl)]
  exact Accepts.pass fun _ => Accepts.pure hxs

end

/-! ## Bodies -/

theorem stepClause_none (hk : k ≠ .keyword .step) :
    Accepts (stepClause sub) (fun x => bareOption x = bareOption none) [] k := by
  apply Accepts.atKeyword
  rw [ahead_nil, if_neg fun h => hk (Kind.isKeyword_iff.mp h)]
  exact Accepts.pure rfl

theorem stepClause_some (h : Accepts (sub .expression) (Like n) ks k) :
    Accepts (stepClause sub) (fun x => bareOption x = bareOption (some n))
      (.keyword .step :: ks) k := by
  apply Accepts.atKeyword
  rw [ahead_cons, if_pos (Kind.isKeyword_iff.mpr rfl)]
  apply Accepts.pass
  intro _
  apply Accepts.last h
  intro m hm
  exact Accepts.pure (congrArg some hm)

theorem statementsUntil_none {close : List Keyword} {b : Nat}
    (hk : k = .mark .stop ∨ closes close k = true) :
    Accepts (statementsUntil sub close (b + 1)) (LikeAll []) [] k := by
  apply Accepts.atMark
  apply Accepts.atAnyKeyword
  rw [ahead_nil, if_pos (Bool.or_eq_true_iff.mpr (hk.imp Kind.isMark_iff.mpr id))]
  exact Accepts.pure rfl

theorem starts_not_closes {close : List Keyword} {l : Kind}
    (hclose : ∀ w ∈ close, Level.statement.starts (.keyword w) = false)
    (hl : Level.statement.starts l = true) : closes close l = false := by
  apply Bool.eq_false_iff.mpr
  intro h
  obtain ⟨w, hw, hk⟩ := List.any_eq_true.mp h
  rw [Kind.isKeyword_iff.mp hk, hclose w hw] at hl
  cases hl

section

variable {close : List Keyword} {b : Nat} {l : Kind}
  (hclose : ∀ w ∈ close, Level.statement.starts (.keyword w) = false)
  (hl : Level.statement.starts l = true)

include hclose hl

/-- A reader of statements begins with one where a statement can begin. -/
theorem statementsUntil_some {P : List Node → Prop}
    (h : Accepts (do
      let first ← sub .statement
      if ← skipSeparators then
        let rest ← statementsUntil sub close b
        return first :: rest
      else return [first]) P (l :: ks) k) :
    Accepts (statementsUntil sub close (b + 1)) P (l :: ks) k := by
  have hstop : l.isMark .stop = false := by
    apply Bool.eq_false_iff.mpr
    intro hstop
    rw [Kind.isMark_iff.mp hstop] at hl
    cases hl
  apply Accepts.atMark
  apply Accepts.atAnyKeyword
  rw [ahead_cons, hstop, starts_not_closes hclose hl]
  exact h

theorem statementsUntil_last (hk : k ≠ .mark .separator)
    (h : Accepts (sub .statement) (Like n) (l :: ks) k) :
    Accepts (statementsUntil sub close (b + 1)) (LikeAll [n]) (l :: ks) k := by
  apply statementsUntil_some hclose hl
  apply Accepts.last h
  intro m hm
  have hnone : ¬(ahead (kinds [] ++ []) k).isMark .separator = true :=
    fun h => hk (Kind.isMark_iff.mp h)
  apply @Accepts.skipSeparators _ _ [] k [] _ nofun hk
  rw [if_neg hnone]
  exact Accepts.pure (by simp only [LikeAll, bareAll, hm])

theorem statementsUntil_line {ns : List Node} {seps : List Token} (hs : Separators seps)
    (h : Accepts (sub .statement) (Like n) (l :: ks) (.mark .separator))
    (hk : ahead ls k ≠ .mark .separator)
    (hr : Accepts (statementsUntil sub close b) (LikeAll ns) ls k) :
    Accepts (statementsUntil sub close (b + 1)) (LikeAll (n :: ns))
      (l :: ks ++ (kinds seps ++ ls)) k := by
  have hsep : ahead (kinds seps ++ ls) k = .mark .separator := by
    obtain ⟨t, us, rfl⟩ := List.exists_cons_of_ne_nil hs.1
    exact hs.2 t (by simp)
  apply statementsUntil_some hclose hl
  show Accepts _ _ (l :: ks ++ (kinds seps ++ ls)) k
  apply Accepts.bind (by rwa [hsep])
  intro m hm
  apply Accepts.skipSeparators hs.2 hk
  rw [hsep, if_pos (Kind.isMark_iff.mpr rfl)]
  apply Accepts.last hr
  intro ms hms
  exact Accepts.pure (by simp only [LikeAll, bareAll, hm, hms])

end

theorem block_accepts {close : List Keyword} {ns : List Node} {seps : List Token}
    (hs : Separators seps) (hls : ahead ls k ≠ .mark .separator) (hk : closes close k = true)
    (h : ∀ b, ls.length < b → Accepts (statementsUntil sub close b) (LikeAll ns) ls k) :
    Accepts (block sub close) (Like (.mk (.block ns) span)) (kinds seps ++ ls) k := by
  apply Accepts.lastEnd
  intro p
  have hstatements : Accepts (statements sub close) (LikeAll ns) (kinds seps ++ ls) k := by
    apply Accepts.skipSeparators hs.2 hls
    apply Accepts.remaining
    exact fun b hb => h (b + 1) (Nat.lt_succ_of_le hb)
  apply Accepts.last hstatements
  intro ms hms
  apply Accepts.atAnyKeyword
  rw [ahead_nil, if_pos hk]
  apply Accepts.pure
  simp only [Like, Node.bare_mk, Expr.bare, hms]

theorem closedBlock_accepts (h : Accepts (block sub [.close]) (Like n) ks (.keyword .close)) :
    Accepts (do let b ← block sub [.close]; let _ ← pass; return b) (Like n)
      (ks ++ [.keyword .close]) k := by
  apply Accepts.bind h
  intro m hm
  exact Accepts.pass fun _ => Accepts.pure hm

theorem body_lined (hsep : ∀ l, ahead ks l = .mark .separator)
    (h : Accepts (block sub [.close]) (Like n) ks (.keyword .close)) :
    Accepts (body sub) (Like n) (ks ++ [.keyword .close]) k := by
  apply Accepts.atMark
  rw [ahead_append, hsep, if_pos (Kind.isMark_iff.mpr rfl)]
  exact closedBlock_accepts h

theorem body_inline (hsep : ahead ks k ≠ .mark .separator)
    (h : Accepts (sub .statement) (Like n) ks k) : Accepts (body sub) (Like n) ks k := by
  apply Accepts.atMark
  rw [if_neg fun h => hsep (Kind.isMark_iff.mp h)]
  exact h

/-! ## Branches -/

theorem arm_accepts {lined : Bool} {test inner : Node}
    (h₁ : Accepts (sub .expression) (Like test) ks (.keyword .then))
    (hlined : (ahead ls k).isMark .separator = lined)
    (h₂ : Accepts (armBody sub lined) (Like inner) ls k) :
    Accepts (arm sub) (LikeArm lined test inner) (ks ++ .keyword .then :: ls) k := by
  apply Accepts.bind h₁
  intro t ht
  apply Accepts.expectKeyword
  intro _
  apply Accepts.atMark
  rw [hlined]
  apply Accepts.last h₂
  intro i hi
  exact Accepts.pure ⟨rfl, ht, hi⟩

section

variable {lined : Bool} {test inner : Node} {b : Nat}

theorem branches_closed (h : Accepts (arm sub) (LikeArm true test inner) ks (.keyword .close)) :
    Accepts (branches sub (b + 1)) (LikeBranches [(test, inner)] none)
      (ks ++ [.keyword .close]) k := by
  rw [branches_succ]
  apply Accepts.bind h
  rintro ⟨_, t, i⟩ ⟨rfl, ht, hi⟩
  apply Accepts.atKeyword
  rw [ahead_cons, if_pos (by simp [Kind.isKeyword])]
  apply Accepts.pass
  intro _
  apply Accepts.pure
  exact ⟨by simp only [bareBranches, ht, hi], rfl⟩

theorem branches_only (h : Accepts (arm sub) (LikeArm false test inner) ks k)
    (helif : k ≠ .keyword .elif) (helse : k ≠ .keyword .else) :
    Accepts (branches sub (b + 1)) (LikeBranches [(test, inner)] none) ks k := by
  rw [branches_succ]
  apply Accepts.last h
  rintro ⟨_, t, i⟩ ⟨rfl, ht, hi⟩
  apply Accepts.atKeyword
  rw [if_neg nofun]
  apply Accepts.atKeyword
  rw [ahead_nil, if_neg fun h => helif (Kind.isKeyword_iff.mp h)]
  apply Accepts.atKeyword
  rw [ahead_nil, if_neg fun h => helse (Kind.isKeyword_iff.mp h)]
  apply Accepts.pure
  exact ⟨by simp only [bareBranches, ht, hi], rfl⟩

theorem branches_elif {bs : List (Node × Node)} {otherwise : Option Node}
    (h : Accepts (arm sub) (LikeArm lined test inner) ks (.keyword .elif))
    (hr : Accepts (branches sub b) (LikeBranches bs otherwise) ls k) :
    Accepts (branches sub (b + 1)) (LikeBranches ((test, inner) :: bs) otherwise)
      (ks ++ .keyword .elif :: ls) k := by
  rw [branches_succ]
  apply Accepts.bind h
  rintro ⟨_, t, i⟩ ⟨rfl, ht, hi⟩
  apply Accepts.atKeyword
  rw [ahead_cons, if_neg (by simp [Kind.isKeyword])]
  apply Accepts.atKeyword
  rw [ahead_cons, if_pos (Kind.isKeyword_iff.mpr rfl)]
  apply Accepts.pass
  intro _
  apply Accepts.last hr
  rintro ⟨more, other⟩ ⟨hmore, hother⟩
  apply Accepts.pure
  exact ⟨by simp only [bareBranches, ht, hi, hmore], hother⟩

theorem branches_otherwise {other : Node}
    (h : Accepts (arm sub) (LikeArm lined test inner) ks (.keyword .else))
    (hr : Accepts (body sub) (Like other) ls k) :
    Accepts (branches sub (b + 1)) (LikeBranches [(test, inner)] (some other))
      (ks ++ .keyword .else :: ls) k := by
  rw [branches_succ]
  apply Accepts.bind h
  rintro ⟨_, t, i⟩ ⟨rfl, ht, hi⟩
  apply Accepts.atKeyword
  rw [ahead_cons, if_neg (by simp [Kind.isKeyword])]
  apply Accepts.atKeyword
  rw [ahead_cons, if_neg (by simp [Kind.isKeyword])]
  apply Accepts.atKeyword
  rw [ahead_cons, if_pos (Kind.isKeyword_iff.mpr rfl)]
  apply Accepts.pass
  intro _
  apply Accepts.last hr
  intro o ho
  apply Accepts.pure
  exact ⟨by simp only [bareBranches, ht, hi], by simp only [bareOption, ho]⟩

end

end Grammar

end Scriptlet
