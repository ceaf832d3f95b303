import Scriptlet.Proofs.Grammar.Newline

/-!
# Spans nest

The nodes that a node is made of were read from rows of its tokens, one after
the other. So their spans lie inside its own and do not overlap. Only the span
of a block without statements is not that of a row: it is empty and lies where
the token before the block ends.
-/

set_option autoImplicit false

namespace Scriptlet

open Token (Kind)

namespace Span

/-- The span `a` lies inside `b`. -/
def Inside (a b : Span) : Prop := b.start.index ≤ a.start.index ∧ a.stop.index ≤ b.stop.index

theorem Inside.trans {a b c : Span} (h : a.Inside b) (h' : b.Inside c) : a.Inside c :=
  ⟨Nat.le_trans h'.1 h.1, Nat.le_trans h.2 h'.2⟩

end Span

/-- Spans inside another, one after the other. -/
def Nested (whole : Span) (spans : List Span) : Prop :=
  (∀ s ∈ spans, s.Inside whole) ∧ spans.Pairwise fun a b => a.stop.index ≤ b.start.index

/-- The spans of what an expression is made of directly, in their order. -/
def Expr.spans : Expr → List Span
  | .function _ params body => params.map Param.span ++ [body.span]
  | e => e.children.map Node.span

theorem Expr.span_mem_spans {e : Expr} {n : Node} (h : n ∈ e.children) : n.span ∈ e.spans := by
  cases e with
  | function name params body =>
    obtain rfl := List.mem_singleton.mp h
    exact List.mem_append_right _ (List.mem_singleton_self _)
  | _ => exact List.mem_map_of_mem h

namespace Grammar

/-- Whether a block can begin after a token of this kind. -/
def opensBlock (k : Kind) : Bool := k.isKeyword .then || k.isKeyword .else || k.isMark .rightParen

/-- Spans of rows of the tokens, one after the other, and of blocks without statements between
them. -/
inductive Along : List Token → List Span → Prop where
  | nil {ts : List Token} : Along ts []
  | row {gap row rest : List Token} {spans : List Span} (hrow : row ≠ []) (h : Along rest spans) :
      Along (gap ++ (row ++ rest)) (covering row :: spans)
  | hollow {gap rest : List Token} {t s : Token} {spans : List Span}
      (ht : opensBlock t.kind = true) (hs : s.kind = .mark .separator) (h : Along rest spans) :
      Along (gap ++ t :: s :: rest) (.emptyAt t.span.stop :: spans)

namespace Along

variable {ts us : List Token} {spans spans' : List Span}

theorem append_left (h : Along us spans) (ts : List Token) : Along (ts ++ us) spans := by
  cases h with
  | nil => exact .nil
  | row hrow h => rw [← List.append_assoc]; exact .row hrow h
  | hollow ht hs h => rw [← List.append_assoc]; exact .hollow ht hs h

theorem cons (h : Along ts spans) (t : Token) : Along (t :: ts) spans := h.append_left [t]

theorem append (h : Along ts spans) (h' : Along us spans') :
    Along (ts ++ us) (spans ++ spans') := by
  induction h with
  | nil => exact h'.append_left _
  | row hrow _ ih =>
    rw [List.append_assoc, List.append_assoc]
    exact .row hrow ih
  | hollow ht hs _ ih =>
    rw [List.append_assoc]
    exact .hollow ht hs ih

theorem append_right (h : Along ts spans) (us : List Token) : Along (ts ++ us) spans := by
  simpa using h.append (@Along.nil us)

theorem one (hts : ts ≠ []) : Along ts [covering ts] := by
  simpa using @Along.row [] _ [] _ hts .nil

/-- What lies along tokens begins and ends among them. -/
theorem within (h : Along ts spans) (ho : InOrder ts) (hstop : ∀ t ∈ ts, t.kind ≠ .mark .stop)
    {s : Span} (hs : s ∈ spans) :
    (∃ t ∈ ts, t.span.start.index ≤ s.start.index) ∧
      ∃ t ∈ ts, s.stop.index ≤ t.span.stop.index := by
  induction h with
  | nil => cases hs
  | @row gap row rest spans hrow _ ih =>
    rcases List.mem_cons.mp hs with rfl | hs
    · obtain ⟨t, ht, hfirst⟩ := covering_first hrow
      obtain ⟨u, hu, hlast⟩ := covering_last hrow
      have hfirst := hfirst []
      rw [List.append_nil] at hfirst
      exact ⟨⟨t, by simp [ht], by rw [hfirst]⟩, u, by simp [hu], by rw [← hlast []]; rfl⟩
    · obtain ⟨⟨t, ht, htle⟩, u, hu, hule⟩ :=
        ih ho.right.right (fun t ht => hstop t (by simp [ht])) hs
      exact ⟨⟨t, by simp [ht], htle⟩, u, by simp [hu], hule⟩
  | @hollow gap rest t sep spans _ _ _ ih =>
    rcases List.mem_cons.mp hs with rfl | hs
    · have hlt := ho.2 t (by simp) (hstop t (by simp))
      exact ⟨⟨t, by simp, Nat.le_of_lt hlt⟩, t, by simp, Nat.le_refl _⟩
    · obtain ⟨⟨u, hu, hule⟩, v, hv, hvle⟩ :=
        ih ho.right.tail.tail (fun t ht => hstop t (by simp [ht])) hs
      exact ⟨⟨u, by simp [hu], hule⟩, v, by simp [hv], hvle⟩

theorem pairwise (h : Along ts spans) (ho : InOrder ts) (hstop : ∀ t ∈ ts, t.kind ≠ .mark .stop) :
    spans.Pairwise fun a b => a.stop.index ≤ b.start.index := by
  induction h with
  | nil => exact .nil
  | @row gap row rest spans hrow h ih =>
    have hrest := ho.right.right
    have hstop' : ∀ t ∈ rest, t.kind ≠ .mark .stop := fun t ht => hstop t (by simp [ht])
    refine List.pairwise_cons.mpr ⟨fun s hs => ?_, ih hrest hstop'⟩
    obtain ⟨u, hu, hlast⟩ := covering_last hrow
    obtain ⟨⟨t, ht, hle⟩, -⟩ := h.within hrest hstop' hs
    have hbefore := (List.pairwise_append.mp ho.right.1).2.2 u hu t ht
    rw [← List.nil_append row, hlast []]
    exact Nat.le_trans hbefore hle
  | @hollow gap rest t sep spans _ _ h ih =>
    have hrest := ho.right.tail.tail
    have hstop' : ∀ t ∈ rest, t.kind ≠ .mark .stop := fun t ht => hstop t (by simp [ht])
    refine List.pairwise_cons.mpr ⟨fun s hs => ?_, ih hrest hstop'⟩
    obtain ⟨⟨u, hu, hle⟩, -⟩ := h.within hrest hstop' hs
    have hbefore := (List.pairwise_cons.mp ho.right.1).1 u (by simp [hu])
    exact Nat.le_trans hbefore hle

theorem ne_nil (h : Along ts spans) {s : Span} (hs : s ∈ spans) : ts ≠ [] := by
  cases h with
  | nil => cases hs
  | row hrow _ => simp [hrow]
  | hollow _ _ _ => simp

end Along

end Grammar

namespace InOrder

variable {ts : List Token} {t : Token}

theorem start_le (ho : InOrder ts) (hstop : ∀ t ∈ ts, t.kind ≠ .mark .stop) (ht : t ∈ ts) :
    (covering ts).start.index ≤ t.span.start.index := by
  obtain ⟨first, rest, rfl⟩ := List.exists_cons_of_ne_nil (List.ne_nil_of_mem ht)
  rcases List.mem_cons.mp ht with rfl | ht
  · exact Nat.le_refl _
  · have hlt := ho.2 first (by simp) (hstop first (by simp))
    exact Nat.le_trans (Nat.le_of_lt hlt) ((List.pairwise_cons.mp ho.1).1 t ht)

theorem stop_le (ho : InOrder ts) (hstop : ∀ t ∈ ts, t.kind ≠ .mark .stop) (ht : t ∈ ts) :
    t.span.stop.index ≤ (covering ts).stop.index := by
  obtain ⟨init, last, rfl⟩ : ∃ init last, ts = init ++ [last] :=
    ⟨_, _, (List.dropLast_append_getLast (List.ne_nil_of_mem ht)).symm⟩
  have hend : (covering (init ++ [last])).stop = last.span.stop := by simp [covering]
  rw [hend]
  rcases List.mem_append.mp ht with ht | ht
  · have hlt := ho.2 last (by simp) (hstop last (by simp))
    have hbefore := (List.pairwise_append.mp ho.1).2.2 t ht last (by simp)
    exact Nat.le_trans hbefore (Nat.le_of_lt hlt)
  · obtain rfl := List.mem_singleton.mp ht
    exact Nat.le_refl _

theorem inside (ho : InOrder ts) (hstop : ∀ t ∈ ts, t.kind ≠ .mark .stop) (ht : t ∈ ts) :
    t.span.Inside (covering ts) :=
  ⟨ho.start_le hstop ht, ho.stop_le hstop ht⟩

/-- The end of a text adds nothing before the tokens. -/
theorem covering_inside {e : Token} (ho : InOrder (ts ++ [e])) (hne : ts ≠ [])
    (he : e.span.start.index ≤ e.span.stop.index) :
    (covering ts).Inside (covering (ts ++ [e])) := by
  obtain ⟨t, ht, hlast⟩ := covering_last hne
  have hstop : (covering ts).stop = t.span.stop := hlast []
  have hend : (covering (ts ++ [e])).stop = e.span.stop := by simp [covering]
  have hbefore := (List.pairwise_append.mp ho.1).2.2 t ht e (by simp)
  refine ⟨Nat.le_of_eq (congrArg Position.index (covering_start_append hne [e])), ?_⟩
  rw [hstop, hend]
  exact Nat.le_trans hbefore he

end InOrder

namespace Grammar

variable {ts us : List Token} {k : Kind} {n : Node}

theorem Along.nested {spans : List Span} (h : Along ts spans) (ho : InOrder ts)
    (hstop : ∀ t ∈ ts, t.kind ≠ .mark .stop) : Nested (covering ts) spans := by
  refine ⟨fun s hs => ?_, h.pairwise ho hstop⟩
  obtain ⟨⟨t, ht, hstart⟩, u, hu, hend⟩ := h.within ho hstop hs
  exact ⟨Nat.le_trans (ho.start_le hstop ht) hstart, Nat.le_trans hend (ho.stop_le hstop hu)⟩

/-- The spans of what a phrase is made of lie along its tokens. The token before a block, which the
span of the block may begin at, is not among them. -/
def Phrase.LiesAlong : Phrase → List Token → Prop
  | .node _ n, ts | .operands _ n, ts | .applied _ n, ts => Along ts n.expr.spans
  | .items ns, ts | .further ns, ts | .lines _ ns, ts => Along ts (ns.map Node.span)
  | .block _ opened n, ts | .body opened n, ts | .routine opened n, ts =>
    ∀ t : Token, t.span.stop = opened → opensBlock t.kind = true → Along (t :: ts) [n.span]
  | .step s, ts => Along ts (s.toList.map Node.span)
  | .arm _ test inner, ts => Along ts [test.span, inner.span]
  | .branches bs otherwise, ts =>
    Along ts ((bs.flatMap fun b => [b.1.span, b.2.span]) ++ otherwise.toList.map Node.span)

theorem Reads.along {level : Level} (h : Reads (.node level n) ts k) (ho : InOrder ts) :
    Along ts [n.span] := by
  have hspan : n.span = covering ts := h.spanned ho
  rw [hspan]
  exact .one h.ne_nil

theorem FurtherParams.along {ps : List Param} (h : FurtherParams ps ts) :
    Along ts (ps.map Param.span) := by
  induction h with
  | nil => exact .nil
  | @cons c t name ps ts _ _ _ ih => exact @Along.row [c] [t] _ _ (by simp) ih

theorem Params.along {ps : List Param} (h : Params ps ts) : Along ts (ps.map Param.span) := by
  cases h with
  | nil => exact .nil
  | @cons t name ps ts _ h => exact @Along.row [] [t] _ _ (by simp) h.along

theorem literal?_spans {e : Expr} (h : literal? k = some e) : e.spans = [] := by
  cases k with
  | keyword w => simp [literal?] at h
  | mark m => simp [literal?] at h
  | _ =>
    obtain rfl := Option.some.inj h
    rfl

theorem Rows.along {ns : List Node} (h : Rows ns ts) (ho : InOrder ts) :
    Along ts (ns.map Node.span) := by
  induction h with
  | one h => exact h.along ho
  | @more n ns ts seps us h hs _ ih =>
    exact (h.along ho.left).append ((ih ho.right.right).append_left seps)

theorem Reads.lines_along {close : List Keyword} {ns : List Node}
    (h : Reads (.lines close ns) ts k) (ho : InOrder ts) : Along ts (ns.map Node.span) := by
  rcases h.lines_ends with ⟨rfl, rfl⟩ | ⟨row, seps, rfl, hrow⟩
  · exact .nil
  · exact (hrow.along ho.left).append_right seps

theorem Reads.liesAlong {p : Phrase} (h : Reads p ts k) :
    InOrder ts → p.Begins ts → p.LiesAlong ts := by
  induction h with
  | literal h =>
    intro _ _
    simp only [Phrase.LiesAlong, Node.expr, literal?_spans h]
    exact .nil
  | returnNothing | «continue» | «break» | noStep | noItems | noFurther | noLines =>
    exact fun _ _ => .nil
  | parens _ _ _ ih | list _ _ _ ih =>
    exact fun ho _ => ((ih ho.tail.left trivial).append_right _).cons _
  | ifElse _ _ ih =>
    intro ho _
    simpa [Phrase.LiesAlong, Node.expr, Expr.spans, Expr.children, List.map_flatMap] using
      (ih ho.tail trivial).cons _
  | target _ ih | base _ _ ih | unsigned _ ih | first _ ih | chain _ _ _ ih | expression _ ih =>
    exact fun ho _ => ih ho trivial
  | application _ _ _ ih => exact fun ho _ => ih ho rfl
  | whileDo hw h₁ ht h₂ _ ih₂ =>
    intro ho _
    have hbody := ih₂ ho.tail.right.tail trivial _ rfl (by simp [opensBlock, ht, Kind.isKeyword])
    exact ((h₁.along ho.tail.left).append hbody).cons _
  | forTo hw hv hq h₁ hu h₂ h₃ ht h₄ _ _ ih₃ ih₄ =>
    intro ho _
    have ho := ho.tail.tail.tail
    have hrest := ho.right.tail.right
    have hbody := ih₄ hrest.right.tail trivial _ rfl (by simp [opensBlock, ht, Kind.isKeyword])
    have hlimit := (h₂.along ho.right.tail.left).append ((ih₃ hrest.left trivial).append hbody)
    simpa [Phrase.LiesAlong, Node.expr, Expr.spans, Expr.children] using
      ((((h₁.along ho.left).append (hlimit.cons _)).cons _).cons _).cons _
  | function hw hn hp' hp hc h ih =>
    intro ho _
    have hbody := ih ho.tail.right.tail.right.tail trivial _ rfl
      (by simp [opensBlock, hc, Kind.isMark])
    exact (((hp.along.append hbody).cons _).append_left _).cons _
  | step _ h _ | signed _ h _ | not _ h _ | returnValue _ h _ =>
    exact fun ho _ => (h.along ho.tail).cons _
  | arrow _ h _ => exact fun ho _ _ _ _ => ((h.along ho.tail).cons _).cons _
  | rebind _ _ h _ => exact fun ho _ => ((h.along ho.tail.tail).cons _).cons _
  | declare _ _ _ h _ => exact fun ho _ => (((h.along ho.tail.tail.tail).cons _).cons _).cons _
  | routine _ _ ih | lined _ _ ih =>
    exact fun ho _ t ht hk => (ih ho.left trivial t ht hk).append_right _
  | inline h _ => exact fun ho _ _ _ _ => (h.along ho).cons _
  | @call start f args o c ts us k hf _ _ _ _ iha =>
    rintro ho rfl
    have hspan := hf.spanned ho.left (covering_start_append hf.applied_ne_nil _)
    have hargs := ((iha ho.right.tail.left trivial).append_right [c]).cons o
    simp only [Phrase.LiesAlong, Node.expr, Expr.spans, Expr.children, List.map_cons, hspan]
    exact (Along.one hf.applied_ne_nil).append hargs
  | @index start target place o c ts us k ht _ hp _ _ _ =>
    rintro ho rfl
    have hspan := ht.spanned ho.left (covering_start_append ht.applied_ne_nil _)
    have hplace := ((hp.along ho.right.tail.left).append_right [c]).cons o
    simp only [Phrase.LiesAlong, Node.expr, Expr.spans, Expr.children, List.map_cons, hspan]
    exact (Along.one ht.applied_ne_nil).append hplace
  | power hb _ hx _ _ =>
    exact fun ho _ => (hb.along ho.left).append ((hx.along ho.right.tail).cons _)
  | @joined chain op l r o ts us k hl _ hr _ _ =>
    intro ho _
    have hspan : l.span = covering ts := hl.spanned ho.left
    have hright := (hr.along ho.right.tail).cons o
    simp only [Phrase.LiesAlong, Grammar.joined, Node.expr, Expr.spans, Expr.children,
      List.map_cons, hspan]
    exact (Along.one hl.operands_ne_nil).append hright
  | items h _ _ ihr =>
    exact fun ho _ => (h.along ho.left).append (ihr ho.right trivial)
  | further _ h _ _ ihr =>
    exact fun ho _ => ((h.along ho.tail.left).append (ihr ho.tail.right trivial)).cons _
  | lastLine h _ _ => exact fun ho _ => h.along ho
  | line h _ hr _ _ =>
    exact fun ho _ => (h.along ho.left).append ((hr.lines_along ho.right.right).append_left _)
  | @block close opened ns seps ts k hs hl hk _ =>
    rintro ho - t rfl ht
    rcases hl.lines_ends with ⟨rfl, rfl⟩ | ⟨row, tail, rfl, hrow⟩
    · obtain ⟨sep, seps, rfl⟩ := List.exists_cons_of_ne_nil hs.1
      exact @Along.hollow [] _ _ _ _ ht (hs.2 sep (by simp)) .nil
    · have hspan := hrow.spanOf ho.right.left (.emptyAt t.span.stop)
      have hrows := (Along.one hrow.ne_nil).append_right tail
      simp only [Node.span, hspan]
      exact (hrows.append_left seps).cons t
  | armLined h₁ ht _ _ ih₂ =>
    intro ho _
    have hbody := ih₂ ho.right.tail trivial _ rfl (by simp [opensBlock, ht, Kind.isKeyword])
    exact (h₁.along ho.left).append hbody
  | armInline h₁ _ h₂ _ _ =>
    exact fun ho _ => (h₁.along ho.left).append ((h₂.along ho.right.tail).cons _)
  | closed _ _ ih => exact fun ho _ => (ih ho.left trivial).append_right _
  | only _ _ _ ih => exact fun ho _ => ih ho trivial
  | elif _ _ _ ih ihr =>
    intro ho _
    exact (ih ho.left trivial).append ((ihr ho.right.tail trivial).cons _)
  | otherwise _ he _ ih ihr =>
    intro ho _
    have hbody := ihr ho.right.tail trivial _ rfl (by simp [opensBlock, he, Kind.isKeyword])
    exact (ih ho.left trivial).append hbody

/-- Where a node stands in the tokens: from a token to a token, or, as a block without statements,
at the end of the token before the newline that begins it. -/
inductive Seated (tokens : List Token) : Node → Prop where
  | filled {e : Expr} {row : List Token} (he : e ≠ .block []) (hne : row ≠ [])
      (hrow : row <:+: tokens) : Seated tokens (.mk e (covering row))
  | hollow {t s : Token} (ht : opensBlock t.kind = true) (hs : s.kind = .mark .separator)
      (hrow : [t, s] <:+: tokens) : Seated tokens (.mk (.block []) (.emptyAt t.span.stop))

theorem Seated.mono {tokens all : List Token} (h : Seated tokens n) (hall : tokens <:+: all) :
    Seated all n := by
  cases h with
  | filled he hne hrow => exact .filled he hne (hrow.trans hall)
  | hollow ht hs hrow => exact .hollow ht hs (hrow.trans hall)

/-- Only the span of a block without statements is empty. -/
theorem Along.hollow_of_empty {spans : List Span} (h : Along ts spans) (ho : InOrder ts)
    (hstop : ∀ t ∈ ts, t.kind ≠ .mark .stop) {p : Position} (hs : .emptyAt p ∈ spans) :
    ∃ t s, opensBlock t.kind = true ∧ s.kind = .mark .separator ∧ [t, s] <:+: ts ∧
      p = t.span.stop := by
  induction h with
  | nil => cases hs
  | @row gap row rest spans hrow _ ih =>
    rcases List.mem_cons.mp hs with hs | hs
    · have hin := ho.right.left
      obtain ⟨t, ht⟩ := List.exists_mem_of_ne_nil row hrow
      have hlt := hin.2 t ht (hstop t (by simp [ht]))
      have hcover := hin.inside (fun t ht => hstop t (by simp [ht])) ht
      rw [← hs] at hcover
      exact absurd (Nat.le_trans hcover.2 hcover.1) (Nat.not_le.mpr hlt)
    · obtain ⟨t, s, ht, hsep, hrow, hp⟩ :=
        ih ho.right.right (fun t ht => hstop t (by simp [ht])) hs
      exact ⟨t, s, ht, hsep, hrow.trans ((List.suffix_append _ _).trans
        (List.suffix_append _ _)).isInfix, hp⟩
  | @hollow gap rest t sep spans ht hsep _ ih =>
    rcases List.mem_cons.mp hs with hs | hs
    · exact ⟨t, sep, ht, hsep, ⟨gap, rest, by simp⟩, congrArg Span.start hs⟩
    · obtain ⟨t', s, ht, hsep, hrow, hp⟩ :=
        ih ho.right.tail.tail (fun t ht => hstop t (by simp [ht])) hs
      exact ⟨t', s, ht, hsep, hrow.trans ((List.suffix_append [t, sep] _).trans
        (List.suffix_append gap _)).isInfix, hp⟩

/-- What a node is made of lies along the tokens under it. -/
theorem Stands.along {all : List Token} (h : Stands all n) (ho : InOrder all) :
    ∃ row, row <:+: all ∧ (∀ t ∈ row, t.kind ≠ .mark .stop) ∧ Along row n.expr.spans ∧
      (n.expr.spans ≠ [] → n.span = covering row) := by
  cases h with
  | @alone row hrow h =>
    have hin := ho.sublist hrow.sublist
    exact ⟨row, hrow, h.no_stop, h.liesAlong hin trivial, fun _ => h.spanned hin⟩
  | @block close opened row k hrow h =>
    rcases h.block_covers (ho.sublist hrow.sublist) with rfl | ⟨ns, front, rows, back, rfl, hr, rfl⟩
    · exact ⟨[], List.nil_infix, by simp, .nil, fun h => absurd rfl h⟩
    · have hrows : rows <:+: all := (List.infix_append front rows back).trans (by simpa using hrow)
      exact ⟨rows, hrows, hr.no_stop, hr.along (ho.sublist hrows.sublist), fun _ => rfl⟩

theorem Stands.nested {all : List Token} (h : Stands all n) (ho : InOrder all) :
    Nested n.span n.expr.spans := by
  obtain ⟨row, hrow, hstop, halong, hspan⟩ := h.along ho
  by_cases hnil : n.expr.spans = []
  · rw [hnil]
    exact ⟨List.forall_mem_nil _, .nil⟩
  · rw [hspan hnil]
    exact halong.nested (ho.sublist hrow.sublist) hstop

theorem Stands.seated {all : List Token} (h : Stands all n) (ho : InOrder all) :
    Seated all n ∨ ∃ p, n = .mk (.block []) (.emptyAt p) := by
  obtain ⟨e, span⟩ := n
  cases h with
  | @alone row hrow h =>
    have hspan : span = covering row := h.spanned (ho.sublist hrow.sublist)
    have hplain : (Node.mk e span).isBlock = false := h.plain
    subst hspan
    refine .inl (.filled ?_ h.ne_nil hrow)
    rintro rfl
    cases hplain
  | @block close opened row k hrow h =>
    rcases h.block_covers (ho.sublist hrow.sublist) with he | ⟨ns, front, rows, back, he, hr, rfl⟩
    · exact .inr ⟨_, he⟩
    · obtain ⟨rfl, rfl⟩ := Node.mk.inj he
      have hinside : rows <:+: _ := (List.infix_append front rows back).trans (by simpa using hrow)
      refine .inl (.filled ?_ hr.ne_nil hinside)
      rintro ⟨⟩
      cases hr

end Grammar

namespace Node

/-- A part of a node is the node, or a child of a part. -/
theorem PartOf.eq_or_child {n whole : Node} (h : n.PartOf whole) :
    n = whole ∨ ∃ m : Node, m.PartOf whole ∧ n ∈ m.expr.children := by
  induction h with
  | self => exact .inl rfl
  | @child m whole hm _ ih =>
    rcases ih with rfl | ⟨k, hk, hn⟩
    · exact .inr ⟨whole, .self whole, hm⟩
    · exact .inr ⟨k, .child hm hk, hn⟩

/-- A part lies inside a node where all parts lie inside what they are part of. -/
theorem PartOf.inside {n whole : Node} (hs : ∀ m : Node, m.PartOf whole →
    ∀ s ∈ m.expr.spans, s.Inside m.span) (h : n.PartOf whole) : n.span.Inside whole.span := by
  induction h with
  | self => exact ⟨Nat.le_refl _, Nat.le_refl _⟩
  | child hm _ ih =>
    exact (ih fun k hk => hs k (.child hm hk)).trans
      (hs _ (.self _) _ (Expr.span_mem_spans hm))

end Node

namespace Grammar

variable {ts : List Token} {ns : List Node}

theorem Rows.plain (h : Rows ns ts) {n : Node} (hn : n ∈ ns) : n.isBlock = false := by
  induction h with
  | one h =>
    obtain rfl := List.mem_singleton.mp hn
    exact h.plain
  | more h _ _ ih =>
    rcases List.mem_cons.mp hn with rfl | hn
    · exact h.plain
    · exact ih hn

/-- Every part of some statements is seated. -/
theorem Reads.seated {close : List Keyword} {k : Kind} (h : Reads (.lines close ns) ts k)
    (ho : InOrder ts) {m n : Node} (hm : m ∈ ns) (hn : n.PartOf m) : Seated ts n := by
  have hstands := h.parts List.infix_rfl trivial m hm
  rcases (hstands n hn).seated ho with hseated | ⟨p, rfl⟩
  · exact hseated
  rcases hn.eq_or_child with rfl | ⟨parent, hpart, hchild⟩
  · rcases h.lines_ends with ⟨rfl, -⟩ | ⟨row, seps, -, hrow⟩
    · cases hm
    · cases hrow.plain hm
  · obtain ⟨row, hrow, hstop, halong, -⟩ := (hstands parent hpart).along ho
    obtain ⟨t, s, ht, hs, hts, rfl⟩ := halong.hollow_of_empty (ho.sublist hrow.sublist) hstop
      (Expr.span_mem_spans hchild)
    exact .hollow ht hs (hts.trans hrow)

theorem Reads.covers {level : Level} {n : Node} {k : Kind} (h : Reads (.node level n) ts k)
    (ho : InOrder ts) {t : Token} (ht : t ∈ ts) : t.span.Inside n.span := by
  have hspan : n.span = covering ts := h.spanned ho
  exact hspan ▸ ho.inside h.no_stop ht

/-- Every token but for separators belongs to a statement. -/
theorem Reads.lines_cover {close : List Keyword} {k : Kind} (h : Reads (.lines close ns) ts k)
    (ho : InOrder ts) {t : Token} (ht : t ∈ ts) (hk : t.kind ≠ .mark .separator) :
    ∃ n ∈ ns, t.span.Inside n.span := by
  generalize hp : Phrase.lines close ns = p at h
  induction h generalizing ns with
  | noLines _ => cases ht
  | @lastLine close n ts k h _ _ =>
    obtain ⟨-, rfl⟩ := Phrase.lines.inj hp
    exact ⟨n, List.mem_singleton_self n, h.covers ho ht⟩
  | @line close n ns ts seps us k h hs _ _ ih =>
    obtain ⟨rfl, rfl⟩ := Phrase.lines.inj hp
    rcases List.mem_append.mp ht with ht | ht
    · exact ⟨n, List.mem_cons_self .., h.covers ho.left ht⟩
    · rcases List.mem_append.mp ht with ht | ht
      · exact absurd (hs.2 t ht) hk
      · obtain ⟨m, hm, hin⟩ := ih ho.right.right ht rfl
        exact ⟨m, List.mem_cons_of_mem _ hm, hin⟩
  | _ => cases hp

end Grammar

/-- What is not empty lies inside one of some spans in order only. -/
theorem Nested.unique {whole s : Span} {spans : List Span} (h : Nested whole spans)
    (hs : s.start.index < s.stop.index) {i j : Nat} (hi : i < spans.length) (hj : j < spans.length)
    (hsi : s.Inside spans[i]) (hsj : s.Inside spans[j]) : i = j := by
  have hbefore := List.pairwise_iff_getElem.mp h.2
  rcases Nat.lt_trichotomy i j with hlt | heq | hgt
  · have hle := hbefore i j hi hj hlt
    have hstop := hsi.2
    have hstart := hsj.1
    omega
  · exact heq
  · have hle := hbefore j i hj hi hgt
    have hstop := hsj.2
    have hstart := hsi.1
    omega

/-- The span of a program goes over all its tokens. -/
theorem Program.span_eq {ts : List Token} {e : Token} {p : Program} (he : e.kind = .mark .stop)
    (hstop : ∀ t ∈ ts, t.kind ≠ .mark .stop) (h : Program.ofTokens (ts ++ [e]) = .ok p) :
    p.span = covering (ts ++ [e]) := by
  obtain ⟨c', hrun⟩ := Program.ofTokens_ok he h
  obtain ⟨seps, row, hseps, ha, hr, hk⟩ := Grammar.program_sound hrun
  have hnone : ∀ t ∈ seps ++ row, t.kind ≠ .mark .stop := fun t ht =>
    (List.mem_append.mp ht).elim (fun ht => by simp [hseps t ht]) (hr.no_stop t)
  have hrest := (Program.append_stop_unique he hstop hnone (Cursor.kind_eq c' ▸ hk) ha.rest).2
  simp only [Grammar.program, Reader.here_bind, Reader.remaining_bind, Reader.bind_ok,
    Reader.atMark_bind] at hrun
  obtain ⟨ns, c₁, -, hrun⟩ := hrun
  split at hrun
  · obtain ⟨rfl, rfl⟩ := Prod.mk.inj (Except.ok.inj hrun)
    have hend : c₁.span.stop = (covering (ts ++ [e])).stop := by
      simp [covering, Cursor.span, hrest]
    have hstart : (Cursor.ofTokens (ts ++ [e])).span.start = (covering (ts ++ [e])).start := by
      cases ts <;> rfl
    rw [hend, hstart]
  · exact (Reader.fail_ok.mp hrun).elim

namespace Source

open Grammar

variable {s : Source} {p : Program}

/-- The statements of a program lie along its tokens, inside its span. -/
theorem statements_nested (h : s.program = .ok p) :
    ∃ seps row q, tokenize s.text = .ok (seps ++ row ++ [Lexer.ending q]) ∧
      (∀ t ∈ seps, t.kind = .mark .separator) ∧ InOrder (seps ++ row ++ [Lexer.ending q]) ∧
      Reads (.lines [] p.statements) row (.mark .stop) ∧
      Nested p.span (p.statements.map Node.span) := by
  obtain ⟨seps, row, q, htok, hseps, hr⟩ := program_rows h
  obtain ⟨tokens, htok', hp⟩ := program_ok h
  obtain rfl := Except.ok.inj (htok'.symm.trans htok)
  have ho := (Lexer.tokenize_iff.mp htok).inOrder.2
  have hstop : ∀ t ∈ seps ++ row, t.kind ≠ .mark .stop := fun t ht =>
    (List.mem_append.mp ht).elim (fun ht => by simp [hseps t ht]) (hr.no_stop t)
  refine ⟨seps, row, q, htok, hseps, ho, hr, ?_⟩
  have halong := (hr.lines_along ho.left.right).append_left seps
  have hnested := halong.nested ho.left hstop
  refine ⟨fun span hspan => (hnested.1 span hspan).trans ?_, hnested.2⟩
  rw [Program.span_eq rfl hstop hp]
  exact ho.covering_inside (halong.ne_nil hspan) (Nat.le_refl _)

/-- Every node of a program goes from a token to a token, but for the blocks without statements.
What it is made of lies inside it in order, its statements lie in order inside the program, and
each token that is no newline belongs to one of them. -/
theorem spans_nest (h : s.program = .ok p) :
    ∃ tokens, tokenize s.text = .ok tokens ∧
      (∀ m ∈ p.statements, ∀ n : Node, n.PartOf m →
        Seated tokens n ∧ Nested n.span n.expr.spans ∧ n.span.Inside p.span) ∧
      Nested p.span (p.statements.map Node.span) ∧
      ∀ t ∈ tokens, t.kind ≠ .mark .separator → t.kind ≠ .mark .stop →
        ∃! i : Fin p.statements.length, t.span.Inside p.statements[i].span := by
  obtain ⟨seps, row, q, htok, hseps, ho, hr, hnested⟩ := statements_nested h
  have hrow : row <:+: seps ++ row ++ [Lexer.ending q] := ⟨seps, [Lexer.ending q], rfl⟩
  have hin := ho.left.right
  refine ⟨_, htok, fun m hm n hn => ⟨?_, ?_, ?_⟩, hnested, fun t ht hsep hstop => ?_⟩
  · exact (hr.seated hin hm hn).mono hrow
  · exact (hr.parts List.infix_rfl trivial m hm n hn).nested hin
  · refine (Node.PartOf.inside (fun k hk => ?_) hn).trans
      (hnested.1 _ (List.mem_map_of_mem hm))
    exact ((hr.parts List.infix_rfl trivial m hm k hk).nested hin).1
  · have hmem : t ∈ row := by
      rcases List.mem_append.mp ht with ht | ht
      · exact (List.mem_append.mp ht).resolve_left fun ht => hsep (hseps t ht)
      · obtain rfl := List.mem_singleton.mp ht
        exact absurd rfl hstop
    have hlt := ho.2 t ht hstop
    obtain ⟨n, hn, hcover⟩ := hr.lines_cover hin hmem hsep
    obtain ⟨i, hi, rfl⟩ := List.getElem_of_mem hn
    refine ⟨⟨i, hi⟩, hcover, fun j hj => Fin.ext ?_⟩
    refine hnested.unique hlt (by simp) (by simpa using hi) (by simpa using hj) ?_
    simpa using hcover

/-- A function that does nothing, and a call of it. -/
def idle : Source := ⟨"main", "FUN f(a)\nEND\nf(1)"⟩

def idleBody : Node := .mk (.block []) (.emptyAt ⟨8, 0, 8⟩)

def idleFunction : Node :=
  .mk (.function (some "f") [⟨"a", ⟨⟨6, 0, 6⟩, ⟨7, 0, 7⟩⟩⟩] idleBody) ⟨⟨0, 0, 0⟩, ⟨12, 1, 3⟩⟩

def idleCall : Node :=
  .mk (.call (.mk (.var "f") ⟨⟨13, 2, 0⟩, ⟨14, 2, 1⟩⟩)
    [.mk (.int 1) ⟨⟨15, 2, 2⟩, ⟨16, 2, 3⟩⟩]) ⟨⟨13, 2, 0⟩, ⟨17, 2, 4⟩⟩

theorem idle_program :
    idle.program = .ok ⟨[idleFunction, idleCall], ⟨⟨0, 0, 0⟩, ⟨17, 2, 4⟩⟩⟩ := by
  cbv

theorem spans_nest_idle : idleBody.PartOf idleFunction ∧
    ∃ tokens, tokenize idle.text = .ok tokens ∧ Seated tokens idleBody ∧
      Nested idleFunction.span [⟨⟨6, 0, 6⟩, ⟨7, 0, 7⟩⟩, idleBody.span] ∧
      Nested ⟨⟨0, 0, 0⟩, ⟨17, 2, 4⟩⟩ [idleFunction.span, idleCall.span] := by
  have hpart : idleBody.PartOf idleFunction := .child (List.mem_singleton_self _) (.self _)
  obtain ⟨tokens, htok, hparts, hstatements, -⟩ := spans_nest idle_program
  have hfunction : idleFunction ∈ [idleFunction, idleCall] := List.mem_cons_self ..
  exact ⟨hpart, tokens, htok, (hparts _ hfunction _ hpart).1,
    (hparts _ hfunction _ (.self _)).2.1, hstatements⟩

end Source

end Scriptlet
