import Scriptlet.Proofs.Grammar.Ending

/-!
# The span of a node

The span of a node goes from its first token to its last, whatever rule it was
read by: what a reader remembers of where it began and ended, and what joined
operands give, come to the same. A block begins and ends with its statements,
without the separators around them.
-/

set_option autoImplicit false

namespace Scriptlet

open Token (Kind)

variable {ts mid us : List Token}

theorem endFrom_eq (p : Position) (ts : List Token) :
    endFrom p ts = (ts.getLast?.map fun t => t.span.stop).getD p := by
  induction ts generalizing p with
  | nil => rfl
  | cons t ts ih => rw [endFrom_cons, ih, List.getLast?_cons]; cases ts.getLast? <;> rfl

theorem covering_cons (t : Token) (ts : List Token) :
    covering (t :: ts) = ⟨t.span.start, endFrom t.span.stop ts⟩ := by
  rw [endFrom_eq]
  show Span.mk _ _ = _
  rw [List.getLast?_cons]
  cases ts.getLast? <;> rfl

theorem covering_first (h : ts ≠ []) :
    ∃ t ∈ ts, ∀ us, (covering (ts ++ us)).start = t.span.start := by
  obtain ⟨t, ts, rfl⟩ := List.exists_cons_of_ne_nil h
  exact ⟨t, by simp, fun _ => rfl⟩

theorem covering_last (h : ts ≠ []) :
    ∃ t ∈ ts, ∀ us, (covering (us ++ ts)).stop = t.span.stop := by
  obtain ⟨init, t, rfl⟩ : ∃ init t, ts = init ++ [t] :=
    ⟨_, _, (List.dropLast_append_getLast h).symm⟩
  exact ⟨t, by simp, fun us => by simp [covering]⟩

theorem covering_start_append (h : ts ≠ []) (us : List Token) :
    (covering (ts ++ us)).start = (covering ts).start := by
  obtain ⟨t, -, ht⟩ := covering_first h
  rw [ht us, ← ht [], List.append_nil]

theorem InOrder.sublist (h : InOrder us) (hs : ts.Sublist us) : InOrder ts :=
  ⟨h.1.sublist hs, fun t ht => h.2 t (hs.subset ht)⟩

theorem InOrder.left (h : InOrder (ts ++ us)) : InOrder ts :=
  h.sublist (List.sublist_append_left _ _)

theorem InOrder.right (h : InOrder (ts ++ us)) : InOrder us :=
  h.sublist (List.sublist_append_right _ _)

theorem InOrder.tail {t : Token} (h : InOrder (t :: ts)) : InOrder ts :=
  h.sublist (List.sublist_cons_self _ _)

/-- The least span around two rows of tokens, one before the other. -/
theorem covering_merge (h : InOrder (ts ++ (mid ++ us))) (hts : ts ≠ []) (hus : us ≠ [])
    (hs : ∀ t ∈ ts, t.kind ≠ .mark .stop) (hs' : ∀ u ∈ us, u.kind ≠ .mark .stop) :
    (covering ts).merge (covering us) = covering (ts ++ (mid ++ us)) := by
  obtain ⟨t, ht, hfirst⟩ := covering_first hts
  obtain ⟨t', ht', hend⟩ := covering_last hts
  obtain ⟨u, hu, hbegin⟩ := covering_first hus
  obtain ⟨u', hu', hlast⟩ := covering_last hus
  have hbefore : ∀ a ∈ ts, ∀ b ∈ us, a.span.stop.index ≤ b.span.start.index :=
    fun a ha b hb => (List.pairwise_append.mp h.1).2.2 a ha b (List.mem_append_right _ hb)
  have hstart : t.span.start.index ≤ u.span.start.index :=
    Nat.le_trans (Nat.le_of_lt (h.2 t (by simp [ht]) (hs t ht))) (hbefore t ht u hu)
  have hstop : t'.span.stop.index < u'.span.stop.index :=
    Nat.lt_of_le_of_lt (hbefore t' ht' u' hu') (h.2 u' (by simp [hu']) (hs' u' hu'))
  have hts' : covering ts = ⟨t.span.start, t'.span.stop⟩ := by
    rw [← hfirst [], ← hend [], List.append_nil, List.nil_append]
  have hus' : covering us = ⟨u.span.start, u'.span.stop⟩ := by
    rw [← hbegin [], ← hlast [], List.append_nil, List.nil_append]
  have hall : covering (ts ++ (mid ++ us)) = ⟨t.span.start, u'.span.stop⟩ := by
    rw [← hfirst (mid ++ us), ← hlast (ts ++ mid), List.append_assoc]
  rw [hts', hus', hall, Span.merge, if_neg (Nat.not_lt.mpr hstart), if_pos hstop]

namespace Grammar

/-- The span of what was read goes over all its tokens. -/
def Spanned : Phrase → List Token → Prop
  | .node _ n, ts | .operands _ n, ts => n.span = covering ts
  | .applied start n, ts => start = (covering ts).start → n.span = covering ts
  | _, _ => True

theorem Reads.applied_ne_nil {start : Position} {n : Node} {k : Kind}
    (h : Reads (.applied start n) ts k) : ts ≠ [] := by
  obtain ⟨t, us, rfl, -⟩ := h.opens
  simp

theorem Reads.operands_ne_nil {chain : Chain} {n : Node} {k : Kind}
    (h : Reads (.operands chain n) ts k) : ts ≠ [] := by
  obtain ⟨t, us, rfl, -⟩ := h.opens
  simp

theorem Reads.spanned {p : Phrase} {k : Kind} (h : Reads p ts k) : InOrder ts → Spanned p ts := by
  induction h with
  | literal | returnNothing | «continue» | «break» => exact fun _ => rfl
  | parens | list | ifElse | forTo | whileDo | function | declare | rebind | returnValue | not
  | signed =>
    intro _
    show Span.mk _ _ = _
    simp [covering_cons]
  | target _ ih => exact fun ho _ => ih ho
  | call hf _ _ _ _ _ | index hf _ _ _ _ _ =>
    rintro ho rfl
    show Span.mk _ _ = _
    simp [covering, List.getLast?_cons]
  | application _ _ _ ih => exact fun ho => ih ho rfl
  | base _ _ ih | unsigned _ ih | first _ ih | expression _ ih => exact ih
  | chain _ _ _ ih => exact ih
  | power hb _ hx ihb ihx =>
    intro ho
    show Span.merge _ _ = _
    rw [ihb ho.left, ihx ho.right.tail]
    exact @covering_merge _ [_] _ ho hb.ne_nil hx.ne_nil hb.no_stop hx.no_stop
  | joined hl _ hr ihl ihr =>
    intro ho
    show Span.merge _ _ = _
    rw [ihl ho.left, ihr ho.right.tail]
    exact @covering_merge _ [_] _ ho hl.operands_ne_nil hr.ne_nil hl.no_stop hr.no_stop
  | _ => exact fun _ => trivial

theorem Rows.no_stop {ns : List Node} (h : Rows ns ts) : ∀ t ∈ ts, t.kind ≠ .mark .stop :=
  h.lines.no_stop

/-- The last of some statements ends with their last token. -/
theorem Rows.last {ns : List Node} (h : Rows ns ts) (ho : InOrder ts) :
    ∃ front row n, ts = front ++ row ∧ row ≠ [] ∧ ns.getLast? = some n ∧
      n.span = covering row := by
  induction h with
  | @one n ts h => exact ⟨[], ts, n, rfl, h.ne_nil, rfl, h.spanned ho⟩
  | @more n ns ts seps us h hs hr ih =>
    obtain ⟨front, row, m, rfl, hrow, hm, hspan⟩ := ih ho.right.right
    exact ⟨ts ++ (seps ++ front), row, m, by simp, hrow, by simp [List.getLast?_cons, hm], hspan⟩

theorem Rows.spanOf {ns : List Node} (h : Rows ns ts) (ho : InOrder ts) (d : Span) :
    Grammar.spanOf d ns = covering ts := by
  cases h with
  | @one n ts h =>
    show n.span.merge n.span = _
    rw [h.spanned ho]
    simp [Span.merge]
  | @more n ns ts seps us h hs hr =>
    obtain ⟨front, row, m, rfl, hrow, hm, hspan⟩ := hr.last ho.right.right
    have ho' : InOrder (ts ++ ((seps ++ front) ++ row)) := by simpa using ho
    have hstop : ∀ t ∈ row, t.kind ≠ .mark .stop := fun t ht => hr.no_stop t (by simp [ht])
    have hfirst : n.span = covering ts := h.spanned ho.left
    simp only [Grammar.spanOf, hm, Option.getD_some, hfirst, hspan]
    rw [covering_merge ho' h.ne_nil hrow h.no_stop hstop, List.append_assoc]

/-- What a block on lines of its own covers. -/
theorem Reads.block_covers {close : List Keyword} {opened : Position} {n : Node} {k : Kind}
    (h : Reads (.block close opened n) ts k) (ho : InOrder ts) :
    n = .mk (.block []) (.emptyAt opened) ∨
      ∃ ns front row back, n = .mk (.block ns) (covering row) ∧ Rows ns row ∧
        ts = front ++ (row ++ back) := by
  cases h with
  | @block _ _ ns seps ts _ hs hlines hk =>
    rcases hlines.ends with ⟨rfl, rfl⟩ | ⟨row, tail, rfl, hrow⟩
    · exact .inl rfl
    · right
      exact ⟨ns, seps, row, tail, by rw [hrow.spanOf ho.right.left], hrow, rfl⟩

end Grammar

end Scriptlet
