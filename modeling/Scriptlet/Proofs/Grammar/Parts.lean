import Scriptlet.Proofs.Grammar.Spans

/-!
# Where the parts of a node stand

Every node inside a tree was read from a row of the tokens by itself: as a
statement that could end a text, or else as a block on lines of its own.
-/

set_option autoImplicit false

namespace Scriptlet

open Token (Kind)

namespace Grammar

/-- A row of the tokens `all` is the node, read alone. -/
inductive Stands (all : List Token) (n : Node) : Prop where
  | alone {row : List Token} (hrow : row <:+: all)
      (h : Reads (.node .statement n) row (.mark .stop))
  | block {close : List Keyword} {opened : Position} {row : List Token} {k : Kind}
      (hrow : row <:+: all) (h : Reads (.block close opened n) row k)

/-- All parts of some nodes stand in the tokens. -/
def AllStand (all : List Token) (ns : List Node) : Prop :=
  ∀ n ∈ ns, ∀ part : Node, part.PartOf n → Stands all part

/-- The nodes that a phrase is made of. What is one node itself is made of its children. -/
def Phrase.inner : Phrase → List Node
  | .node _ n | .operands _ n | .applied _ n | .block _ _ n => n.expr.children
  | .items ns | .further ns | .lines _ ns => ns
  | .body _ n | .routine _ n => [n]
  | .step s => s.toList
  | .arm _ test inner => [test, inner]
  | .branches bs otherwise => (bs.flatMap fun b => [b.1, b.2]) ++ otherwise.toList

/-- Arguments are applied from the first token on. -/
def Phrase.Begins : Phrase → List Token → Prop
  | .applied start _, ts => start = (covering ts).start
  | _, _ => True

variable {all ts us : List Token} {k : Kind} {n : Node}

theorem infix_left (h : ts ++ us <:+: all) : ts <:+: all :=
  (List.prefix_append ts us).isInfix.trans h

theorem infix_right (h : ts ++ us <:+: all) : us <:+: all :=
  (List.suffix_append ts us).isInfix.trans h

theorem infix_tail {t : Token} (h : t :: ts <:+: all) : ts <:+: all :=
  (List.suffix_cons t ts).isInfix.trans h

theorem AllStand.append {ms ns : List Node} (hm : AllStand all ms) (hn : AllStand all ns) :
    AllStand all (ms ++ ns) :=
  fun n h => (List.mem_append.mp h).elim (hm n) (hn n)

theorem AllStand.cons {ns : List Node} (hn : AllStand all [n]) (h : AllStand all ns) :
    AllStand all (n :: ns) :=
  hn.append h

theorem Stands.whole (h : Stands all n) (hc : AllStand all n.expr.children) :
    AllStand all [n] := by
  intro m hm part hp
  obtain rfl := List.mem_singleton.mp hm
  cases hp with
  | self => exact h
  | child hmem hpart => exact hc _ hmem _ hpart

theorem Reads.whole {level : Level} (h : Reads (.node level n) ts k) (hts : ts <:+: all)
    (hc : AllStand all n.expr.children) : AllStand all [n] :=
  (Stands.alone hts (Reads.statement h.ends)).whole hc

theorem Reads.block_whole {close : List Keyword} {opened : Position}
    (h : Reads (.block close opened n) ts k) (hts : ts <:+: all)
    (hc : AllStand all n.expr.children) : AllStand all [n] :=
  (Stands.block hts h).whole hc

theorem Reads.operands_whole {chain : Chain} (h : Reads (.operands chain n) ts k)
    (hts : ts <:+: all) (hc : AllStand all n.expr.children) : AllStand all [n] :=
  (Stands.alone hts (Reads.ofChain chain .stop h.ends).statement).whole hc

theorem Reads.applied_whole (h : Reads (.applied (covering ts).start n) ts k)
    (hts : ts <:+: all) (hc : AllStand all n.expr.children) : AllStand all [n] := by
  have h' : Reads (.applied (covering ts).start n) ts (.mark .stop) := h.ends
  exact (Stands.alone hts (Reads.application h' (by simp) (by simp)).statement).whole hc

theorem literal?_children {e : Expr} (h : literal? k = some e) : e.children = [] := by
  cases k with
  | keyword w => simp [literal?] at h
  | mark m => simp [literal?] at h
  | _ =>
    obtain rfl := Option.some.inj h
    rfl

theorem Reads.parts {p : Phrase} (h : Reads p ts k) :
    ts <:+: all → p.Begins ts → AllStand all p.inner := by
  have hnil : AllStand all [] := nofun
  induction h with
  | literal h =>
    intro _ _
    simp only [Phrase.inner, Node.expr, literal?_children h]
    exact hnil
  | returnNothing | «continue» | «break» | noStep | noItems | noFurther | noLines =>
    exact fun _ _ => hnil
  -- One phrase inside, with nothing of its own.
  | parens _ _ _ ih | list _ _ _ ih =>
    exact fun hts _ => ih (infix_left (infix_tail hts)) trivial
  | ifElse _ _ ih => exact fun hts _ => ih (infix_tail hts) trivial
  | target _ ih | base _ _ ih | unsigned _ ih | first _ ih | chain _ _ _ ih | expression _ ih =>
    exact fun hts _ => ih hts trivial
  | application _ _ _ ih => exact fun hts _ => ih hts rfl
  | block hs h hk ih => exact fun hts _ => ih (infix_right hts) trivial
  | closed _ _ ih => exact fun hts _ => ih (infix_left hts) trivial
  | only _ _ _ ih => exact fun hts _ => ih hts trivial
  -- Nodes inside.
  | whileDo hw h₁ ht h₂ ih₁ ih₂ =>
    intro hts _
    have htest := infix_left (infix_tail hts)
    have hbody := infix_tail (infix_right (infix_tail hts))
    exact (h₁.whole htest (ih₁ htest trivial)).cons (ih₂ hbody trivial)
  | forTo hw hv hq h₁ hu h₂ h₃ ht h₄ ih₁ ih₂ ih₃ ih₄ =>
    intro hts _
    have hrest := infix_tail (infix_tail (infix_tail hts))
    have hfirst := infix_left hrest
    have hrest := infix_tail (infix_right hrest)
    have hlimit := infix_left hrest
    have hstep := infix_left (infix_right hrest)
    have hbody := infix_tail (infix_right (infix_right hrest))
    have hends := (h₁.whole hfirst (ih₁ hfirst trivial)).cons
      (h₂.whole hlimit (ih₂ hlimit trivial))
    exact (hends.append (ih₃ hstep trivial)).append (ih₄ hbody trivial)
  | function hw hn ho hp hc h ih =>
    exact fun hts _ =>
      ih (infix_tail (infix_right (infix_tail (infix_right (infix_tail hts))))) trivial
  | step _ h ih | arrow _ h ih | signed _ h ih | not _ h ih | returnValue _ h ih =>
    intro hts _
    exact h.whole (infix_tail hts) (ih (infix_tail hts) trivial)
  | rebind _ _ h ih =>
    intro hts _
    have hx := infix_tail (infix_tail hts)
    exact h.whole hx (ih hx trivial)
  | declare _ _ _ h ih =>
    intro hts _
    have hx := infix_tail (infix_tail (infix_tail hts))
    exact h.whole hx (ih hx trivial)
  | routine h _ ih | lined h _ ih =>
    intro hts _
    exact h.block_whole (infix_left hts) (ih (infix_left hts) trivial)
  | inline h ih => exact fun hts _ => h.whole hts (ih hts trivial)
  | call hf ho ha hc ihf iha =>
    rintro hts rfl
    have hstart := covering_start_append hf.applied_ne_nil
    have hcallee := infix_left hts
    have hargs := infix_left (infix_tail (infix_right hts))
    rw [hstart] at hf
    exact (hf.applied_whole hcallee (ihf hcallee (hstart _))).cons (iha hargs trivial)
  | index hf ho hp hc ihf ihp =>
    rintro hts rfl
    have hstart := covering_start_append hf.applied_ne_nil
    have htarget := infix_left hts
    have hplace := infix_left (infix_tail (infix_right hts))
    rw [hstart] at hf
    exact (hf.applied_whole htarget (ihf htarget (hstart _))).cons
      (hp.whole hplace (ihp hplace trivial))
  | power hb ho hx ihb ihx =>
    intro hts _
    have hbase := infix_left hts
    have hexponent := infix_tail (infix_right hts)
    exact (hb.whole hbase (ihb hbase trivial)).cons (hx.whole hexponent (ihx hexponent trivial))
  | joined hl ho hr ihl ihr =>
    intro hts _
    have hleft := infix_left hts
    have hright := infix_tail (infix_right hts)
    exact (hl.operands_whole hleft (ihl hleft trivial)).cons
      (hr.whole hright (ihr hright trivial))
  | items h hr ih ihr =>
    intro hts _
    exact (h.whole (infix_left hts) (ih (infix_left hts) trivial)).cons
      (ihr (infix_right hts) trivial)
  | further hc h hr ih ihr =>
    intro hts _
    have hx := infix_left (infix_tail hts)
    exact (h.whole hx (ih hx trivial)).cons (ihr (infix_right (infix_tail hts)) trivial)
  | lastLine h hk ih => exact fun hts _ => h.whole hts (ih hts trivial)
  | line h hs hr ih ihr =>
    intro hts _
    exact (h.whole (infix_left hts) (ih (infix_left hts) trivial)).cons
      (ihr (infix_right (infix_right hts)) trivial)
  | armLined h₁ ht h₂ ih₁ ih₂ =>
    intro hts _
    have htest := infix_left hts
    have hbody := infix_tail (infix_right hts)
    exact (h₁.whole htest (ih₁ htest trivial)).cons (h₂.block_whole hbody (ih₂ hbody trivial))
  | armInline h₁ ht h₂ ih₁ ih₂ =>
    intro hts _
    have htest := infix_left hts
    have hbody := infix_tail (infix_right hts)
    exact (h₁.whole htest (ih₁ htest trivial)).cons (h₂.whole hbody (ih₂ hbody trivial))
  | elif h he hr ih ihr | otherwise h he hr ih ihr =>
    intro hts _
    exact (ih (infix_left hts) trivial).append (ihr (infix_tail (infix_right hts)) trivial)

end Grammar

end Scriptlet
