import Scriptlet.Proofs.Grammar.Derivation

/-!
# How phrases begin

The first token of a node tells which production it comes from, so that a
reader that looks at one token, or two for an assignment, goes the right way.
No phrase takes the end of the text.
-/

set_option autoImplicit false

namespace Scriptlet

open Token (Kind)

namespace Grammar

/-- Whether an atom can begin with a token of this kind. -/
def startsAtom (k : Kind) : Bool :=
  (literal? k).isSome || k.isMark .leftParen || k.isMark .leftSquare || k.isKeyword .if
    || k.isKeyword .for || k.isKeyword .while || k.isKeyword .fun

def Level.starts : Level → Kind → Bool
  | .atom, k | .application, k | .power, k => startsAtom k
  | .factor, k | .product, k | .sum, k => startsAtom k || (signOp? k).isSome
  | .comparison, k => startsAtom k || (signOp? k).isSome || k.isKeyword .not
  | .expression, k => startsExpression k
  | .statement, k =>
    startsExpression k || k.isKeyword .return || k.isKeyword .continue || k.isKeyword .break

/-- Whether the level is below that of assignments. -/
def Level.operates : Level → Bool
  | .expression | .statement => false
  | _ => true

theorem startsExpression_eq (k : Kind) :
    startsExpression k = (startsAtom k || (signOp? k).isSome || k.isKeyword .not
      || k.isKeyword .var) := by
  cases k with
  | keyword w => cases w <;> rfl
  | mark m => cases m <;> rfl
  | _ => rfl

theorem assigns_cons {t : Token} (h : ∀ name, t.kind ≠ .identifier name) (ts : List Token) :
    assigns (kinds (t :: ts)) = false := by
  cases hk : t.kind with
  | identifier name => exact absurd hk (h name)
  | _ => simp [kinds, hk, assigns]

theorem assigns_append {ts us : List Token} {o : Token} (hne : ts ≠ [])
    (h : assigns (kinds ts) = false) (ho : o.kind ≠ .mark .equal) :
    assigns (kinds (ts ++ o :: us)) = false := by
  match ts, hne with
  | [t], _ =>
    cases hk : t.kind with
    | identifier name =>
      have hequal : o.kind.isMark .equal = false := by
        cases hko : o.kind <;> simp_all [Kind.isMark]
      simp [kinds, hk, assigns, hequal]
    | _ => simp [kinds, hk, assigns]
  | t :: u :: ts, _ =>
    cases hk : t.kind with
    | identifier name => simpa [kinds, hk, assigns] using h
    | _ => simp [kinds, hk, assigns]

theorem Chain.op?_ne_equal {chain : Chain} {o : Token} {op : BinaryOp}
    (ho : chain.op? o.kind = some op) : o.kind ≠ .mark .equal := by
  intro he
  rw [he] at ho
  cases chain <;> simp [Chain.op?, productOp?, sumOp?, comparisonOp?, logicOp?] at ho

/-- What is known of the first tokens of a phrase. -/
def Opens : Phrase → List Token → Prop
  | .node level _, ts => ∃ t us, ts = t :: us ∧ level.starts t.kind = true ∧
      (level.operates = true → assigns (kinds ts) = false)
  | .operands chain _, ts => ∃ t us, ts = t :: us ∧ chain.operand.starts t.kind = true ∧
      assigns (kinds ts) = false
  | .applied _ _, ts => ∃ t us, ts = t :: us ∧ startsAtom t.kind = true ∧
      assigns (kinds ts) = false
  | _, _ => True

theorem opens_node {level : Level} {n : Node} {t : Token} (hs : level.starts t.kind = true)
    (hi : ∀ name, t.kind ≠ .identifier name) (us : List Token) :
    Opens (.node level n) (t :: us) :=
  ⟨t, us, rfl, hs, fun _ => assigns_cons hi us⟩

/-- No operator is ahead of what is no operand. -/
theorem opens_plain {level : Level} {n : Node} {t : Token} {us : List Token}
    (hlevel : level.operates = false) (hs : level.starts t.kind = true) :
    Opens (.node level n) (t :: us) :=
  ⟨t, us, rfl, hs, fun h => absurd (hlevel.symm.trans h) Bool.false_ne_true⟩

theorem Reads.opens {p : Phrase} {ts : List Token} {k : Kind} (h : Reads p ts k) : Opens p ts := by
  induction h with
  | @literal t e k h => exact ⟨t, [], rfl, by simp [Level.starts, startsAtom, h], fun _ => by
      cases hk : t.kind <;> simp [kinds, hk, assigns]⟩
  | parens ho _ _ _ =>
    exact opens_node (by simp [Level.starts, startsAtom, ho, Kind.isMark]) (by simp [ho]) _
  | list ho _ _ _ =>
    exact opens_node (by simp [Level.starts, startsAtom, ho, Kind.isMark]) (by simp [ho]) _
  | ifElse hw _ _ =>
    exact opens_node (by simp [Level.starts, startsAtom, hw, Kind.isKeyword]) (by simp [hw]) _
  | forTo hw =>
    exact opens_node (by simp [Level.starts, startsAtom, hw, Kind.isKeyword]) (by simp [hw]) _
  | whileDo hw =>
    exact opens_node (by simp [Level.starts, startsAtom, hw, Kind.isKeyword]) (by simp [hw]) _
  | function hw =>
    exact opens_node (by simp [Level.starts, startsAtom, hw, Kind.isKeyword]) (by simp [hw]) _
  | target _ ih =>
    obtain ⟨t, us, rfl, hs, ha⟩ := ih
    exact ⟨t, us, rfl, hs, ha rfl⟩
  | call _ ho _ _ ih _ =>
    obtain ⟨t, us, rfl, hs, ha⟩ := ih
    exact ⟨t, _, rfl, hs, assigns_append (by simp) ha (by simp [ho])⟩
  | index _ ho _ _ ih _ =>
    obtain ⟨t, us, rfl, hs, ha⟩ := ih
    exact ⟨t, _, rfl, hs, assigns_append (by simp) ha (by simp [ho])⟩
  | application _ _ _ ih =>
    obtain ⟨t, us, rfl, hs, ha⟩ := ih
    exact ⟨t, us, rfl, hs, fun _ => ha⟩
  | base _ _ ih => exact ih
  | power _ ho _ ih _ =>
    obtain ⟨t, us, rfl, hs, ha⟩ := ih
    exact ⟨t, _, rfl, hs, fun _ => assigns_append (by simp) (ha rfl) (by simp [ho])⟩
  | unsigned _ ih =>
    obtain ⟨t, us, rfl, hs, ha⟩ := ih
    exact ⟨t, us, rfl, by simp [Level.starts, show startsAtom t.kind = true from hs], ha⟩
  | @signed s op x ts k hs _ _ =>
    refine opens_node (by simp [Level.starts, hs]) ?_ _
    intro name hk
    simp [hk, signOp?] at hs
  | first _ ih =>
    rename_i chain n ts k _
    obtain ⟨t, us, rfl, hs, ha⟩ := ih
    exact ⟨t, us, rfl, hs, ha (by cases chain <;> rfl)⟩
  | joined _ ho _ ih _ =>
    obtain ⟨t, us, rfl, hs, ha⟩ := ih
    exact ⟨t, _, rfl, hs, assigns_append (by simp) ha (Chain.op?_ne_equal ho)⟩
  | @chain chain n ts k _ _ _ ih =>
    obtain ⟨t, us, rfl, hs, ha⟩ := ih
    refine ⟨t, us, rfl, ?_, fun _ => ha⟩
    cases chain with
    | logic =>
      have hs : (startsAtom t.kind || (signOp? t.kind).isSome || t.kind.isKeyword .not) = true := hs
      simp [Chain.level, Level.starts, startsExpression_eq, hs]
    | comparison =>
      have hs : (startsAtom t.kind || (signOp? t.kind).isSome) = true := hs
      simp [Chain.level, Level.starts, hs]
    | _ => exact hs
  | not hw _ _ =>
    exact opens_node (by simp [Level.starts, hw, Kind.isKeyword]) (by simp [hw]) _
  | declare hw => exact opens_plain rfl (by simp [Level.starts, startsExpression, hw])
  | rebind hv => exact opens_plain rfl (by simp [Level.starts, startsExpression, hv])
  | returnNothing hw | returnValue hw | «continue» hw | «break» hw =>
    exact opens_plain rfl (by simp [Level.starts, hw, Kind.isKeyword])
  | expression _ ih =>
    obtain ⟨t, us, rfl, hs, -⟩ := ih
    have hs : startsExpression t.kind = true := hs
    exact opens_plain rfl (by simp [Level.starts, hs])
  | _ => trivial

theorem Reads.ne_nil {level : Level} {n : Node} {ts : List Token} {k : Kind}
    (h : Reads (.node level n) ts k) : ts ≠ [] := by
  obtain ⟨t, us, rfl, -⟩ := h.opens
  simp

/-! ## No phrase takes the end of the text -/

theorem literal?_stop : literal? (.mark .stop) = none := rfl

theorem signOp?_stop : signOp? (.mark .stop) = none := rfl

theorem Chain.op?_stop (chain : Chain) : chain.op? (.mark .stop) = none := by
  cases chain <;> rfl

theorem Named.no_stop {name : Option String} {ts : List Token} (h : Named name ts) :
    ∀ t ∈ ts, t.kind ≠ .mark .stop := by
  cases h with
  | none => simp
  | some ht => simp [ht]

theorem FurtherParams.no_stop {ps : List Param} {ts : List Token} (h : FurtherParams ps ts) :
    ∀ t ∈ ts, t.kind ≠ .mark .stop := by
  induction h with
  | nil => simp
  | cons hc ht _ ih =>
    intro t hm
    rcases List.mem_cons.mp hm with rfl | hm
    · simp [hc]
    · rcases List.mem_cons.mp hm with rfl | hm
      · simp [ht]
      · exact ih t hm

theorem Params.no_stop {ps : List Param} {ts : List Token} (h : Params ps ts) :
    ∀ t ∈ ts, t.kind ≠ .mark .stop := by
  cases h with
  | nil => simp
  | cons ht h =>
    intro t hm
    rcases List.mem_cons.mp hm with rfl | hm
    · simp [ht]
    · exact h.no_stop t hm

theorem Reads.no_stop {p : Phrase} {ts : List Token} {k : Kind} (h : Reads p ts k) :
    ∀ t ∈ ts, t.kind ≠ .mark .stop := by
  induction h with
  | literal h =>
    intro t ht hk
    obtain rfl := List.mem_singleton.mp ht
    simp [hk, literal?_stop] at h
  | function hw hn ho hp hc _ ih =>
    have hnames := hn.no_stop
    have hparams := hp.no_stop
    grind
  | signed hs _ ih =>
    have hstop := signOp?_stop
    grind
  | @joined chain op l r o ts us k _ ho _ ihl ihr =>
    have hstop := chain.op?_stop
    grind
  | line _ hs _ ih ihr =>
    have hseps := hs.2
    grind
  | block hs _ _ ih =>
    have hseps := hs.2
    grind
  | _ => grind

end Grammar

end Scriptlet
